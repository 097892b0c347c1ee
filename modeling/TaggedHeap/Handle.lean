import TaggedHeap.Text.Hexadecimal

namespace TaggedHeap

/-- A slot number with the generation that the slot had when the handle was issued. -/
structure Handle where
  slot : UInt32
  generation : UInt32
deriving DecidableEq, Inhabited, Repr

namespace Handle

/-- Every word names exactly one handle, so that a stored word can always be read back. -/
def ofBits (bits : UInt64) : Handle where
  slot := bits.toUInt32
  generation := (bits >>> 32).toUInt32

def bits (x : Handle) : UInt64 :=
  (x.generation.toUInt64 <<< 32) ||| x.slot.toUInt64

theorem toNat_bits (x : Handle) :
    x.bits.toNat = x.generation.toNat * 4294967296 + x.slot.toNat := by
  have hg := x.generation.toNat_lt
  have hs := x.slot.toNat_lt
  have hm : x.generation.toNat <<< 32 % 2 ^ 64 = 2 ^ 32 * x.generation.toNat := by
    rw [Nat.shiftLeft_eq, Nat.mul_comm]
    exact Nat.mod_eq_of_lt (by omega)
  have h32 : (32 : UInt64).toNat % 64 = 32 := rfl
  simp only [bits, UInt64.toNat_or, UInt64.toNat_shiftLeft, UInt32.toNat_toUInt64]
  rw [h32, hm, ← Nat.two_pow_add_eq_or_of_lt hs]
  omega

theorem ofBits_bits (x : Handle) : ofBits x.bits = x := by
  have hs := x.slot.toNat_lt
  have hg := x.generation.toNat_lt
  have h32 : (32 : UInt64).toNat % 64 = 32 := rfl
  cases x with
  | mk slot generation =>
    simp only [ofBits, mk.injEq]
    constructor
    · apply UInt32.toNat_inj.mp
      rw [UInt64.toNat_toUInt32, toNat_bits]
      simp only at hs ⊢
      omega
    · apply UInt32.toNat_inj.mp
      rw [UInt64.toNat_toUInt32, UInt64.toNat_shiftRight, toNat_bits, Nat.shiftRight_eq_div_pow,
        h32]
      simp only at hs hg ⊢
      omega

def text (x : Handle) : String :=
  Text.hexadecimal x.bits.toNat

def debugText (x : Handle) : String :=
  "Sexp(" ++ x.text ++ ")"

end Handle

end TaggedHeap
