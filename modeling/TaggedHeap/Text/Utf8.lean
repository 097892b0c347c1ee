namespace TaggedHeap.Text.Utf8

inductive Defect
  /-- The bytes from `index` begin like a sequence for `length` bytes, and then break off. -/
  | invalid (length index : Nat)
  /-- The input ends inside the sequence that begins at `index`. -/
  | incomplete (index : Nat)
deriving DecidableEq, Repr

def Defect.message : Defect → String
  | .invalid length index =>
    "invalid utf-8 sequence of " ++ toString length ++ " bytes from index " ++ toString index
  | .incomplete index => "incomplete utf-8 byte sequence from index " ++ toString index

structure Range where
  low : UInt8
  high : UInt8

def Range.contains (r : Range) (b : UInt8) : Bool :=
  r.low ≤ b && b ≤ r.high

def continuation : Range := ⟨0x80, 0xBF⟩

/-- What has to follow a leading byte. The range of the second byte excludes overlong forms,
surrogates and numbers beyond the last code point. -/
def followers (lead : UInt8) : Option (List Range) :=
  if lead ≤ 0x7F then some []
  else if lead < 0xC2 then none
  else if lead ≤ 0xDF then some [continuation]
  else if lead = 0xE0 then some [⟨0xA0, 0xBF⟩, continuation]
  else if lead = 0xED then some [⟨0x80, 0x9F⟩, continuation]
  else if lead ≤ 0xEF then some [continuation, continuation]
  else if lead = 0xF0 then some [⟨0x90, 0xBF⟩, continuation, continuation]
  else if lead ≤ 0xF3 then some [continuation, continuation, continuation]
  else if lead = 0xF4 then some [⟨0x80, 0x8F⟩, continuation, continuation]
  else none

/-- Reads on in a sequence that began at `start`, of which `seen` bytes are read and `due` bytes
are still to come. -/
def firstDefect? (start seen : Nat) : List Range → List UInt8 → Option Defect
  | [], [] => none
  | _ :: _, [] => some (.incomplete start)
  | [], b :: rest =>
    match followers b with
    | none => some (.invalid 1 (start + seen))
    | some due => firstDefect? (start + seen) 1 due rest
  | r :: due, b :: rest =>
    if r.contains b then firstDefect? start (seen + 1) due rest else some (.invalid seen start)

def encode (text : String) : List UInt8 :=
  text.toByteArray.data.toList

def decode (bytes : List UInt8) : Except Defect String :=
  match String.fromUTF8? ⟨bytes.toArray⟩ with
  | some text => .ok text
  | none => .error ((firstDefect? 0 0 [] bytes).getD (.incomplete bytes.length))

theorem fromUTF8?_eq_some_iff (bytes : ByteArray) (s : String) :
    String.fromUTF8? bytes = some s ↔ s.toByteArray = bytes := by
  unfold String.fromUTF8?
  split
  · next h =>
    rw [Option.some.injEq]
    constructor
    · intro hs
      rw [← hs]
      rfl
    · intro hs
      subst hs
      rfl
  · next h =>
    constructor
    · intro hs
      cases hs
    · intro hs
      subst hs
      exact absurd s.isValidUTF8 h

theorem decode_eq_ok_iff (bytes : List UInt8) (s : String) :
    decode bytes = .ok s ↔ encode s = bytes := by
  have hb : encode s = bytes ↔ s.toByteArray = ⟨bytes.toArray⟩ := by
    constructor
    · intro h
      apply ByteArray.ext
      rw [← h]
      rfl
    · intro h
      unfold encode
      rw [h]
  rw [hb, ← fromUTF8?_eq_some_iff]
  unfold decode
  cases String.fromUTF8? ⟨bytes.toArray⟩ with
  | none => simp
  | some t => simp

end TaggedHeap.Text.Utf8
