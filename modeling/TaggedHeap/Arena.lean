import TaggedHeap.Record

namespace TaggedHeap

/-- Emptying a slot advances its generation, so that an old handle stays without a record even when
the slot is used again. -/
structure Slot where
  generation : UInt32
  record : Option Record
deriving DecidableEq

/-- A handle finds its record as long as the slot keeps the generation that the handle was issued
with. Emptied slots are taken before new ones, the one emptied last before all others. -/
structure Arena where
  slots : Array Slot
  free : List UInt32
  live : Nat
  seed : UInt32
deriving DecidableEq

namespace Arena

/-- Seeds of successive arenas are spread over all generations: the factor is odd, so no two of
the first `2 ^ 32` seeds agree. -/
def seedOf (ordinal : Nat) : UInt32 :=
  UInt32.ofNat ordinal * 0x9E3779B9

def empty (seed : UInt32) : Arena :=
  ⟨#[], [], 0, seed⟩

def firstHandle (a : Arena) : Handle :=
  ⟨0, a.seed⟩

def get? (a : Arena) (x : Handle) : Option Record :=
  match a.slots[x.slot.toNat]? with
  | none => none
  | some s => if s.generation = x.generation then s.record else none

def contains (a : Arena) (x : Handle) : Bool :=
  (a.get? x).isSome

/-- Changes the record of a handle. A stale handle changes nothing. -/
def modify (a : Arena) (x : Handle) (f : Record → Record) : Arena :=
  { a with
    slots := a.slots.modify x.slot.toNat fun s ↦
      if s.generation = x.generation then { s with record := s.record.map f } else s }

/-- Stores a record in a free slot, under a handle that found nothing before. -/
def insert (a : Arena) (r : Record) : Handle × Arena :=
  match a.free with
  | [] =>
    (⟨UInt32.ofNat a.slots.size, a.seed⟩,
      { a with slots := a.slots.push ⟨a.seed, some r⟩, live := a.live + 1 })
  | i :: rest =>
    (⟨i, (a.slots[i.toNat]?.map Slot.generation).getD a.seed⟩,
      { a with
        slots := a.slots.modify i.toNat fun s ↦ { s with record := some r }
        free := rest
        live := a.live + 1 })

theorem get?_modify (a : Arena) (x y : Handle) (f : Record → Record) :
    (a.modify x f).get? y = if x = y then (a.get? y).map f else a.get? y := by
  cases x with
  | mk i g =>
    cases y with
    | mk j k =>
      simp only [get?, modify, Array.getElem?_modify, Handle.mk.injEq, UInt32.toNat_inj]
      by_cases hij : i = j
      · subst hij
        cases a.slots[i.toNat]? with
        | none => simp
        | some s =>
          by_cases hg : s.generation = g
          · by_cases hk : g = k <;> simp [hg, hk]
          · by_cases hk : g = k
            · subst hk
              simp [hg]
            · simp [hg, hk]
      · simp [hij]

end Arena

end TaggedHeap
