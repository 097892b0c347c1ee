import TaggedHeap.Arena

namespace TaggedHeap

namespace Arena

def isUnmarked (a : Arena) (x : Handle) : Bool :=
  match a.get? x with
  | some r => !r.marked
  | none => false

def linksOf (a : Arena) (x : Handle) : List Handle :=
  match a.get? x with
  | some r => r.links
  | none => []

/-- Each round marks one record and puts its links in front of the work, so as many rounds as
there are slots always suffice. Returns the number of marks that were set, on top of `count`. -/
def markFrom : (rounds : Nat) → Arena → (work : List Handle) → (count : Nat) → Nat × Arena
  | 0, a, _, count => (count, a)
  | rounds + 1, a, work, count =>
    match work.dropWhile fun x ↦ !a.isUnmarked x with
    | [] => (count, a)
    | x :: rest =>
      let work := a.linksOf x ++ rest
      markFrom rounds (a.modify x fun r ↦ { r with marked := true }) work (count + 1)

/-- Marks every record that the roots lead to, and counts the marks. Handles among the roots that
find no record are passed over. -/
def mark (a : Arena) (roots : List Handle) : Nat × Arena :=
  markFrom a.slots.size a roots 0

end Arena

namespace Slot

def isGarbage (s : Slot) : Bool :=
  match s.record with
  | some r => !r.marked
  | none => false

def sweep (s : Slot) : Slot :=
  match s.record with
  | some r =>
    if r.marked then { s with record := some { r with marked := false } }
    else ⟨s.generation + 1, none⟩
  | none => s

end Slot

namespace Arena

/-- The slots of unmarked records in ascending order. -/
def garbage (a : Arena) : List UInt32 :=
  (List.range a.slots.size).filterMap fun i ↦
    if a.slots[i]?.any Slot.isGarbage then some (UInt32.ofNat i) else none

/-- Empties the slots of unmarked records and returns their number. -/
def sweep (a : Arena) : Nat × Arena :=
  let freed := a.garbage
  (freed.length,
    { a with
      slots := (a.slots.toList.map Slot.sweep).toArray
      free := freed.reverse ++ a.free
      live := a.live - freed.length })

end Arena

structure Stats where
  collections : Nat
  objectsFreed : Nat
  lastMarked : Nat
  lastFreed : Nat
  liveObjects : Nat
deriving DecidableEq, Repr

def Stats.initial : Stats :=
  ⟨0, 0, 0, 0, 0⟩

def Stats.update (s : Stats) (marked freed live : Nat) : Stats :=
  ⟨s.collections + 1, s.objectsFreed + freed, marked, freed, live⟩

end TaggedHeap
