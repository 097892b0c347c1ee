import TaggedHeap.Heap.Inspection

namespace TaggedHeap

/-- A chain may be cyclic, so a walk ends with a failure when it would pass its limit. A walk that
has ended stays so. -/
structure Walk where
  cursor : Handle
  walked : Nat
  limit : Nat
  finished : Bool
deriving DecidableEq

namespace Walk

def defaultLimit : Nat :=
  1000000

def start (x : Handle) (limit : Nat) : Walk :=
  ⟨x, 0, limit, false⟩

def finish (w : Walk) : Walk :=
  { w with finished := true }

def moveTo (w : Walk) (x : Handle) : Walk :=
  { w with cursor := x, walked := w.walked + 1 }

def bound (w : Walk) : Nat :=
  w.limit - w.walked + 1

def pastLimit (w : Walk) : Failure :=
  .denied (.traversalLimit w.limit)

end Walk

/-- What a step of a walk yields, and the walk after it. Nothing is yielded at the end. -/
abbrev Step (α : Type) :=
  Option (Except Failure α) × Walk

/-- What a whole walk yields, and the failure that it ended with, if any. -/
structure Trail (α : Type) where
  items : List α
  failure : Option Failure

namespace Walk

variable {α β : Type}

/-- Goes on with a walk and folds what it yields, until it ends or the fold has its result. -/
@[specialize]
def foldUntil (next : Walk → Step α) (f : β → α → Except Failure (β ⊕ β)) :
    (steps : Nat) → Walk → β → Except Failure β
  | 0, _, b => .ok b
  | steps + 1, w, b =>
    match next w with
    | (none, _) => .ok b
    | (some (.error failure), _) => .error failure
    | (some (.ok a), w) =>
      match f b a with
      | .error failure => .error failure
      | .ok (.inl b) => .ok b
      | .ok (.inr b) => foldUntil next f steps w b

@[specialize]
def trailFrom (next : Walk → Step α) : (steps : Nat) → Walk → List α → Trail α × Walk
  | 0, w, items => (⟨items.reverse, none⟩, w)
  | steps + 1, w, items =>
    match next w with
    | (none, w) => (⟨items.reverse, none⟩, w)
    | (some (.error failure), w) => (⟨items.reverse, some failure⟩, w)
    | (some (.ok a), w) => trailFrom next steps w (a :: items)

def trail (next : Walk → Step α) (w : Walk) : Trail α × Walk :=
  trailFrom next w.bound w []

end Walk

namespace Heap

def readCell (h : Heap) (x : Handle) : Except Failure (Handle × Handle × Handle) := do
  let t ← h.tagOf x
  if t.isCell then h.rawCell x else throw (.mismatch (.tag .pairlist) t)

/-- One step along the cells of a list: yields the tag and the head of the cell it leaves. -/
def nextCell (h : Heap) (w : Walk) : Step (Handle × Handle) :=
  if w.finished then (none, w)
  else if w.cursor = h.nil then (none, w.finish)
  else if w.limit ≤ w.walked then (some (.error w.pastLimit), w.finish)
  else
    match h.readCell w.cursor with
    | .ok (tag, head, tail) => (some (.ok (tag, head)), w.moveTo tail)
    | .error failure => (some (.error failure), w.finish)

/-- One step outwards along enclosing environments: yields what it arrives at. -/
def nextEnclosing (h : Heap) (w : Walk) : Step Handle :=
  if w.finished then (none, w)
  else
    match h.project w.cursor .enclosing with
    | .ok parent =>
      if parent = h.nil then (none, w.finish)
      else if w.limit ≤ w.walked then (some (.error w.pastLimit), w.finish)
      else (some (.ok parent), w.moveTo parent)
    | .error failure => (some (.error failure), w.finish)

def findHead (h : Heap) (test : Handle → Except Failure Bool) (list : Handle) :
    Except Failure (Option Handle) :=
  let w := Walk.start list Walk.defaultLimit
  Walk.foldUntil h.nextCell
    (fun _ cell ↦ do
      let hit ← test cell.1
      return if hit then .inl (some cell.2) else .inr none)
    w.bound w none

def attributeBySymbol (h : Heap) (x symbol : Handle) : Except Failure (Option Handle) := do
  let attributes ← h.attributesOf x
  h.findHead (fun tag ↦ .ok (tag == symbol)) attributes

/-- Looks an attribute up by the text of its tag. Cells without a tag have no name. -/
def attributeByName (h : Heap) (x : Handle) (name : String) : Except Failure (Option Handle) := do
  let attributes ← h.attributesOf x
  h.findHead
    (fun tag ↦ if tag = h.nil then .ok false else (fun text ↦ text == name) <$> h.symbolText tag)
    attributes

def tagNames (h : Heap) (list : Handle) : Except Failure (List String) :=
  let w := Walk.start list Walk.defaultLimit
  List.reverse <$> Walk.foldUntil h.nextCell
    (fun names cell ↦ do
      let name ← h.symbolText cell.1
      return .inr (name :: names))
    w.bound w []

end Heap

end TaggedHeap
