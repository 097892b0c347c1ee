import TaggedHeap.Heap.Cell
import TaggedHeap.Heap.Vector

namespace TaggedHeap.Heap

def setAttributes (h : Heap) (x attributes : Handle) : Outcome Unit :=
  h.update x fun r ↦ .ok { r with attributes := attributes }

inductive Search
  | found (cell : Handle)
  /-- The list ends after the cell `last`, or is empty if `last` is `nil`. -/
  | absent (last : Handle)
  | broken (cell : Handle)
  | endless
deriving DecidableEq

def searchFrom (h : Heap) (name : Handle) : (cells : Nat) → (cell last : Handle) → Search
  | 0, cell, last => if cell = h.nil then .absent last else .endless
  | cells + 1, cell, last =>
    if cell = h.nil then .absent last
    else
      match (h.arena.get? cell).map Record.payload with
      | some (.cell _ tail tag) =>
        if tag = name then .found cell else h.searchFrom name cells tail cell
      | _ => .broken cell

/-- A search that passes more cells than there are slots has met a cell twice, and would go on for
ever. -/
def search (h : Heap) (name attributes : Handle) : Search :=
  h.searchFrom name (h.arena.slots.size + 1) attributes h.nil

def setAttributeProtected (h : Heap) (x name value : Handle) : Outcome Unit :=
  match h.record x with
  | .error failure => (.error failure, h)
  | .ok r =>
    match h.search name r.attributes with
    | .found cell => h.setField cell .head value
    | .broken cell => (.error (.stale cell), h)
    | .endless => (.error (.fault .endlessChain), h)
    | .absent last =>
      let (fresh, h) := h.alloc .pairlist (.cell value h.nil name)
      if last = h.nil then h.setAttributes x fresh else h.setField last .tail fresh

def setAttribute (h : Heap) (x name value : Handle) : Outcome Unit :=
  unprotectAfter 2 (((h.protect x).protect value).setAttributeProtected x name value)

/-- Extents are stored as 32-bit integers. -/
def extentLimit : Nat :=
  0x7FFFFFFF

/-- The product in an error message is at most the largest 64-bit number. -/
def productLimit : Nat :=
  0xFFFFFFFFFFFFFFFF

def dimensionDefect? (length nrow ncol : Nat) : Option DimensionDefect :=
  if nrow * ncol ≠ length then some (.product (min (nrow * ncol) productLimit) length)
  else if extentLimit < nrow then some (.tooLarge nrow)
  else if extentLimit < ncol then some (.tooLarge ncol)
  else none

def setDimensions (h : Heap) (x : Handle) (nrow ncol : Nat) : Outcome Unit :=
  match h.record x with
  | .error failure => (.error failure, h)
  | .ok r =>
    match r.payload.length? with
    | none => (.error (.mismatch .vector r.tag), h)
    | some length =>
      match dimensionDefect? length nrow ncol with
      | some defect => (.error (.dimensions defect), h)
      | none =>
        let (dim, h) := h.newInteger [Int32.ofNat nrow, Int32.ofNat ncol]
        unprotectAfter 1 ((h.protect dim).setAttribute x h.dimSymbol dim)

def setNames (h : Heap) (x : Handle) (names : List String) : Outcome Unit :=
  let (vector, h) := h.newString (names.map some)
  unprotectAfter 1 ((h.protect vector).setAttribute x h.namesSymbol vector)

end TaggedHeap.Heap
