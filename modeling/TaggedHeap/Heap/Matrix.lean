import TaggedHeap.Heap.Chain

namespace TaggedHeap.Heap

def extent (n : Int32) : Except Failure Nat :=
  if n < 0 then .error (.dimensions (.negative n)) else .ok n.toInt.toNat

def extents (h : Heap) (x : Handle) : Except Failure (Option (List Nat)) := do
  match ← h.attributeBySymbol x h.dimSymbol with
  | none => return none
  | some dim =>
    let t ← h.tagOf dim
    if t = .integer then
      let length ← h.rawLength dim
      let numbers ← (List.range length).mapM (h.rawInteger dim)
      let extents ← numbers.mapM extent
      return some extents
    else throw (.dimensions (.notInteger t))

/-- Nothing keeps the extents in agreement with the vector, so every reader checks them anew. -/
def dimensions (h : Heap) (x : Handle) : Except Failure (Option (Nat × Nat)) := do
  let length ← h.vectorLength x
  match ← h.extents x with
  | none => return none
  | some [nrow, ncol] =>
    if nrow * ncol = length then return some (nrow, ncol)
    else throw (.dimensions (.mismatch nrow ncol length))
  | some extents => throw (.dimensions (.count extents.length))

def nrows (h : Heap) (x : Handle) : Except Failure Nat := do
  let length ← h.vectorLength x
  match ← h.extents x with
  | none => return length
  | some (nrow :: _) => return nrow
  | some [] => throw (.dimensions .empty)

def divide (m n : Nat) : Except Failure Nat :=
  if n = 0 then .error (.fault .divisionByZero) else .ok (m / n)

/-- As many columns are counted as the vector fills. -/
def filledColumns (length nrow : Nat) : Except Failure Nat :=
  if nrow = 0 then .ok 0 else divide length nrow

theorem filledColumns_eq (length nrow : Nat) :
    filledColumns length nrow = .ok (length / nrow) := by
  unfold filledColumns divide
  by_cases hn : nrow = 0
  · rw [if_pos hn, hn, Nat.div_zero]
  · rw [if_neg hn, if_neg hn]

def matrixOffset (h : Heap) (x : Handle) (row column : Nat) : Except Failure Nat := do
  let length ← h.vectorLength x
  let nrow ← h.nrows x
  let ncol ← filledColumns length nrow
  if row < nrow ∧ column < ncol then return column * nrow + row
  else throw (.denied (.cellOutOfRange row column nrow ncol))

end TaggedHeap.Heap
