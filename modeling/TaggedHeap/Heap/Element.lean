import TaggedHeap.Heap.Matrix
import TaggedHeap.Missing

namespace TaggedHeap.Heap

def checkElement (h : Heap) (x : Handle) (expected : Shape) (accepts : TypeTag → Bool)
    (offset : Nat) : Except Failure Unit := do
  let t ← h.tagOf x
  if accepts t then
    let length ← h.rawLength x
    if offset < length then return () else throw (.denied (.indexOutOfRange offset length))
  else throw (.mismatch expected t)

variable (h : Heap) (x : Handle) (offset : Nat)

def getRawLogical : Except Failure Int32 := do
  h.checkElement x .logicalVector (· == .logical) offset
  h.rawLogical x offset

/-- Every nonzero element counts as true. -/
def getLogical : Except Failure Bool := do
  let n ← h.getRawLogical x offset
  return n != 0

/-- A read with a question mark gives `none` for a missing element. -/
def getLogical? : Except Failure (Option Bool) := do
  let n ← h.getRawLogical x offset
  return Missing.decodeLogical n

def getInteger : Except Failure Int32 := do
  h.checkElement x .integerVector (· == .integer) offset
  h.rawInteger x offset

def getInteger? : Except Failure (Option Int32) := do
  let n ← h.getInteger x offset
  return Missing.decodeInteger n

def getReal : Except Failure UInt64 := do
  h.checkElement x .realVector (· == .real) offset
  h.rawReal x offset

def getReal? : Except Failure (Option UInt64) := do
  let bits ← h.getReal x offset
  return Missing.decodeReal bits

def getChar : Except Failure Handle := do
  h.checkElement x .stringVector (· == .string) offset
  h.rawString x offset

def getBytes : Except Failure (List UInt8) := do
  let char ← h.getChar x offset
  h.charBytes char

def getBytes? : Except Failure (Option (List UInt8)) := do
  let char ← h.getChar x offset
  match Missing.decodeString char h.missingString with
  | some char => some <$> h.charBytes char
  | none => return none

def getText : Except Failure String := do
  let char ← h.getChar x offset
  h.charText char

def getText? : Except Failure (Option String) := do
  let char ← h.getChar x offset
  match Missing.decodeString char h.missingString with
  | some char => some <$> h.charText char
  | none => return none

def getValue : Except Failure Handle := do
  h.checkElement x .genericVector TypeTag.isGenericVector offset
  h.rawValue x offset

/-- The names in each bucket of an environment's hash table that is not empty. -/
def bucketNames : Except Failure (List (Nat × List String)) := do
  let table ← h.project x .hashTable
  let size ← h.vectorLength table
  let buckets ← (List.range size).mapM fun i ↦ do
    let bucket ← h.getValue table i
    if bucket = h.nil then return none
    let names ← h.tagNames bucket
    return some (i, names)
  return buckets.filterMap id

end TaggedHeap.Heap
