import TaggedHeap.Heap.Raw
import TaggedHeap.Text.Utf8

namespace TaggedHeap.Heap

def isNil (h : Heap) (x : Handle) : Bool :=
  x == h.nil

def tagOf (h : Heap) (x : Handle) : Except Failure TypeTag := do
  let r ← h.record x
  return r.tag

def attributesOf (h : Heap) (x : Handle) : Except Failure Handle := do
  let r ← h.record x
  return r.attributes

def expectTag (h : Heap) (x : Handle) (expected : TypeTag) : Except Failure Unit := do
  let t ← h.tagOf x
  if t = expected then return () else throw (.mismatch (.tag expected) t)

def vectorLength (h : Heap) (x : Handle) : Except Failure Nat := do
  let t ← h.tagOf x
  if t.isVector then h.rawLength x else throw (.mismatch .vector t)

def project (h : Heap) (x : Handle) (f : Field) : Except Failure Handle := do
  let t ← h.tagOf x
  if f.accepts t then h.rawField x f else throw (.mismatch (.tag f.layout.tag) t)

def charBytes (h : Heap) (x : Handle) : Except Failure (List UInt8) := do
  h.expectTag x .char
  h.rawBytes x

def charText (h : Heap) (x : Handle) : Except Failure String := do
  let bytes ← h.charBytes x
  match Text.Utf8.decode bytes with
  | .ok text => return text
  | .error defect => throw (.denied (.malformedText defect.message))

def symbolText (h : Heap) (x : Handle) : Except Failure String := do
  let printName ← h.project x .printName
  h.charText printName

end TaggedHeap.Heap
