import TaggedHeap.Heap.Symbol
import TaggedHeap.Missing

namespace TaggedHeap.Heap

def newRawLogical (h : Heap) (elements : List Int32) : Handle × Heap :=
  h.alloc .logical (.logical elements.toArray)

def newLogical (h : Heap) (values : List (Option Bool)) : Handle × Heap :=
  h.newRawLogical (values.map Missing.encodeLogical)

def newInteger (h : Heap) (elements : List Int32) : Handle × Heap :=
  h.alloc .integer (.integer elements.toArray)

def newReal (h : Heap) (elements : List UInt64) : Handle × Heap :=
  h.alloc .real (.real elements.toArray)

def newList (h : Heap) (elements : List Handle) : Handle × Heap :=
  h.alloc .list (.values elements.toArray)

def newExpression (h : Heap) (elements : List Handle) : Handle × Heap :=
  h.alloc .expression (.values elements.toArray)

/-- Interns texts one after the other, and protects each while the others follow. -/
def internAll : List (Option String) → Heap → List Handle × Heap
  | [], h => ([], h)
  | value :: values, h =>
    let (x, h) :=
      match value with
      | some text => h.internText text
      | none => (h.missingString, h)
    let (xs, h) := internAll values (h.protect x)
    (x :: xs, h)

def newString (h : Heap) (values : List (Option String)) : Handle × Heap :=
  let (elements, h) := internAll values h
  let (x, h) := h.alloc .string (.strings elements.toArray)
  (x, h.unprotect values.length)

def setString (h : Heap) (x : Handle) (offset : Nat) (value : Handle) : Outcome Unit :=
  match h.record value with
  | .error failure => (.error failure, h)
  | .ok char =>
    if char.tag = .char then
      h.update x fun r ↦
        match r.payload with
        | .strings elements =>
          if offset < elements.size then
            .ok { r with payload := .strings (elements.setIfInBounds offset value) }
          else .error (.denied (.indexOutOfRange offset elements.size))
        | _ => .error (.mismatch .stringVector r.tag)
    else (.error (.mismatch (.tag .char) char.tag), h)

end TaggedHeap.Heap
