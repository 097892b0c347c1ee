import TaggedHeap.Heap.Basic

namespace TaggedHeap.Heap

/-- Reads a part of a payload, under the name that a broken contract is reported with. -/
def raw {α : Type} (h : Heap) (what : String) (x : Handle) (part : Payload → Option α) :
    Except Failure α :=
  match (h.arena.get? x).bind fun r ↦ part r.payload with
  | some a => .ok a
  | none => .error (.fault (.brokenRead what x))

def rawLength (h : Heap) (x : Handle) : Except Failure Nat :=
  h.raw "length" x Payload.length?

def rawLogical (h : Heap) (x : Handle) (offset : Nat) : Except Failure Int32 :=
  h.raw "logical_elt" x fun p ↦ p.logical? offset

def rawInteger (h : Heap) (x : Handle) (offset : Nat) : Except Failure Int32 :=
  h.raw "integer_elt" x fun p ↦ p.integer? offset

def rawReal (h : Heap) (x : Handle) (offset : Nat) : Except Failure UInt64 :=
  h.raw "real_elt" x fun p ↦ p.real? offset

def rawString (h : Heap) (x : Handle) (offset : Nat) : Except Failure Handle :=
  h.raw "string_elt" x fun p ↦ p.string? offset

def rawValue (h : Heap) (x : Handle) (offset : Nat) : Except Failure Handle :=
  h.raw "vector_elt" x fun p ↦ p.value? offset

def rawBytes (h : Heap) (x : Handle) : Except Failure (List UInt8) :=
  h.raw "char_bytes" x Payload.bytes?

def rawField (h : Heap) (x : Handle) (f : Field) : Except Failure Handle :=
  h.raw "field" x fun p ↦ p.field? f

def rawCell (h : Heap) (x : Handle) : Except Failure (Handle × Handle × Handle) :=
  h.raw "field" x Payload.cell?

end TaggedHeap.Heap
