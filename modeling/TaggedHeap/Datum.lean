import TaggedHeap.Collector
import TaggedHeap.Heap.Chain

namespace TaggedHeap

inductive Datum
  | absent
  | truth (b : Bool)
  | natural (n : Nat)
  | integer (n : Int32)
  | real (bits : UInt64)
  | text (s : String)
  | bytes (b : List UInt8)
  | handle (x : Handle)
  | tag (t : TypeTag)
  | extents (nrow ncol : Nat)
  /-- A whole walk, and whether a step after its end would yield anything. -/
  | cells (trail : Trail (Handle × Handle)) (more : Bool)
  | environments (trail : Trail Handle) (more : Bool)
  | buckets (names : List (Nat × List String))

def Datum.option {α : Type} (datum : α → Datum) : Option α → Datum
  | some a => datum a
  | none => absent

end TaggedHeap
