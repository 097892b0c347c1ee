import TaggedHeap.Datum
import TaggedHeap.Heap.Attribute
import TaggedHeap.Heap.Environment

namespace TaggedHeap

inductive Update
  | intern (bytes : List UInt8)
  | internText (text : String)
  | install (name : String)
  | newLogical (values : List (Option Bool))
  | newRawLogical (elements : List Int32)
  | newInteger (elements : List Int32)
  | newReal (elements : List UInt64)
  | newString (values : List (Option String))
  | newList (elements : List Handle)
  | newExpression (elements : List Handle)
  | setString (x : Handle) (offset : Nat) (value : Handle)
  | cons (head tail : Handle)
  | call (head tail : Handle)
  | pairlist (items : List (Option String × Handle))
  | setField (x : Handle) (f : Field) (value : Handle)
  | closure (formals body environment : Handle)
  | environment (enclosing : Handle)
  | hashedEnvironment (enclosing : Handle) (buckets : Nat)
  | define (x : Handle) (name : String) (value : Handle)
  | promise (expression environment : Handle)
  | force (x value : Handle)
  | primitive (tag : TypeTag) (offset : UInt32)
  | setAttributes (x attributes : Handle)
  | setAttribute (x name value : Handle)
  | setDimensions (x : Handle) (nrow ncol : Nat)
  | setNames (x : Handle) (names : List String)
  | protect (x : Handle)
  | unprotect (n : Nat)
  | unprotectHandle (x : Handle)
  | preserve (x : Handle)
  | release (x : Handle)
  | collect
  | setThreshold (threshold : Nat)

namespace Update

def ofHandle (p : Handle × Heap) : Outcome Datum :=
  (.ok (.handle p.1), p.2)

def ofOutcome {α : Type} (datum : α → Datum) (o : Outcome α) : Outcome Datum :=
  (datum <$> o.1, o.2)

def ofHeap (h : Heap) : Outcome Datum :=
  (.ok .absent, h)

def run (h : Heap) : Update → Outcome Datum
  | intern bytes => ofHandle (h.intern bytes)
  | internText text => ofHandle (h.internText text)
  | install name => ofHandle (h.install name)
  | newLogical values => ofHandle (h.newLogical values)
  | newRawLogical elements => ofHandle (h.newRawLogical elements)
  | newInteger elements => ofHandle (h.newInteger elements)
  | newReal elements => ofHandle (h.newReal elements)
  | newString values => ofHandle (h.newString values)
  | newList elements => ofHandle (h.newList elements)
  | newExpression elements => ofHandle (h.newExpression elements)
  | setString x offset value => ofOutcome (fun _ ↦ .absent) (h.setString x offset value)
  | cons head tail => ofHandle (h.cons head tail)
  | call head tail => ofHandle (h.call head tail)
  | pairlist items => ofHandle (h.pairlist items)
  | setField x f value => ofOutcome (fun _ ↦ .absent) (h.setField x f value)
  | closure formals body env => ofHandle (h.closure formals body env)
  | environment enclosing => ofHandle (h.environment enclosing)
  | hashedEnvironment enclosing buckets => ofOutcome .handle (h.hashedEnvironment enclosing buckets)
  | define x name value => ofOutcome (fun _ ↦ .absent) (h.define x name value)
  | promise expression env => ofHandle (h.promise expression env)
  | force x value => ofOutcome (fun _ ↦ .absent) (h.force x value)
  | primitive tag offset => ofOutcome .handle (h.primitive tag offset)
  | setAttributes x attributes => ofOutcome (fun _ ↦ .absent) (h.setAttributes x attributes)
  | setAttribute x name value => ofOutcome (fun _ ↦ .absent) (h.setAttribute x name value)
  | setDimensions x nrow ncol => ofOutcome (fun _ ↦ .absent) (h.setDimensions x nrow ncol)
  | setNames x names => ofOutcome (fun _ ↦ .absent) (h.setNames x names)
  | protect x => ofHandle (x, h.protect x)
  | unprotect n => ofHeap (h.unprotect n)
  | unprotectHandle x => ofHeap (h.unprotectHandle x)
  | preserve x => ofHeap (h.preserve x)
  | release x => ofHeap (h.release x)
  | collect =>
    let (freed, h) := h.collect
    (.ok (.natural freed), h)
  | setThreshold threshold => ofHeap (h.setThreshold threshold)

end Update

end TaggedHeap
