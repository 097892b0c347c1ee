import TaggedHeap.Heap.Cell
import TaggedHeap.Heap.Vector
import TaggedHeap.Text.Hash

namespace TaggedHeap.Heap

def environment (h : Heap) (enclosing : Handle) : Handle × Heap :=
  h.alloc .environment (.environment h.nil enclosing h.nil)

/-- A table takes eight bytes for each bucket, and no table takes `2 ^ 63` bytes. -/
def tableLimit : Nat :=
  0x1000000000000000

/-- A hash table has at least one bucket. -/
def hashedEnvironment (h : Heap) (enclosing : Handle) (buckets : Nat) : Outcome Handle :=
  let h := h.protect enclosing
  if tableLimit ≤ buckets then (.error (.fault .oversizedTable), h)
  else
    let (table, h) := h.alloc .list (.values (Array.replicate (max buckets 1) h.nil))
    let h := h.protect table
    let (x, h) := h.alloc .environment (.environment h.nil enclosing table)
    (.ok x, h.unprotect 2)

def bucketOf (name : String) (size : Nat) : Nat :=
  (Text.hash (Text.Utf8.encode name)).toNat % size

def defineHashed (h : Heap) (table : Handle) (name : String) (symbol value : Handle) :
    Outcome Unit :=
  match (h.arena.get? table).map Record.payload with
  | some (.values buckets) =>
    let i := bucketOf name buckets.size
    match buckets[i]? with
    | some bucket =>
      let (x, h) := h.alloc .pairlist (.cell value bucket symbol)
      (.ok (),
        { h with
          arena := h.arena.modify table fun r ↦ { r with payload := r.payload.setValue i x } })
    | none => (.error (.fault .emptyTable), h)
  | _ => (.error (.stale table), h)

def defineProtected (h : Heap) (x : Handle) (name : String) (value : Handle) : Outcome Unit :=
  let (symbol, h) := h.install name
  match h.record x with
  | .error failure => (.error failure, h)
  | .ok r =>
    match r.payload with
    | .environment frame _ table =>
      if table = h.nil then
        let (y, h) := h.alloc .pairlist (.cell value frame symbol)
        h.setField x .frame y
      else h.defineHashed table name symbol value
    | _ => (.error (.mismatch (.tag .environment) r.tag), h)

def define (h : Heap) (x : Handle) (name : String) (value : Handle) : Outcome Unit :=
  unprotectAfter 2 (((h.protect x).protect value).defineProtected x name value)

end TaggedHeap.Heap
