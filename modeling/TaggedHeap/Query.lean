import TaggedHeap.Datum
import TaggedHeap.Heap.Cell
import TaggedHeap.Heap.Element

namespace TaggedHeap

inductive Getter
  | rawLogical
  | logical
  | logicalOption
  | integer
  | integerOption
  | real
  | realOption
  | char
  | text
  | textOption
  | bytes
  | bytesOption
  | value
deriving DecidableEq

def Getter.read (h : Heap) (x : Handle) (offset : Nat) : Getter → Except Failure Datum
  | rawLogical => .integer <$> h.getRawLogical x offset
  | logical => .truth <$> h.getLogical x offset
  | logicalOption => .option .truth <$> h.getLogical? x offset
  | integer => .integer <$> h.getInteger x offset
  | integerOption => .option .integer <$> h.getInteger? x offset
  | real => .real <$> h.getReal x offset
  | realOption => .option .real <$> h.getReal? x offset
  | char => .handle <$> h.getChar x offset
  | text => .text <$> h.getText x offset
  | textOption => .option .text <$> h.getText? x offset
  | bytes => .bytes <$> h.getBytes x offset
  | bytesOption => .option .bytes <$> h.getBytes? x offset
  | value => .handle <$> h.getValue x offset

inductive Query
  | isLive (x : Handle)
  | isNil (x : Handle)
  | tagOf (x : Handle)
  | expectTag (x : Handle) (expected : TypeTag)
  | attributesOf (x : Handle)
  | attributeBySymbol (x symbol : Handle)
  | attributeByName (x : Handle) (name : String)
  | vectorLength (x : Handle)
  | nrows (x : Handle)
  | dimensions (x : Handle)
  | charBytes (x : Handle)
  | charText (x : Handle)
  | symbolText (x : Handle)
  | primitiveOffset (x : Handle)
  | project (x : Handle) (f : Field)
  | element (g : Getter) (x : Handle) (offset : Nat)
  | matrixOffset (x : Handle) (row column : Nat)
  | matrixElement (g : Getter) (x : Handle) (row column : Nat)
  | bucketNames (x : Handle)
  | cells (w : Walk)
  | enclosing (w : Walk)

namespace Query

def answer (h : Heap) : Query → Except Failure Datum
  | isLive x => .ok (.truth (h.isLive x))
  | isNil x => .ok (.truth (h.isNil x))
  | tagOf x => .tag <$> h.tagOf x
  | expectTag x expected => (fun _ ↦ .absent) <$> h.expectTag x expected
  | attributesOf x => .handle <$> h.attributesOf x
  | attributeBySymbol x symbol => .option .handle <$> h.attributeBySymbol x symbol
  | attributeByName x name => .option .handle <$> h.attributeByName x name
  | vectorLength x => .natural <$> h.vectorLength x
  | nrows x => .natural <$> h.nrows x
  | dimensions x => .option (fun d ↦ .extents d.1 d.2) <$> h.dimensions x
  | charBytes x => .bytes <$> h.charBytes x
  | charText x => .text <$> h.charText x
  | symbolText x => .text <$> h.symbolText x
  | primitiveOffset x => (fun n ↦ .natural n.toNat) <$> h.primitiveOffset x
  | project x f => .handle <$> h.project x f
  | element g x offset => g.read h x offset
  | matrixOffset x row column => .natural <$> h.matrixOffset x row column
  | matrixElement g x row column => do
    let offset ← h.matrixOffset x row column
    g.read h x offset
  | bucketNames x => .buckets <$> h.bucketNames x
  | cells w =>
    let (trail, w) := w.trail h.nextCell
    .ok (.cells trail (h.nextCell w).1.isSome)
  | enclosing w =>
    let (trail, w) := w.trail h.nextEnclosing
    .ok (.environments trail (h.nextEnclosing w).1.isSome)

def limitOf? : Failure → Option Nat
  | .denied (.traversalLimit limit) => some limit
  | _ => none

/-- What the heap reports of an answer. All walks but those along environments go from cell to
cell. -/
def event? : Except Failure Datum → Option Event
  | .ok (.environments trail _) => (trail.failure.bind limitOf?).map .environmentLimit
  | .ok (.cells trail _) => (trail.failure.bind limitOf?).map .cellLimit
  | .ok _ => none
  | .error failure => (limitOf? failure).map .cellLimit

def run (q : Query) (h : Heap) : Outcome Datum :=
  let answer := q.answer h
  match event? answer with
  | some e => (answer, h.report e)
  | none => (answer, h)

end Query

end TaggedHeap
