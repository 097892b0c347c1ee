import TaggedHeap.Collector
import TaggedHeap.Event
import TaggedHeap.Failure
import TaggedHeap.Roots

namespace TaggedHeap

/-- Every heap has five values of its own, among them `nil`, which ends all lists. -/
structure Heap where
  arena : Arena
  roots : Roots
  /-- Symbols by name. They are never removed. -/
  symbols : List (String × Handle)
  /-- Interned text by content. An entry does not keep its record alive. -/
  chars : List (List UInt8 × Handle)
  stats : Stats
  /-- So many allocations may pass between two collections; with zero, none starts by itself. -/
  threshold : Nat
  allocations : Nat
  /-- What the heap has reported, the latest first. -/
  journal : List Event
  nil : Handle
  missingString : Handle
  unbound : Handle
  dimSymbol : Handle
  namesSymbol : Handle
deriving DecidableEq

/-- The outcome of an operation that can fail, and the heap that it leaves. -/
abbrev Outcome (α : Type) :=
  Except Failure α × Heap

namespace Heap

def report (h : Heap) (e : Event) : Heap :=
  { h with journal := e :: h.journal }

def drain (h : Heap) : List Event × Heap :=
  (h.journal.reverse, { h with journal := [] })

def isLive (h : Heap) (x : Handle) : Bool :=
  h.arena.contains x

def liveCount (h : Heap) : Nat :=
  h.arena.live

/-- Where marking starts: the heap's own values, all symbols, the roots and the handles that an
allocation is about to link. -/
def rootHandles (h : Heap) (pending : List Handle) : List Handle :=
  h.nil :: h.missingString :: h.unbound ::
    (h.symbols.map Prod.snd ++ h.roots.toList ++ pending)

/-- Frees what the roots do not lead to, and returns the number of freed records. -/
def collectWith (h : Heap) (pending : List Handle) : Nat × Heap :=
  let (marked, arena) := h.arena.mark (h.rootHandles pending)
  let (freed, arena) := arena.sweep
  let stats := h.stats.update marked freed arena.live
  (freed,
    { h with
      arena := arena
      chars := h.chars.filter fun entry ↦ arena.contains entry.2
      stats := stats
      allocations := 0
      journal := .collected stats.collections marked freed arena.live :: h.journal })

def collect (h : Heap) : Nat × Heap :=
  h.collectWith []

def isDue (h : Heap) : Bool :=
  0 < h.threshold && h.threshold ≤ h.allocations

/-- Stores a new record. A collection that is due runs first, and spares what the new record is
going to link. -/
def alloc (h : Heap) (tag : TypeTag) (payload : Payload) : Handle × Heap :=
  let h := if h.isDue then (h.collectWith payload.children).2 else h
  let (x, arena) := h.arena.insert (.new tag h.nil payload)
  (x, { h with arena := arena, allocations := h.allocations + 1 })

def setThreshold (h : Heap) (threshold : Nat) : Heap :=
  { h with threshold := threshold }

def protect (h : Heap) (x : Handle) : Heap :=
  { h with roots := h.roots.protect x }

def protectDepth (h : Heap) : Nat :=
  h.roots.stack.length

/-- Too large a number is reported and leaves the stack as it is. -/
def unprotect (h : Heap) (n : Nat) : Heap :=
  match h.roots.unprotect? n with
  | some roots => { h with roots := roots }
  | none => h.report (.unbalanced n)

def unprotectHandle (h : Heap) (x : Handle) : Heap :=
  match h.roots.unprotectHandle? x with
  | some roots => { h with roots := roots }
  | none => h.report (.notProtected x)

def preserve (h : Heap) (x : Handle) : Heap :=
  { h with roots := h.roots.preserve x }

def release (h : Heap) (x : Handle) : Heap :=
  match h.roots.release? x with
  | some roots => { h with roots := roots }
  | none => h.report (.notPreserved x)

/-- Takes the protections of an operation back at its end. After a fault the operation has no end,
and its protections stay. -/
def unprotectAfter (n : Nat) {α : Type} : Outcome α → Outcome α
  | (.error (.fault cause), h) => (.error (.fault cause), h)
  | (outcome, h) => (outcome, h.unprotect n)

def record (h : Heap) (x : Handle) : Except Failure Record :=
  match h.arena.get? x with
  | some r => .ok r
  | none => .error (.stale x)

def update (h : Heap) (x : Handle) (f : Record → Except Failure Record) : Outcome Unit :=
  match h.record x >>= f with
  | .ok r => (.ok (), { h with arena := h.arena.modify x fun _ ↦ r })
  | .error failure => (.error failure, h)

def summary (h : Heap) : String :=
  s!"Heap \x7b live: {h.liveCount}, roots: {h.roots.size}, symbols: {h.symbols.length}, " ++
    s!"threshold: {h.threshold} \x7d"

end Heap

end TaggedHeap
