import TaggedHeap.Heap.Chain
import TaggedHeap.Heap.Symbol

namespace TaggedHeap

structure SessionOptions where
  gcThreshold : Nat
  maxTraversalDepth : Nat
deriving DecidableEq

namespace SessionOptions

def defaultThreshold : Nat :=
  4096

def standard : SessionOptions :=
  ⟨defaultThreshold, Walk.defaultLimit⟩

def summary (o : SessionOptions) : String :=
  s!"SessionOptions \x7b gc_threshold: {o.gcThreshold}, " ++
    s!"max_traversal_depth: {o.maxTraversalDepth} \x7d"

end SessionOptions

/-- Entering a session locks it until it is left. -/
structure Session where
  heap : Heap
  options : SessionOptions
  locked : Bool
deriving DecidableEq

namespace Session

/-- A session around a heap, whose own threshold stays in force. -/
def new (heap : Heap) (options : SessionOptions) : Session :=
  ⟨heap, options, false⟩

def create (ordinal : Nat) (options : SessionOptions) : Session :=
  new (Heap.create ordinal options.gcThreshold) options

def enter? (s : Session) : Option Session :=
  if s.locked then none
  else some { s with heap := s.heap.report .sessionEntered, locked := true }

def leave (s : Session) : Session :=
  { s with heap := s.heap.report .sessionLeft, locked := false }

def walk (s : Session) (x : Handle) : Walk :=
  .start x s.options.maxTraversalDepth

def summary (s : Session) : String :=
  s!"Session \x7b options: {s.options.summary}, locked: {s.locked} \x7d"

end Session

end TaggedHeap
