import TaggedHeap.Heap.Basic

namespace TaggedHeap

/-- A guard preserves what it holds until it is dropped, and guards may be dropped in any order. The
values of a scope are listed from the latest to the earliest. -/
inductive Guard
  | single (value : Handle)
  | scope (held : List Handle)
deriving DecidableEq

/-- What a guard holds, in the order in which it lets go. -/
def Guard.values : Guard → List Handle
  | single value => [value]
  | scope held => held

def Guard.singleText (value : Handle) : String :=
  "Protected(" ++ value.debugText ++ ")"

namespace Heap

def take (h : Heap) (x : Handle) : Heap :=
  (h.preserve x).report (.preserved x)

def letGo (h : Heap) (x : Handle) : Heap :=
  (h.release x).report (.released x)

def guard (h : Heap) (x : Handle) : Guard × Heap :=
  (.single x, h.take x)

/-- Adds a value to a scope. A guard of a single value stays as it is. -/
def join (h : Heap) (x : Handle) : Guard → Guard × Heap
  | .scope held => (.scope (x :: held), h.take x)
  | .single value => (.single value, h)

def dropGuard (h : Heap) (g : Guard) : Heap :=
  g.values.foldl letGo h

end Heap

end TaggedHeap
