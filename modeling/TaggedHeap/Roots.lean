import TaggedHeap.Handle

namespace TaggedHeap

/-- The top of the stack comes first. Preserved handles form a bag, from which they may be taken back
in any order. -/
structure Roots where
  stack : List Handle
  preserved : List Handle
deriving DecidableEq

namespace Roots

def empty : Roots :=
  ⟨[], []⟩

def protect (r : Roots) (x : Handle) : Roots :=
  { r with stack := x :: r.stack }

/-- Takes `n` handles off the stack, or none at all if there are fewer. -/
def unprotect? (r : Roots) (n : Nat) : Option Roots :=
  if n ≤ r.stack.length then some { r with stack := r.stack.drop n } else none

/-- Takes the topmost occurrence of a handle off the stack. -/
def unprotectHandle? (r : Roots) (x : Handle) : Option Roots :=
  if x ∈ r.stack then some { r with stack := r.stack.erase x } else none

def preserve (r : Roots) (x : Handle) : Roots :=
  { r with preserved := x :: r.preserved }

def release? (r : Roots) (x : Handle) : Option Roots :=
  if x ∈ r.preserved then some { r with preserved := r.preserved.erase x } else none

def toList (r : Roots) : List Handle :=
  r.stack ++ r.preserved

/-- The stack counts in full, a preserved handle once. -/
def size (r : Roots) : Nat :=
  r.stack.length + r.preserved.eraseDups.length

end Roots

end TaggedHeap
