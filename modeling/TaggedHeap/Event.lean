import TaggedHeap.Handle

namespace TaggedHeap

inductive Event
  | sessionEntered
  | sessionLeft
  | preserved (x : Handle)
  | released (x : Handle)
  | collected (collection marked freed live : Nat)
  | cellLimit (limit : Nat)
  | environmentLimit (limit : Nat)
  | unbalanced (n : Nat)
  | notProtected (x : Handle)
  | notPreserved (x : Handle)
deriving DecidableEq, Repr

def Event.line : Event → String
  | sessionEntered => "TRACE session entered"
  | sessionLeft => "TRACE session left"
  | preserved x => s!"TRACE preserved handle={x.debugText}"
  | released x => s!"TRACE released handle={x.debugText}"
  | collected collection marked freed live =>
    s!"DEBUG heap collection finished collection={collection} marked={marked} freed={freed} " ++
      s!"live={live}"
  | cellLimit limit => s!"DEBUG pairlist traversal limit reached limit={limit}"
  | environmentLimit limit => s!"DEBUG environment chain limit reached limit={limit}"
  | unbalanced n => s!"WARN unprotect: protection stack imbalance n={n}"
  | notProtected x => s!"WARN unprotect_ptr: handle not on protection stack handle={x.debugText}"
  | notPreserved x =>
    s!"WARN release of a handle that was not preserved handle={x.debugText}"

end TaggedHeap
