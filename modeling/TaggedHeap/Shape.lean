import TaggedHeap.TypeTag

namespace TaggedHeap

inductive Shape
  | tag (t : TypeTag)
  | vector
  | logicalVector
  | integerVector
  | realVector
  | stringVector
  | genericVector
  | primitive
deriving DecidableEq, Repr

def Shape.text : Shape → String
  | tag t => t.name
  | vector => "vector"
  | logicalVector => "logical vector"
  | integerVector => "integer vector"
  | realVector => "double vector"
  | stringVector => "character vector"
  | genericVector => "list or expression vector"
  | primitive => "special or builtin"

end TaggedHeap
