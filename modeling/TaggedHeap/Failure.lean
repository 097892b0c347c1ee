import TaggedHeap.Handle
import TaggedHeap.Shape

namespace TaggedHeap

inductive DimensionDefect
  | product (product length : Nat)
  | tooLarge (extent : Nat)
  | notInteger (found : TypeTag)
  | negative (extent : Int32)
  | count (extents : Nat)
  | mismatch (nrow ncol length : Nat)
  | empty
deriving DecidableEq, Repr

def DimensionDefect.text : DimensionDefect → String
  | product p length => s!"dims [product {p}] do not match the length of object [{length}]"
  | tooLarge extent => s!"{extent} exceeds INT_MAX"
  | notInteger found => s!"expected an integer vector, got {found.name}"
  | negative extent => s!"negative or NA extent {extent.toInt}"
  | count extents => s!"expected 2 extents, got {extents}"
  | mismatch nrow ncol length => s!"{nrow} x {ncol} does not match length {length}"
  | empty => "empty dim attribute"

/-- A checked operation refuses its arguments and says why. -/
inductive AccessError
  | indexOutOfRange (offset length : Nat)
  | cellOutOfRange (row column nrow ncol : Nat)
  | typeMismatch (expected : Shape) (found : TypeTag)
  | unknownType (code : Nat)
  | staleHandle (x : Handle)
  | traversalLimit (limit : Nat)
  | invalidDimensions (reason : String)
  | malformedText (reason : String)
deriving DecidableEq, Repr

def AccessError.message : AccessError → String
  | indexOutOfRange offset length =>
    s!"Index out of range: offset {offset} for vector of length {length}"
  | cellOutOfRange row column nrow ncol =>
    s!"Index out of range: cell [{row}, {column}] for {nrow}x{ncol} matrix"
  | typeMismatch expected found => s!"Type mismatch: expected {expected.text}, got {found.name}"
  | unknownType code => s!"Unknown SEXPTYPE code {code}"
  | staleHandle x => s!"Stale handle {x.text}: value was reclaimed by the collector"
  | traversalLimit limit => s!"Traversal exceeded {limit} links (cyclic or malformed chain?)"
  | invalidDimensions reason => "Invalid dim attribute: " ++ reason
  | malformedText reason => "CHARSXP is not valid UTF-8: " ++ reason

/-- The breach of a contract, after which an operation gives no answer at all. -/
inductive Fault
  /-- An unchecked read met a record that does not hold what it asked for. -/
  | brokenRead (what : String) (x : Handle)
  /-- A name has no bucket in a hash table without buckets. -/
  | emptyTable
  /-- A hash table of that many buckets cannot be addressed. -/
  | oversizedTable
  /-- A search along a cyclic chain never comes to an end. -/
  | endlessChain
  | divisionByZero
deriving DecidableEq, Repr

/-- Only a broken read announces itself in words of its own. -/
def Fault.message? : Fault → Option String
  | brokenRead what x => some s!"heap read contract violated: {what} on {x.debugText}"
  | _ => none

inductive Failure
  | denied (cause : AccessError)
  | fault (cause : Fault)
deriving DecidableEq, Repr

namespace Failure

def mismatch (expected : Shape) (found : TypeTag) : Failure :=
  .denied (.typeMismatch expected found)

def stale (x : Handle) : Failure :=
  .denied (.staleHandle x)

def dimensions (defect : DimensionDefect) : Failure :=
  .denied (.invalidDimensions defect.text)

end Failure

end TaggedHeap
