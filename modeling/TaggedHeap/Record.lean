import TaggedHeap.Field
import TaggedHeap.Handle

namespace TaggedHeap

/-- Real elements are bit patterns, and the elements of `strings` are handles of `char` records. -/
inductive Payload
  | null
  | symbol (printName value internal : Handle)
  | cell (head tail tag : Handle)
  | closure (formals body environment : Handle)
  | environment (frame enclosing hashTable : Handle)
  | promise (value expression environment : Handle)
  | primitive (offset : UInt32)
  | char (bytes : List UInt8)
  | logical (elements : Array Int32)
  | integer (elements : Array Int32)
  | real (elements : Array UInt64)
  | strings (elements : Array Handle)
  | values (elements : Array Handle)
deriving DecidableEq

namespace Payload

def length? : Payload → Option Nat
  | char bytes => some bytes.length
  | logical elements | integer elements => some elements.size
  | real elements => some elements.size
  | strings elements | values elements => some elements.size
  | _ => none

def field? : Payload → Field → Option Handle
  | cell x _ _, .head => some x
  | cell _ x _, .tail => some x
  | cell _ _ x, .tag => some x
  | environment x _ _, .frame => some x
  | environment _ x _, .enclosing => some x
  | environment _ _ x, .hashTable => some x
  | closure x _ _, .formals => some x
  | closure _ x _, .body => some x
  | closure _ _ x, .closureEnvironment => some x
  | symbol x _ _, .printName => some x
  | symbol _ x _, .symbolValue => some x
  | symbol _ _ x, .internal => some x
  | promise x _ _, .promiseValue => some x
  | promise _ x _, .promiseExpression => some x
  | promise _ _ x, .promiseEnvironment => some x
  | _, _ => none

def cell? : Payload → Option (Handle × Handle × Handle)
  | cell head tail tag => some (tag, head, tail)
  | _ => none

def setField? (value : Handle) : Payload → Field → Option Payload
  | cell _ y z, .head => some (cell value y z)
  | cell x _ z, .tail => some (cell x value z)
  | cell x y _, .tag => some (cell x y value)
  | environment _ y z, .frame => some (environment value y z)
  | environment x _ z, .enclosing => some (environment x value z)
  | environment x y _, .hashTable => some (environment x y value)
  | closure _ y z, .formals => some (closure value y z)
  | closure x _ z, .body => some (closure x value z)
  | closure x y _, .closureEnvironment => some (closure x y value)
  | symbol _ y z, .printName => some (symbol value y z)
  | symbol x _ z, .symbolValue => some (symbol x value z)
  | symbol x y _, .internal => some (symbol x y value)
  | promise _ y z, .promiseValue => some (promise value y z)
  | promise x _ z, .promiseExpression => some (promise x value z)
  | promise x y _, .promiseEnvironment => some (promise x y value)
  | _, _ => none

def logical? : Payload → Nat → Option Int32
  | logical elements, i => elements[i]?
  | _, _ => none

def integer? : Payload → Nat → Option Int32
  | integer elements, i => elements[i]?
  | _, _ => none

def real? : Payload → Nat → Option UInt64
  | real elements, i => elements[i]?
  | _, _ => none

def string? : Payload → Nat → Option Handle
  | strings elements, i => elements[i]?
  | _, _ => none

def value? : Payload → Nat → Option Handle
  | values elements, i => elements[i]?
  | _, _ => none

def bytes? : Payload → Option (List UInt8)
  | char bytes => some bytes
  | _ => none

def setValue (i : Nat) (x : Handle) : Payload → Payload
  | values elements => values (elements.setIfInBounds i x)
  | payload => payload

def children : Payload → List Handle
  | symbol x y z | cell x y z | closure x y z | environment x y z | promise x y z => [x, y, z]
  | strings elements | values elements => elements.toList
  | null | primitive _ | char _ | logical _ | integer _ | real _ => []

end Payload

structure Record where
  tag : TypeTag
  marked : Bool
  attributes : Handle
  payload : Payload
deriving DecidableEq

namespace Record

/-- A record starts unmarked, and without attributes if these are `nil`. -/
def new (tag : TypeTag) (nil : Handle) (payload : Payload) : Record :=
  ⟨tag, false, nil, payload⟩

def links (r : Record) : List Handle :=
  r.attributes :: r.payload.children

end Record

end TaggedHeap
