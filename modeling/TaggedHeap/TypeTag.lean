namespace TaggedHeap

inductive TypeTag
  | null
  | symbol
  | pairlist
  | closure
  | environment
  | promise
  | language
  | special
  | builtin
  | char
  | logical
  | integer
  | real
  | complex
  | string
  | dots
  | any
  | list
  | expression
  | bytecode
  | externalPointer
  | weakReference
  | raw
  | object
deriving DecidableEq, Inhabited, Repr

namespace TypeTag

def all : List TypeTag :=
  [null, symbol, pairlist, closure, environment, promise, language, special, builtin, char,
    logical, integer, real, complex, string, dots, any, list, expression, bytecode,
    externalPointer, weakReference, raw, object]

/-- The codes 11 and 12 are not in use. -/
def code : TypeTag → Nat
  | null => 0
  | symbol => 1
  | pairlist => 2
  | closure => 3
  | environment => 4
  | promise => 5
  | language => 6
  | special => 7
  | builtin => 8
  | char => 9
  | logical => 10
  | integer => 13
  | real => 14
  | complex => 15
  | string => 16
  | dots => 17
  | any => 18
  | list => 19
  | expression => 20
  | bytecode => 21
  | externalPointer => 22
  | weakReference => 23
  | raw => 24
  | object => 25

def ofCode? (n : Nat) : Option TypeTag :=
  all.find? fun t ↦ t.code == n

def name : TypeTag → String
  | null => "NULL"
  | symbol => "symbol"
  | pairlist => "pairlist"
  | closure => "closure"
  | environment => "environment"
  | promise => "promise"
  | language => "language"
  | special => "special"
  | builtin => "builtin"
  | char => "char"
  | logical => "logical"
  | integer => "integer"
  | real => "double"
  | complex => "complex"
  | string => "character"
  | dots => "..."
  | any => "any"
  | list => "list"
  | expression => "expression"
  | bytecode => "bytecode"
  | externalPointer => "externalptr"
  | weakReference => "weakref"
  | raw => "raw"
  | object => "S4"

def isVector : TypeTag → Bool
  | char | logical | integer | real | complex | string | list | expression | raw => true
  | _ => false

def isCell : TypeTag → Bool
  | pairlist | language | dots => true
  | _ => false

def isGenericVector : TypeTag → Bool
  | list | expression => true
  | _ => false

theorem mem_all (t : TypeTag) : t ∈ all := by
  cases t <;> decide

theorem ofCode?_code (t : TypeTag) : ofCode? t.code = some t := by
  cases t <;> decide

end TypeTag

end TaggedHeap
