import TaggedHeap.TypeTag

namespace TaggedHeap

inductive Layout
  | cell
  | environment
  | closure
  | symbol
  | promise
deriving DecidableEq, Repr

def Layout.tag : Layout → TypeTag
  | cell => .pairlist
  | environment => .environment
  | closure => .closure
  | symbol => .symbol
  | promise => .promise

def Layout.accepts : Layout → TypeTag → Bool
  | cell, t => t.isCell
  | layout, t => t == layout.tag

inductive Field
  | head
  | tail
  | tag
  | frame
  | enclosing
  | hashTable
  | formals
  | body
  | closureEnvironment
  | printName
  | symbolValue
  | internal
  | promiseValue
  | promiseExpression
  | promiseEnvironment
deriving DecidableEq, Repr

namespace Field

def all : List Field :=
  [head, tail, tag, frame, enclosing, hashTable, formals, body, closureEnvironment, printName,
    symbolValue, internal, promiseValue, promiseExpression, promiseEnvironment]

def layout : Field → Layout
  | head | tail | tag => .cell
  | frame | enclosing | hashTable => .environment
  | formals | body | closureEnvironment => .closure
  | printName | symbolValue | internal => .symbol
  | promiseValue | promiseExpression | promiseEnvironment => .promise

def accepts (f : Field) (t : TypeTag) : Bool :=
  f.layout.accepts t

end Field

end TaggedHeap
