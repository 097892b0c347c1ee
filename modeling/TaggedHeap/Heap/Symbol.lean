import TaggedHeap.Heap.Basic
import TaggedHeap.Text.Utf8

namespace TaggedHeap.Heap

/-- The `char` record with the given content, which is made if there is none. -/
def intern (h : Heap) (bytes : List UInt8) : Handle × Heap :=
  match (h.chars.lookup bytes).filter h.isLive with
  | some x => (x, h)
  | none =>
    let (x, h) := h.alloc .char (.char bytes)
    (x, { h with chars := (bytes, x) :: h.chars.filter fun entry ↦ entry.1 ≠ bytes })

def internText (h : Heap) (text : String) : Handle × Heap :=
  h.intern (Text.Utf8.encode text)

/-- The symbol of a name, which is made if there is none. -/
def install (h : Heap) (name : String) : Handle × Heap :=
  match h.symbols.lookup name with
  | some x => (x, h)
  | none =>
    let (printName, h) := h.internText name
    let h := h.protect printName
    let (x, h) := h.alloc .symbol (.symbol printName h.unbound h.nil)
    let h := h.unprotect 1
    (x, { h with symbols := (name, x) :: h.symbols })

/-- The content of the record that stands for a missing string. The cache does not know this
record, so the same text in a string is another one. -/
def missingText : String :=
  "NA"

def bare (seed : UInt32) : Heap :=
  let arena := Arena.empty seed
  let nil := arena.firstHandle
  let (_, arena) := arena.insert (.new .null nil .null)
  let (missing, arena) := arena.insert (.new .char nil (.char (Text.Utf8.encode missingText)))
  { arena := arena
    roots := .empty
    symbols := []
    chars := []
    stats := .initial
    threshold := 0
    allocations := 0
    journal := []
    nil := nil
    missingString := missing
    unbound := nil
    dimSymbol := nil
    namesSymbol := nil }

/-- Adds the marker of symbols without a value: a symbol outside the table that is its own
value. -/
def addUnbound (h : Heap) : Heap :=
  let (printName, h) := h.internText ""
  let (x, h) := h.alloc .symbol (.symbol printName h.nil h.nil)
  { h with
    arena := h.arena.modify x fun r ↦ { r with payload := .symbol printName x h.nil }
    unbound := x }

/-- A new heap, the one of the given ordinal. No collection runs while it is put together. -/
def create (ordinal threshold : Nat) : Heap :=
  let h := (bare (Arena.seedOf ordinal)).addUnbound
  let (dim, h) := h.install "dim"
  let (names, h) := h.install "names"
  { h with dimSymbol := dim, namesSymbol := names, threshold := threshold }

end TaggedHeap.Heap
