import TaggedHeap.Heap.Symbol

namespace TaggedHeap.Heap

def cons (h : Heap) (head tail : Handle) : Handle × Heap :=
  h.alloc .pairlist (.cell head tail h.nil)

def call (h : Heap) (head tail : Handle) : Handle × Heap :=
  h.alloc .language (.cell head tail h.nil)

/-- Links the items from the last to the first, and protects every cell as soon as it is made. -/
def link : List (Option String × Handle) → Heap → Handle × Heap
  | [], h => (h.nil, h)
  | (name, value) :: items, h =>
    let (tail, h) := link items h
    let (tag, h) :=
      match name with
      | some name => h.install name
      | none => (h.nil, h)
    let (x, h) := h.alloc .pairlist (.cell value tail tag)
    (x, h.protect x)

def pairlist (h : Heap) (items : List (Option String × Handle)) : Handle × Heap :=
  let h := items.foldl (fun h item ↦ h.protect item.2) h
  let (x, h) := link items h
  (x, h.unprotect (items.length + items.length))

def setField (h : Heap) (x : Handle) (f : Field) (value : Handle) : Outcome Unit :=
  h.update x fun r ↦
    if f.accepts r.tag then
      match r.payload.setField? value f with
      | some payload => .ok { r with payload := payload }
      | none => .error (.mismatch (.tag f.layout.tag) r.tag)
    else .error (.mismatch (.tag f.layout.tag) r.tag)

def closure (h : Heap) (formals body environment : Handle) : Handle × Heap :=
  h.alloc .closure (.closure formals body environment)

def promise (h : Heap) (expression environment : Handle) : Handle × Heap :=
  h.alloc .promise (.promise h.unbound expression environment)

/-- Gives a promise its value; from then on it needs its environment no more. -/
def force (h : Heap) (x value : Handle) : Outcome Unit :=
  match h.setField x .promiseValue value with
  | (.ok (), h) => h.setField x .promiseEnvironment h.nil
  | (.error failure, h) => (.error failure, h)

def primitive (h : Heap) (tag : TypeTag) (offset : UInt32) : Outcome Handle :=
  match tag with
  | .special | .builtin =>
    let (x, h) := h.alloc tag (.primitive offset)
    (.ok x, h)
  | _ => (.error (.mismatch .primitive tag), h)

def primitiveOffset (h : Heap) (x : Handle) : Except Failure UInt32 := do
  let r ← h.record x
  match r.payload with
  | .primitive offset => .ok offset
  | _ => .error (.mismatch .primitive r.tag)

end TaggedHeap.Heap
