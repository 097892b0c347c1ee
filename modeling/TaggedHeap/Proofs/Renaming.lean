import TaggedHeap.Proofs.Program

namespace TaggedHeap

variable (f : Handle → Handle)

namespace Payload

def rename : Payload → Payload
  | null => null
  | symbol x y z => symbol (f x) (f y) (f z)
  | cell x y z => cell (f x) (f y) (f z)
  | closure x y z => closure (f x) (f y) (f z)
  | environment x y z => environment (f x) (f y) (f z)
  | promise x y z => promise (f x) (f y) (f z)
  | primitive offset => primitive offset
  | char bytes => char bytes
  | logical elements => logical elements
  | integer elements => integer elements
  | real elements => real elements
  | strings elements => strings (elements.map f)
  | values elements => values (elements.map f)

variable (p : Payload)

theorem length?_rename : (p.rename f).length? = p.length? := by
  cases p <;> simp [rename, length?]

theorem field?_rename (field : Field) : (p.rename f).field? field = (p.field? field).map f := by
  cases p <;> cases field <;> rfl

theorem cell?_rename :
    (p.rename f).cell? = p.cell?.map fun c ↦ (f c.1, f c.2.1, f c.2.2) := by
  cases p <;> rfl

theorem setField?_rename (x : Handle) (field : Field) :
    (p.rename f).setField? (f x) field = (p.setField? x field).map (rename f) := by
  cases p <;> cases field <;> rfl

theorem logical?_rename (i : Nat) : (p.rename f).logical? i = p.logical? i := by
  cases p <;> rfl

theorem integer?_rename (i : Nat) : (p.rename f).integer? i = p.integer? i := by
  cases p <;> rfl

theorem real?_rename (i : Nat) : (p.rename f).real? i = p.real? i := by
  cases p <;> rfl

theorem string?_rename (i : Nat) : (p.rename f).string? i = (p.string? i).map f := by
  cases p <;> simp [rename, string?]

theorem value?_rename (i : Nat) : (p.rename f).value? i = (p.value? i).map f := by
  cases p <;> simp [rename, value?]

theorem bytes?_rename : (p.rename f).bytes? = p.bytes? := by
  cases p <;> rfl

theorem setValue_rename (i : Nat) (x : Handle) :
    (p.rename f).setValue i (f x) = (p.setValue i x).rename f := by
  cases p <;> simp [rename, setValue, Array.map_setIfInBounds]

theorem children_rename : (p.rename f).children = p.children.map f := by
  cases p <;> simp [rename, children]

theorem fits_rename (t : TypeTag) : (p.rename f).fits t = p.fits t := by
  cases p <;> rfl

theorem char_rename_iff {bytes : List UInt8} : p.rename f = .char bytes ↔ p = .char bytes := by
  cases p <;> simp [rename]

theorem rename_congr {f g : Handle → Handle} {p : Payload} (h : ∀ x ∈ p.children, f x = g x) :
    p.rename f = p.rename g := by
  cases p <;> simp_all [rename, children]

end Payload

def Record.rename (r : Record) : Record :=
  ⟨r.tag, r.marked, f r.attributes, r.payload.rename f⟩

theorem Record.links_rename (r : Record) : (r.rename f).links = r.links.map f := by
  rw [Record.links, Record.rename, Payload.children_rename]
  rfl

theorem Record.rename_congr {f g : Handle → Handle} {r : Record} (h : ∀ x ∈ r.links, f x = g x) :
    r.rename f = r.rename g := by
  obtain ⟨ha, hp⟩ := List.forall_mem_cons.mp h
  rw [Record.rename, ha, Payload.rename_congr hp, Record.rename]

namespace Roots

def rename (r : Roots) : Roots :=
  ⟨r.stack.map f, r.preserved.map f⟩

variable (r : Roots)

theorem unprotect?_rename (n : Nat) :
    (r.rename f).unprotect? n = (r.unprotect? n).map (rename f) := by
  unfold unprotect?
  simp only [rename, List.length_map]
  split
  · simp [rename, List.map_drop]
  · rfl

variable {f}

theorem unprotectHandle?_rename (hf : f.Injective) (x : Handle) :
    (r.rename f).unprotectHandle? (f x) = (r.unprotectHandle? x).map (rename f) := by
  unfold unprotectHandle?
  simp only [rename, List.mem_map_of_injective hf]
  split
  · simp [rename, List.map_erase hf]
  · rfl

theorem release?_rename (hf : f.Injective) (x : Handle) :
    (r.rename f).release? (f x) = (r.release? x).map (rename f) := by
  unfold release?
  simp only [rename, List.mem_map_of_injective hf]
  split
  · simp [rename, List.map_erase hf]
  · rfl

end Roots

def AccessError.rename : AccessError → AccessError
  | staleHandle x => staleHandle (f x)
  | cause => cause

def Fault.rename : Fault → Fault
  | brokenRead what x => brokenRead what (f x)
  | cause => cause

def Failure.rename : Failure → Failure
  | denied cause => denied (cause.rename f)
  | fault cause => fault (cause.rename f)

def Walk.rename (w : Walk) : Walk :=
  { w with cursor := f w.cursor }

namespace Datum

def rename : Datum → Datum
  | handle x => handle (f x)
  | cells trail more =>
    cells ⟨trail.items.map fun c ↦ (f c.1, f c.2), trail.failure.map (Failure.rename f)⟩ more
  | environments trail more =>
    environments ⟨trail.items.map f, trail.failure.map (Failure.rename f)⟩ more
  | datum => datum

def handles : Datum → List Handle
  | handle x => [x]
  | cells trail _ => trail.items.flatMap fun c ↦ [c.1, c.2]
  | environments trail _ => trail.items
  | _ => []

theorem handles_rename (d : Datum) : (d.rename f).handles = d.handles.map f := by
  cases d <;> simp [rename, handles, List.flatMap_map, List.map_flatMap]

end Datum

def renameOutcome : Except Failure Datum → Except Failure Datum
  | .ok datum => .ok (datum.rename f)
  | .error failure => .error (failure.rename f)

def handlesOf : Except Failure Datum → List Handle
  | .ok datum => datum.handles
  | .error _ => []

theorem handlesOf_renameOutcome (e : Except Failure Datum) :
    handlesOf (renameOutcome f e) = (handlesOf e).map f := by
  cases e with
  | ok d => exact d.handles_rename f
  | error _ => rfl

namespace Query

def rename : Query → Query
  | isLive x => isLive (f x)
  | isNil x => isNil (f x)
  | tagOf x => tagOf (f x)
  | expectTag x expected => expectTag (f x) expected
  | attributesOf x => attributesOf (f x)
  | attributeBySymbol x symbol => attributeBySymbol (f x) (f symbol)
  | attributeByName x name => attributeByName (f x) name
  | vectorLength x => vectorLength (f x)
  | nrows x => nrows (f x)
  | dimensions x => dimensions (f x)
  | charBytes x => charBytes (f x)
  | charText x => charText (f x)
  | symbolText x => symbolText (f x)
  | primitiveOffset x => primitiveOffset (f x)
  | project x field => project (f x) field
  | element g x offset => element g (f x) offset
  | matrixOffset x row column => matrixOffset (f x) row column
  | matrixElement g x row column => matrixElement g (f x) row column
  | bucketNames x => bucketNames (f x)
  | cells w => cells (w.rename f)
  | enclosing w => enclosing (w.rename f)

def handles : Query → List Handle
  | isLive x | isNil x | tagOf x | expectTag x _ | attributesOf x | attributeByName x _
  | vectorLength x | nrows x | dimensions x | charBytes x | charText x | symbolText x
  | primitiveOffset x | project x _ | element _ x _ | matrixOffset x _ _ | matrixElement _ x _ _
  | bucketNames x => [x]
  | attributeBySymbol x symbol => [x, symbol]
  | cells w | enclosing w => [w.cursor]

end Query

namespace Update

def rename : Update → Update
  | newList elements => newList (elements.map f)
  | newExpression elements => newExpression (elements.map f)
  | setString x offset value => setString (f x) offset (f value)
  | cons head tail => cons (f head) (f tail)
  | call head tail => call (f head) (f tail)
  | pairlist items => pairlist (items.map fun item ↦ (item.1, f item.2))
  | setField x field value => setField (f x) field (f value)
  | closure formals body env => closure (f formals) (f body) (f env)
  | environment enclosing => environment (f enclosing)
  | hashedEnvironment enclosing buckets => hashedEnvironment (f enclosing) buckets
  | define x name value => define (f x) name (f value)
  | promise expression env => promise (f expression) (f env)
  | force x value => force (f x) (f value)
  | setAttributes x attributes => setAttributes (f x) (f attributes)
  | setAttribute x name value => setAttribute (f x) (f name) (f value)
  | setDimensions x nrow ncol => setDimensions (f x) nrow ncol
  | setNames x names => setNames (f x) names
  | protect x => protect (f x)
  | unprotectHandle x => unprotectHandle (f x)
  | preserve x => preserve (f x)
  | release x => release (f x)
  | u => u

def handles : Update → List Handle
  | protect x | unprotectHandle x | preserve x | release x => [x]
  | u => u.operands

/-- Updates that store no record, and free none. -/
def NeverAllocates : Update → Prop
  | setString _ _ _ | setField _ _ _ | force _ _ | setAttributes _ _ | protect _ | unprotect _
  | unprotectHandle _ | preserve _ | release _ | setThreshold _ => True
  | _ => False

def adorned? : Update → Option Handle
  | setAttributes x _ | setAttribute x _ _ | setDimensions x _ _ | setNames x _ => some x
  | _ => none

end Update

namespace Action

def rename : Action → Action
  | request (.query q) => request (.query (q.rename f))
  | request (.update u) => request (.update (u.rename f))
  | take x => take (f x)
  | letGo x => letGo (f x)
  | report e => report e
  | drain => drain

def handles : Action → List Handle
  | request (.query q) => q.handles
  | request (.update u) => u.handles
  | take x | letGo x => [x]
  | report _ | drain => []

def NeverAllocates : Action → Prop
  | request (.update u) => u.NeverAllocates
  | _ => True

def adorned? : Action → Option Handle
  | request (.update u) => u.adorned?
  | _ => none

theorem mem_handles_of_adorned? {x : Handle} (a : Action) (ha : a.adorned? = some x) :
    x ∈ a.handles := by
  cases a with
  | request r =>
    cases r with
    | query q => cases ha
    | update u =>
      cases u with
      | setAttributes _ _ | setAttribute _ _ _ | setDimensions _ _ _ | setNames _ _ =>
        cases ha
        exact List.mem_cons_self
      | _ => cases ha
  | _ => cases ha

end Action

end TaggedHeap
