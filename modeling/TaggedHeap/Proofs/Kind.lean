import TaggedHeap.Proofs.Lookup

namespace TaggedHeap

/-- The layout whose fields a tag promises. -/
def TypeTag.layout? : TypeTag → Option Layout
  | pairlist | language | dots => some .cell
  | environment => some .environment
  | closure => some .closure
  | symbol => some .symbol
  | promise => some .promise
  | _ => none

theorem Layout.accepts_eq (l : Layout) (t : TypeTag) : l.accepts t = (t.layout? == some l) := by
  cases l <;> cases t <;> rfl

theorem Field.mem_all (f : Field) : f ∈ all := by
  cases f <;> decide

namespace Payload

variable {p q : Payload} {t : TypeTag} {f : Field} {x y : Handle}

/-- The tags that a payload may stand under. -/
def fits : Payload → TypeTag → Bool
  | null, t => t == .null
  | symbol _ _ _, t => t == .symbol
  | cell _ _ _, t => t.isCell
  | closure _ _ _, t => t == .closure
  | environment _ _ _, t => t == .environment
  | promise _ _ _, t => t == .promise
  | primitive _, t => t == .special || t == .builtin
  | char _, t => t == .char
  | logical _, t => t == .logical
  | integer _, t => t == .integer
  | real _, t => t == .real
  | strings _, t => t == .string
  | values _, t => t.isGenericVector

def layout? : Payload → Option Layout
  | cell _ _ _ => some .cell
  | environment _ _ _ => some .environment
  | closure _ _ _ => some .closure
  | symbol _ _ _ => some .symbol
  | promise _ _ _ => some .promise
  | _ => none

theorem isSome_field? (p : Payload) (f : Field) :
    (p.field? f).isSome = (p.layout? == some f.layout) := by
  cases p <;> cases f <;> rfl

theorem layout?_of_fits (h : p.fits t = true) : p.layout? = t.layout? := by
  cases p <;> cases t <;> first | rfl | exact absurd h Bool.false_ne_true

theorem isSome_length?_of_fits (h : p.fits t = true) : p.length?.isSome = t.isVector := by
  cases p <;> cases t <;> first | rfl | exact absurd h Bool.false_ne_true

theorem isSome_field?_of_fits (h : p.fits t = true) (f : Field) :
    (p.field? f).isSome = f.accepts t := by
  rw [isSome_field?, layout?_of_fits h, Field.accepts, Layout.accepts_eq]

theorem fits_setField? (h : p.setField? x f = some q) (t : TypeTag) : q.fits t = p.fits t := by
  cases p <;> cases f <;> cases h <;> rfl

theorem mem_children_setField? (h : p.setField? x f = some q) (hy : y ∈ q.children) :
    y = x ∨ y ∈ p.children := by
  cases p <;> cases f <;> cases h <;> simp only [children, List.mem_cons] at hy ⊢ <;> tauto

theorem fits_setValue (i : Nat) (x : Handle) (p : Payload) (t : TypeTag) :
    (p.setValue i x).fits t = p.fits t := by
  cases p <;> rfl

theorem mem_toList_setIfInBounds {es : Array Handle} {i : Nat}
    (h : y ∈ (es.setIfInBounds i x).toList) : y = x ∨ y ∈ es.toList := by
  rw [Array.toList_setIfInBounds] at h
  exact (List.mem_or_eq_of_mem_set h).symm

theorem mem_children_setValue {i : Nat} (h : y ∈ (p.setValue i x).children) :
    y = x ∨ y ∈ p.children := by
  cases p with
  | values elements => exact mem_toList_setIfInBounds h
  | _ => exact .inr h

def elements : Payload → List Handle
  | strings elements | values elements => elements.toList
  | _ => []

theorem children_eq (p : Payload) : p.children = Field.all.filterMap p.field? ++ p.elements := by
  cases p <;> rfl

theorem mem_elements_iff :
    y ∈ p.elements ↔ (∃ i, p.string? i = some y) ∨ ∃ i, p.value? i = some y := by
  cases p with
  | strings es =>
    simp only [elements, string?, value?, Array.mem_toList_iff, Array.mem_iff_getElem?]
    simp
  | values es =>
    simp only [elements, string?, value?, Array.mem_toList_iff, Array.mem_iff_getElem?]
    simp
  | _ => simp [elements, string?, value?]

/-- The handles that a collection follows are those in fields, strings and generic vectors. -/
theorem mem_children_iff :
    y ∈ p.children ↔
      (∃ f, p.field? f = some y) ∨ (∃ i, p.string? i = some y) ∨ ∃ i, p.value? i = some y := by
  rw [children_eq, List.mem_append, List.mem_filterMap, mem_elements_iff]
  simp only [Field.mem_all, true_and]

end Payload

def Record.WellFormed (r : Record) : Prop :=
  r.payload.fits r.tag = true

end TaggedHeap
