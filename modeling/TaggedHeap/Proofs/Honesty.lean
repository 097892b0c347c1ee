import TaggedHeap.Proofs.Failing

namespace TaggedHeap

namespace Heap

variable {h : Heap} {x : Handle} {t : TypeTag} {α β : Type}

/-- The outcome calls no handle stale that has a record. -/
def Honest (h : Heap) (e : Except Failure α) : Prop :=
  ∀ b, e = .error (.stale b) → ¬ h.isLive b = true

theorem honest_iff {e : Except Failure α} :
    Honest h e ↔ Fails (fun failure ↦ ∀ b, failure = .stale b → ¬ h.isLive b = true) e := by
  constructor
  · intro he failure hf b hb
    exact he b (hf.trans (congrArg Except.error hb))
  · intro he b hb
    exact he _ hb b rfl

theorem honest_ok (a : α) : Honest h (.ok a : Except Failure α) := by
  intro b hb
  cases hb

theorem honest_error {failure : Failure} (hf : ∀ b, failure ≠ .stale b) :
    Honest h (.error failure : Except Failure α) := by
  intro b hb
  exact absurd (Except.error.inj hb) (hf b)

theorem Honest.of_error {failure : Failure} {e : Except Failure α} (he : Honest h e)
    (hf : e = .error failure) : Honest h (.error failure : Except Failure β) := by
  intro b hb
  exact he b (hf.trans (congrArg Except.error (Except.error.inj hb)))

theorem Honest.bind {e : Except Failure α} {k : α → Except Failure β} (he : Honest h e)
    (hk : ∀ a, Honest h (k a)) : Honest h (e >>= k) := by
  cases e with
  | ok a => exact hk a
  | error failure => exact he.of_error rfl

theorem Honest.map {e : Except Failure α} (he : Honest h e) (f : α → β) : Honest h (f <$> e) := by
  intro b hb
  exact he b (eq_error_of_map hb)

theorem honest_mapM {f : α → Except Failure β} (hf : ∀ a, Honest h (f a)) (l : List α) :
    Honest h (l.mapM f) := by
  simp only [honest_iff] at hf ⊢
  exact fails_mapM fun a _ ↦ hf a

def HonestSteps (h : Heap) (next : Walk → Step α) : Prop :=
  ∀ w e w', next w = (some e, w') → Honest h e

theorem honest_foldUntil {next : Walk → Step α} {f : β → α → Except Failure (β ⊕ β)}
    (hn : HonestSteps h next) (hf : ∀ b a, Honest h (f b a)) (steps : Nat) (w : Walk) (b : β) :
    Honest h (Walk.foldUntil next f steps w b) := by
  simp only [HonestSteps, honest_iff] at hn hf ⊢
  exact fails_foldUntil hn hf steps w b

theorem honest_trailFrom {next : Walk → Step α} (hn : HonestSteps h next) {b : Handle} {steps : Nat}
    {w : Walk} {items : List α}
    (hb : (Walk.trailFrom next steps w items).1.failure = some (.stale b)) :
    ¬ h.isLive b = true := by
  induction steps generalizing w items with
  | zero => cases hb
  | succ steps ih =>
    unfold Walk.trailFrom at hb
    split at hb
    · cases hb
    · next failure w' he => exact hn w _ w' he b (congrArg Except.error (Option.some.inj hb))
    · exact ih hb

theorem honest_trail {next : Walk → Step α} (hn : HonestSteps h next) (w : Walk) {b : Handle}
    (hb : (w.trail next).1.failure = some (.stale b)) : ¬ h.isLive b = true :=
  honest_trailFrom hn hb

theorem honest_of_fails {e : Except Failure α} (he : Fails h.Structural e) : Honest h e := by
  intro b hb
  exact (he _ hb).not_isLive

section Reads

variable (h) (x)

theorem honest_record : Honest h (h.record x) :=
  honest_of_fails (h.fails_record x)

theorem honest_charBytes : Honest h (h.charBytes x) :=
  honest_of_fails (h.fails_charBytes x)

theorem honest_charText : Honest h (h.charText x) := by
  refine (h.honest_charBytes x).bind fun bytes ↦ ?_
  split
  · exact honest_ok _
  · exact honest_error nofun

theorem honest_symbolText : Honest h (h.symbolText x) :=
  (honest_of_fails (h.fails_project x .printName)).bind h.honest_charText

theorem honest_element (what : String) (part : Payload → Option α) (demanded : Shape)
    (accepts : TypeTag → Bool) (i : Nat) :
    Honest h (do h.checkElement x demanded accepts i; h.raw what x part) :=
  honest_of_fails (h.fails_element what x part demanded accepts i)

theorem honest_nextCell : HonestSteps h h.nextCell :=
  fun w e w' he ↦ honest_of_fails (h.fails_nextCell w e w' he)

theorem honest_nextEnclosing : HonestSteps h h.nextEnclosing :=
  fun w e w' he ↦ honest_of_fails (h.fails_nextEnclosing w e w' he)

theorem honest_findHead {test : Handle → Except Failure Bool} (ht : ∀ x, Honest h (test x))
    (list : Handle) : Honest h (h.findHead test list) :=
  honest_foldUntil h.honest_nextCell
    (fun _ cell ↦ (ht cell.1).bind fun _ ↦ honest_ok _) _ _ _

theorem honest_attributeByName (name : String) : Honest h (h.attributeByName x name) := by
  refine (honest_of_fails (h.fails_attributesOf x)).bind fun attributes ↦
    h.honest_findHead (fun tag ↦ ?_) attributes
  split
  · exact honest_ok false
  · exact (h.honest_symbolText tag).map _

theorem honest_tagNames : Honest h (h.tagNames x) :=
  Honest.map (honest_foldUntil h.honest_nextCell
    (fun _ cell ↦ (h.honest_symbolText cell.1).bind fun _ ↦ honest_ok _) _ _ _) _

theorem honest_read (g : Getter) (i : Nat) : Honest h (g.read h x i) := by
  have hchar : Honest h (h.getChar x i) := h.honest_element x _ _ _ _ i
  have hlogical : Honest h (h.getRawLogical x i) := h.honest_element x _ _ _ _ i
  have hinteger : Honest h (h.getInteger x i) := h.honest_element x _ _ _ _ i
  have hreal : Honest h (h.getReal x i) := h.honest_element x _ _ _ _ i
  cases g with
  | rawLogical => exact hlogical.map _
  | logical | logicalOption => exact (hlogical.bind fun _ ↦ honest_ok _).map _
  | integer => exact hinteger.map _
  | integerOption => exact (hinteger.bind fun _ ↦ honest_ok _).map _
  | real => exact hreal.map _
  | realOption => exact (hreal.bind fun _ ↦ honest_ok _).map _
  | char => exact hchar.map _
  | text => exact (hchar.bind h.honest_charText).map _
  | bytes => exact (hchar.bind h.honest_charBytes).map _
  | textOption =>
    refine (hchar.bind fun char ↦ ?_).map _
    split
    · exact (h.honest_charText _).map _
    · exact honest_ok none
  | bytesOption =>
    refine (hchar.bind fun char ↦ ?_).map _
    split
    · exact (h.honest_charBytes _).map _
    · exact honest_ok none
  | value => exact (h.honest_element x _ _ _ _ i).map _

theorem honest_bucketNames : Honest h (h.bucketNames x) := by
  refine (honest_of_fails (h.fails_project x .hashTable)).bind fun table ↦
    (honest_of_fails (h.fails_vectorLength table)).bind fun size ↦
      (honest_mapM (fun i ↦ ?_) _).bind fun _ ↦ honest_ok _
  refine (h.honest_element table _ _ _ _ i).bind fun bucket ↦ ?_
  split
  · exact honest_ok none
  · exact (h.honest_tagNames bucket).bind fun names ↦ honest_ok (some (i, names))

theorem honest_answer (q : Query) : Honest h (q.answer h) := by
  cases q with
  | isLive _ | isNil _ | cells _ | enclosing _ => exact honest_ok _
  | tagOf x => exact (honest_of_fails (h.fails_tagOf x)).map _
  | expectTag x expected => exact (honest_of_fails (h.fails_expectTag x expected)).map _
  | attributesOf x => exact (honest_of_fails (h.fails_attributesOf x)).map _
  | attributeBySymbol x symbol =>
    exact (honest_of_fails (h.fails_attributeBySymbol x symbol)).map _
  | attributeByName x name => exact (h.honest_attributeByName x name).map _
  | vectorLength x => exact (honest_of_fails (h.fails_vectorLength x)).map _
  | nrows x => exact (honest_of_fails (h.fails_nrows x)).map _
  | dimensions x => exact (honest_of_fails (h.fails_dimensions x)).map _
  | charBytes x => exact (h.honest_charBytes x).map _
  | charText x => exact (h.honest_charText x).map _
  | symbolText x => exact (h.honest_symbolText x).map _
  | primitiveOffset x => exact (honest_of_fails (h.fails_primitiveOffset x)).map _
  | project x f => exact (honest_of_fails (h.fails_project x f)).map _
  | element g x offset => exact h.honest_read x g offset
  | matrixOffset x row column =>
    exact (honest_of_fails (h.fails_matrixOffset x row column)).map _
  | matrixElement g x row column =>
    exact (honest_of_fails (h.fails_matrixOffset x row column)).bind fun offset ↦
      h.honest_read x g offset
  | bucketNames x => exact (h.honest_bucketNames x).map _

end Reads

end Heap

/-- What an operation demands of a value before anything else. -/
structure Demand where
  subject : Handle
  shape : Shape
  accepts : TypeTag → Bool

def Demand.Unmet (d : Demand) (h : Heap) (t : TypeTag) : Prop :=
  h.tagOf d.subject = .ok t ∧ d.accepts t = false

def Field.demand (f : Field) (x : Handle) : Demand :=
  ⟨x, .tag f.layout.tag, f.accepts⟩

def Getter.shape : Getter → Shape
  | rawLogical | logical | logicalOption => .logicalVector
  | integer | integerOption => .integerVector
  | real | realOption => .realVector
  | char | text | textOption | bytes | bytesOption => .stringVector
  | value => .genericVector

def Getter.accepts : Getter → TypeTag → Bool
  | rawLogical | logical | logicalOption => (· == .logical)
  | integer | integerOption => (· == .integer)
  | real | realOption => (· == .real)
  | char | text | textOption | bytes | bytesOption => (· == .string)
  | value => TypeTag.isGenericVector

def Query.demand? : Query → Option Demand
  | expectTag x expected => some ⟨x, .tag expected, (· == expected)⟩
  | vectorLength x | nrows x | dimensions x | matrixOffset x _ _ | matrixElement _ x _ _ =>
    some ⟨x, .vector, TypeTag.isVector⟩
  | charBytes x | charText x => some ⟨x, .tag .char, (· == .char)⟩
  | symbolText x => some (Field.printName.demand x)
  | primitiveOffset x => some ⟨x, .primitive, fun t ↦ t == .special || t == .builtin⟩
  | project x f => some (f.demand x)
  | element g x _ => some ⟨x, g.shape, g.accepts⟩
  | bucketNames x => some (Field.hashTable.demand x)
  | isLive _ | isNil _ | tagOf _ | attributesOf _ | attributeBySymbol _ _ | attributeByName _ _
  | cells _ | enclosing _ => none

namespace Heap

open Arena

variable {h : Heap} {x : Handle} {t : TypeTag}

section Unmet

variable (ht : h.tagOf x = .ok t)

include ht

theorem expectTag_of_unmet {expected : TypeTag} (hu : (t == expected) = false) :
    h.expectTag x expected = .error (.mismatch (.tag expected) t) := by
  rw [expectTag, ht, ok_bind, if_neg (ne_of_beq_false hu)]
  rfl

theorem vectorLength_of_unmet (hu : t.isVector = false) :
    h.vectorLength x = .error (.mismatch .vector t) := by
  rw [vectorLength, ht, ok_bind, if_neg (Bool.not_eq_true _ ▸ hu)]
  rfl

theorem project_of_unmet {f : Field} (hu : f.accepts t = false) :
    h.project x f = .error (.mismatch (.tag f.layout.tag) t) := by
  rw [project, ht, ok_bind, if_neg (Bool.not_eq_true _ ▸ hu)]
  rfl

theorem readCell_of_unmet (hu : t.isCell = false) :
    h.readCell x = .error (.mismatch (.tag .pairlist) t) := by
  rw [readCell, ht, ok_bind, if_neg (Bool.not_eq_true _ ▸ hu)]
  rfl

theorem charBytes_of_unmet (hu : (t == .char) = false) :
    h.charBytes x = .error (.mismatch (.tag .char) t) :=
  bind_of_error (expectTag_of_unmet ht hu) _

theorem checkElement_of_unmet {demanded : Shape} {accepts : TypeTag → Bool}
    (hu : accepts t = false) (i : Nat) :
    h.checkElement x demanded accepts i = .error (.mismatch demanded t) := by
  rw [checkElement, ht, ok_bind, if_neg (Bool.not_eq_true _ ▸ hu)]
  rfl

theorem read_of_unmet {g : Getter} (hu : g.accepts t = false) (i : Nat) :
    g.read h x i = .error (.mismatch g.shape t) := by
  have hc {demanded : Shape} {accepts : TypeTag → Bool} (hu : accepts t = false) :
      h.checkElement x demanded accepts i = .error (.mismatch demanded t) :=
    checkElement_of_unmet ht hu i
  cases g with
  | rawLogical | integer | real | char | value =>
    exact map_of_error (bind_of_error (hc hu) _) _
  | _ => exact map_of_error (bind_of_error (bind_of_error (hc hu) _) _) _

theorem primitiveOffset_of_unmet (hw : All Record.WellFormed h.arena)
    (hu : (t == .special || t == .builtin) = false) :
    h.primitiveOffset x = .error (.mismatch .primitive t) := by
  obtain ⟨r, hr, he⟩ := exists_of_bind_eq_ok ht
  cases he
  have hfit := hw.get? (get?_of_record hr)
  rw [primitiveOffset, hr, ok_bind]
  cases hp : r.payload with
  | primitive offset =>
    rw [Record.WellFormed, hp] at hfit
    cases hu.symm.trans hfit
  | _ => rfl

theorem nextCell_of_unmet {w : Walk} (hx : w.cursor = x) (hf : w.finished = false)
    (hn : x ≠ h.nil) (hl : w.walked < w.limit) (hu : t.isCell = false) :
    h.nextCell w = (some (.error (.mismatch (.tag .pairlist) t)), w.finish) := by
  subst hx
  rw [nextCell, if_neg (by simp [hf]), if_neg hn, if_neg (Nat.not_le.mpr hl),
    readCell_of_unmet ht hu]

theorem nextEnclosing_of_unmet {w : Walk} (hx : w.cursor = x) (hf : w.finished = false)
    (hu : Field.enclosing.accepts t = false) :
    h.nextEnclosing w = (some (.error (.mismatch (.tag .environment) t)), w.finish) := by
  subst hx
  rw [nextEnclosing, if_neg (by simp [hf]), project_of_unmet ht hu]
  rfl

end Unmet

theorem answer_of_unmet (hw : All Record.WellFormed h.arena) {q : Query} {d : Demand}
    (hq : q.demand? = some d) (hu : d.Unmet h t) :
    q.answer h = .error (.mismatch d.shape t) := by
  obtain ⟨ht, hu⟩ := hu
  cases q <;> cases hq
  case expectTag => exact map_of_error (expectTag_of_unmet ht hu) _
  case vectorLength => exact map_of_error (vectorLength_of_unmet ht hu) _
  case nrows => exact map_of_error (bind_of_error (vectorLength_of_unmet ht hu) _) _
  case dimensions => exact map_of_error (bind_of_error (vectorLength_of_unmet ht hu) _) _
  case matrixOffset => exact map_of_error (bind_of_error (vectorLength_of_unmet ht hu) _) _
  case matrixElement =>
    exact bind_of_error (bind_of_error (vectorLength_of_unmet ht hu) _) _
  case charBytes => exact map_of_error (charBytes_of_unmet ht hu) _
  case charText => exact map_of_error (bind_of_error (charBytes_of_unmet ht hu) _) _
  case symbolText =>
    exact map_of_error (bind_of_error (project_of_unmet (f := .printName) ht hu) _) _
  case primitiveOffset => exact map_of_error (primitiveOffset_of_unmet ht hw hu) _
  case project => exact map_of_error (project_of_unmet ht hu) _
  case element g i => exact read_of_unmet ht hu i
  case bucketNames =>
    exact map_of_error (bind_of_error (project_of_unmet (f := .hashTable) ht hu) _) _

end Heap

end TaggedHeap
