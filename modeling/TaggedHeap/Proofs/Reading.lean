import TaggedHeap.Query
import TaggedHeap.Proofs.Kind

namespace TaggedHeap

section Bind

variable {α β : Type}

theorem ok_bind (a : α) (k : α → Except Failure β) : (Except.ok a >>= k) = k a := rfl

theorem exists_of_bind_eq_ok {e : Except Failure α} {k : α → Except Failure β} {b : β}
    (h : (e >>= k) = .ok b) : ∃ a, e = .ok a ∧ k a = .ok b := by
  cases e with
  | ok a => exact ⟨a, rfl, h⟩
  | error failure => cases h

theorem bind_congr_of_ok {e : Except Failure α} {k k' : α → Except Failure β}
    (hk : ∀ a, e = .ok a → k a = k' a) : (e >>= k) = (e >>= k') := by
  cases e with
  | ok a => exact hk a rfl
  | error failure => rfl

theorem bind_of_error {e : Except Failure α} {failure : Failure} (he : e = .error failure)
    (k : α → Except Failure β) : (e >>= k) = .error failure := by
  rw [he]
  rfl

theorem map_of_error {e : Except Failure α} {failure : Failure} (he : e = .error failure)
    (f : α → β) : f <$> e = .error failure := by
  rw [he]
  rfl

theorem eq_error_of_map {e : Except Failure α} {f : α → β} {failure : Failure}
    (h : f <$> e = .error failure) : e = .error failure := by
  cases e with
  | ok a => cases h
  | error failure' => exact congrArg Except.error (Except.error.inj h)

/-- Where there is no result, the failure is of the admitted kind. -/
def Fails (admits : Failure → Prop) (e : Except Failure α) : Prop :=
  ∀ failure, e = .error failure → admits failure

section Fails

variable {admits : Failure → Prop} {e : Except Failure α}

theorem fails_ok (a : α) : Fails admits (.ok a : Except Failure α) := by
  intro failure he
  cases he

theorem fails_error {failure : Failure} (hf : admits failure) :
    Fails admits (.error failure : Except Failure α) := by
  intro failure' he
  cases he
  exact hf

theorem Fails.of_error {failure : Failure} (he : Fails admits e) (hf : e = .error failure) :
    Fails admits (.error failure : Except Failure β) :=
  fails_error (he failure hf)

theorem Fails.bind {k : α → Except Failure β} (he : Fails admits e)
    (hk : ∀ a, e = .ok a → Fails admits (k a)) : Fails admits (e >>= k) := by
  cases e with
  | ok a => exact hk a rfl
  | error failure => exact he.of_error rfl

theorem fails_mapM {f : α → Except Failure β} {l : List α} (hf : ∀ a ∈ l, Fails admits (f a)) :
    Fails admits (l.mapM f) := by
  induction l with
  | nil => exact fails_ok []
  | cons a l ih =>
    obtain ⟨ha, hl⟩ := List.forall_mem_cons.mp hf
    rw [List.mapM_cons]
    exact ha.bind fun b _ ↦ (ih hl).bind fun bs _ ↦ fails_ok (b :: bs)

theorem fails_foldUntil {next : Walk → Step α} {f : β → α → Except Failure (β ⊕ β)}
    (hnext : ∀ w e w', next w = (some e, w') → Fails admits e) (hf : ∀ b a, Fails admits (f b a))
    (steps : Nat) (w : Walk) (b : β) : Fails admits (Walk.foldUntil next f steps w b) := by
  induction steps generalizing w b with
  | zero => exact fails_ok b
  | succ steps ih =>
    unfold Walk.foldUntil
    split
    · exact fails_ok b
    · next failure w' he => exact (hnext w _ w' he).of_error rfl
    · next a w' he =>
      split
      · next failure hb => exact (hf b a).of_error hb
      · exact fails_ok _
      · next b' _ => exact ih w' b'

end Fails

/-- The outcome is a result or a refusal, not the breach of a contract. -/
def Answered (e : Except Failure α) : Prop :=
  ∀ f, e ≠ .error (.fault f)

theorem answered_iff {e : Except Failure α} :
    Answered e ↔ Fails (fun failure ↦ ∀ f, failure ≠ .fault f) e := by
  constructor
  · intro he failure hf f hfault
    exact he f (hf.trans (congrArg Except.error hfault))
  · intro he f hf
    exact he _ hf f rfl

theorem answered_ok (a : α) : Answered (.ok a : Except Failure α) := by
  intro f
  nofun

theorem answered_denied (cause : AccessError) :
    Answered (.error (.denied cause) : Except Failure α) := by
  intro f
  nofun

theorem Answered.bind {e : Except Failure α} {k : α → Except Failure β} (he : Answered e)
    (hk : ∀ a, e = .ok a → Answered (k a)) : Answered (e >>= k) := by
  cases e with
  | ok a => exact hk a rfl
  | error failure =>
    cases failure with
    | denied cause => exact answered_denied cause
    | fault f => exact absurd rfl (he f)

theorem Answered.map {e : Except Failure α} (he : Answered e) (f : α → β) :
    Answered (f <$> e) := by
  cases e with
  | ok a => exact answered_ok (f a)
  | error failure =>
    cases failure with
    | denied cause => exact answered_denied cause
    | fault f => exact absurd rfl (he f)

end Bind

namespace Payload

variable {α : Type}

/-- A partial view that has an element at exactly the offsets below the length, in the payloads of
the accepted tags, and no element in any other. -/
def Indexes (part : Payload → Nat → Option α) (accepts : TypeTag → Bool) : Prop :=
  ∀ p t, p.fits t = true →
    (accepts t = true → ∃ n, p.length? = some n ∧ ∀ i, (part p i).isSome = decide (i < n)) ∧
      (accepts t = false → ∀ i, part p i = none)

theorem indexes_of_array {part : Payload → Nat → Option α} {accepts : TypeTag → Bool}
    (hp : ∀ p t, p.fits t = true →
      (∃ es : Array α, accepts t = true ∧ p.length? = some es.size ∧ ∀ i, part p i = es[i]?) ∨
        accepts t = false ∧ ∀ i, part p i = none) : Indexes part accepts := by
  intro p t ht
  rcases hp p t ht with ⟨es, ha, hl, he⟩ | ⟨ha, he⟩
  · refine ⟨fun _ ↦ ⟨es.size, hl, fun i ↦ ?_⟩, fun hf ↦ absurd (ha.symm.trans hf) (by decide)⟩
    rw [he, Bool.eq_iff_iff, isSome_getElem?, decide_eq_true_iff]
  · exact ⟨fun hf ↦ absurd (hf.symm.trans ha) (by decide), fun _ ↦ he⟩

theorem indexes_logical? : Indexes logical? (· == .logical) := by
  refine indexes_of_array fun p t ht ↦ ?_
  cases p with
  | logical es => exact .inl ⟨es, ht, rfl, fun _ ↦ rfl⟩
  | _ => exact .inr ⟨by cases t <;> trivial, fun _ ↦ rfl⟩

theorem indexes_integer? : Indexes integer? (· == .integer) := by
  refine indexes_of_array fun p t ht ↦ ?_
  cases p with
  | integer es => exact .inl ⟨es, ht, rfl, fun _ ↦ rfl⟩
  | _ => exact .inr ⟨by cases t <;> trivial, fun _ ↦ rfl⟩

theorem indexes_real? : Indexes real? (· == .real) := by
  refine indexes_of_array fun p t ht ↦ ?_
  cases p with
  | real es => exact .inl ⟨es, ht, rfl, fun _ ↦ rfl⟩
  | _ => exact .inr ⟨by cases t <;> trivial, fun _ ↦ rfl⟩

theorem indexes_string? : Indexes string? (· == .string) := by
  refine indexes_of_array fun p t ht ↦ ?_
  cases p with
  | strings es => exact .inl ⟨es, ht, rfl, fun _ ↦ rfl⟩
  | _ => exact .inr ⟨by cases t <;> trivial, fun _ ↦ rfl⟩

theorem indexes_value? : Indexes value? TypeTag.isGenericVector := by
  refine indexes_of_array fun p t ht ↦ ?_
  cases p with
  | values es => exact .inl ⟨es, ht, rfl, fun _ ↦ rfl⟩
  | _ => exact .inr ⟨by cases t <;> trivial, fun _ ↦ rfl⟩

theorem isSome_cell?_of_fits {p : Payload} {t : TypeTag} (h : p.fits t = true) :
    p.cell?.isSome = t.isCell := by
  cases p <;> cases t <;> first | rfl | exact absurd h Bool.false_ne_true

theorem isSome_bytes?_of_fits {p : Payload} {t : TypeTag} (h : p.fits t = true) :
    p.bytes?.isSome = (t == .char) := by
  cases p <;> cases t <;> first | rfl | exact absurd h Bool.false_ne_true

end Payload

namespace Heap

variable {h : Heap} {x : Handle} {r : Record} {f : Field} {α : Type}

theorem get?_of_isLive (hx : h.isLive x = true) : ∃ r, h.arena.get? x = some r :=
  Arena.contains_iff.mp hx

theorem record_of_get? (hx : h.arena.get? x = some r) : h.record x = .ok r := by
  rw [record, hx]

theorem get?_of_record (hx : h.record x = .ok r) : h.arena.get? x = some r := by
  unfold record at hx
  split at hx
  · next q hq => exact hq.trans (congrArg some (Except.ok.inj hx))
  · cases hx

theorem record_of_not_isLive (hx : ¬ h.isLive x = true) : h.record x = .error (.stale x) := by
  have hn : h.arena.get? x = none := by
    rwa [isLive, Arena.contains, Bool.not_eq_true, Option.isSome_eq_false_iff,
      Option.isNone_iff_eq_none] at hx
  rw [record, hn]

theorem tagOf_of_get? (hx : h.arena.get? x = some r) : h.tagOf x = .ok r.tag := by
  rw [tagOf, record_of_get? hx]
  rfl

theorem tagOf_of_not_isLive (hx : ¬ h.isLive x = true) : h.tagOf x = .error (.stale x) :=
  bind_of_error (record_of_not_isLive hx) _

theorem attributesOf_of_get? (hx : h.arena.get? x = some r) :
    h.attributesOf x = .ok r.attributes := by
  rw [attributesOf, record_of_get? hx]
  rfl

def orRefuse (part : Option α) (failure : Failure) : Except Failure α :=
  match part with
  | some a => .ok a
  | none => .error failure

theorem raw_of_get? (what : String) {part : Payload → Option α} (hx : h.arena.get? x = some r) :
    h.raw what x part = orRefuse (part r.payload) (.fault (.brokenRead what x)) := by
  rw [raw, hx]
  rfl

theorem orRefuse_eq_ok_iff {part : Option α} {failure : Failure} {a : α} :
    orRefuse part failure = .ok a ↔ part = some a := by
  cases part <;> simp [orRefuse]

theorem orRefuse_of_isSome {part : Option α} (hp : part.isSome = true) (e e' : Failure) :
    orRefuse part e = orRefuse part e' := by
  obtain ⟨a, rfl⟩ := Option.isSome_iff_exists.mp hp
  rfl

/-- The common shape of checked reads: a test of the tag that the presence of the part follows
from, and a raw read. -/
theorem guarded_raw (what : String) {p : Payload → Option α} {failure : Failure} {b : Bool}
    (hx : h.arena.get? x = some r) (hb : (p r.payload).isSome = b) :
    (if b = true then h.raw what x p else .error failure) = orRefuse (p r.payload) failure := by
  subst hb
  split
  · next hp => rw [raw_of_get? what hx, orRefuse_of_isSome hp]
  · next hp =>
    rw [Bool.not_eq_true, Option.isSome_eq_false_iff, Option.isNone_iff_eq_none] at hp
    rw [hp]
    rfl

theorem vectorLength_of_get? (hx : h.arena.get? x = some r) (hw : r.WellFormed) :
    h.vectorLength x = orRefuse r.payload.length? (.mismatch .vector r.tag) := by
  rw [vectorLength, tagOf_of_get? hx, ok_bind]
  exact guarded_raw _ hx (Payload.isSome_length?_of_fits hw)

theorem project_of_get? (hx : h.arena.get? x = some r) (hw : r.WellFormed) :
    h.project x f = orRefuse (r.payload.field? f) (.mismatch (.tag f.layout.tag) r.tag) := by
  rw [project, tagOf_of_get? hx, ok_bind]
  exact guarded_raw _ hx (Payload.isSome_field?_of_fits hw f)

theorem readCell_of_get? (hx : h.arena.get? x = some r) (hw : r.WellFormed) :
    h.readCell x = orRefuse r.payload.cell? (.mismatch (.tag .pairlist) r.tag) := by
  rw [readCell, tagOf_of_get? hx, ok_bind]
  exact guarded_raw _ hx (Payload.isSome_cell?_of_fits hw)

theorem expectTag_of_get? (hx : h.arena.get? x = some r) (expected : TypeTag) :
    h.expectTag x expected =
      if r.tag = expected then .ok () else .error (.mismatch (.tag expected) r.tag) := by
  rw [expectTag, tagOf_of_get? hx, ok_bind]
  rfl

theorem charBytes_of_get? (hx : h.arena.get? x = some r) (hw : r.WellFormed) :
    h.charBytes x = orRefuse r.payload.bytes? (.mismatch (.tag .char) r.tag) := by
  have hb := Payload.isSome_bytes?_of_fits hw
  rw [charBytes, expectTag_of_get? hx, ← guarded_raw "char_bytes" hx hb]
  by_cases ht : r.tag = .char
  · simp [ht, ok_bind, rawBytes]
  · rw [if_neg ht, bind_of_error rfl, if_neg (by simpa using ht)]

def elementFailure (r : Record) (expected : Shape) (accepts : TypeTag → Bool) (i : Nat) : Failure :=
  if accepts r.tag = true then .denied (.indexOutOfRange i (r.payload.length?.getD 0))
  else .mismatch expected r.tag

theorem checkElement_bind (what : String) {part : Payload → Nat → Option α}
    {accepts : TypeTag → Bool} (hp : Payload.Indexes part accepts) (expected : Shape)
    (hx : h.arena.get? x = some r) (hw : r.WellFormed) (i : Nat) :
    (do h.checkElement x expected accepts i; h.raw what x fun p ↦ part p i) =
      orRefuse (part r.payload i) (elementFailure r expected accepts i) := by
  unfold elementFailure
  obtain ⟨hin, hout⟩ := hp r.payload r.tag hw
  rw [checkElement, tagOf_of_get? hx, ok_bind]
  cases ha : accepts r.tag with
  | false =>
    rw [hout ha]
    rfl
  | true =>
    obtain ⟨n, hn, hi⟩ := hin ha
    have hlen : h.rawLength x = .ok n := by
      rw [rawLength, raw_of_get? _ hx, hn]
      rfl
    simp only [if_true, hlen, ok_bind, hn, Option.getD_some]
    refine Eq.trans ?_ (guarded_raw what (p := fun p ↦ part p i) hx (hi i))
    by_cases hlt : i < n
    · simp [hlt]
    · simp only [hlt, if_false, decide_false, Bool.false_eq_true]
      rfl

section Element

variable (hx : h.arena.get? x = some r) (hw : r.WellFormed) (i : Nat)

include hx hw

theorem getRawLogical_of_get? :
    h.getRawLogical x i =
      orRefuse (r.payload.logical? i) (elementFailure r .logicalVector (· == .logical) i) :=
  checkElement_bind "logical_elt" Payload.indexes_logical? .logicalVector hx hw i

theorem getInteger_of_get? :
    h.getInteger x i =
      orRefuse (r.payload.integer? i) (elementFailure r .integerVector (· == .integer) i) :=
  checkElement_bind "integer_elt" Payload.indexes_integer? .integerVector hx hw i

theorem getReal_of_get? :
    h.getReal x i =
      orRefuse (r.payload.real? i) (elementFailure r .realVector (· == .real) i) :=
  checkElement_bind "real_elt" Payload.indexes_real? .realVector hx hw i

theorem getChar_of_get? :
    h.getChar x i =
      orRefuse (r.payload.string? i) (elementFailure r .stringVector (· == .string) i) :=
  checkElement_bind "string_elt" Payload.indexes_string? .stringVector hx hw i

theorem getValue_of_get? :
    h.getValue x i =
      orRefuse (r.payload.value? i) (elementFailure r .genericVector TypeTag.isGenericVector i) :=
  checkElement_bind "vector_elt" Payload.indexes_value? .genericVector hx hw i

end Element

section Stale

variable (hx : ¬ h.isLive x = true)

include hx

theorem attributesOf_of_not_isLive : h.attributesOf x = .error (.stale x) :=
  bind_of_error (record_of_not_isLive hx) _

theorem expectTag_of_not_isLive (expected : TypeTag) :
    h.expectTag x expected = .error (.stale x) :=
  bind_of_error (tagOf_of_not_isLive hx) _

theorem vectorLength_of_not_isLive : h.vectorLength x = .error (.stale x) :=
  bind_of_error (tagOf_of_not_isLive hx) _

theorem project_of_not_isLive (f : Field) : h.project x f = .error (.stale x) :=
  bind_of_error (tagOf_of_not_isLive hx) _

theorem readCell_of_not_isLive : h.readCell x = .error (.stale x) :=
  bind_of_error (tagOf_of_not_isLive hx) _

theorem charBytes_of_not_isLive : h.charBytes x = .error (.stale x) :=
  bind_of_error (expectTag_of_not_isLive hx .char) _

theorem checkElement_of_not_isLive (expected : Shape) (accepts : TypeTag → Bool) (i : Nat) :
    h.checkElement x expected accepts i = .error (.stale x) :=
  bind_of_error (tagOf_of_not_isLive hx) _

theorem getRawLogical_of_not_isLive (i : Nat) : h.getRawLogical x i = .error (.stale x) :=
  bind_of_error (checkElement_of_not_isLive hx _ _ i) _

theorem getInteger_of_not_isLive (i : Nat) : h.getInteger x i = .error (.stale x) :=
  bind_of_error (checkElement_of_not_isLive hx _ _ i) _

theorem getReal_of_not_isLive (i : Nat) : h.getReal x i = .error (.stale x) :=
  bind_of_error (checkElement_of_not_isLive hx _ _ i) _

theorem getChar_of_not_isLive (i : Nat) : h.getChar x i = .error (.stale x) :=
  bind_of_error (checkElement_of_not_isLive hx _ _ i) _

theorem getValue_of_not_isLive (i : Nat) : h.getValue x i = .error (.stale x) :=
  bind_of_error (checkElement_of_not_isLive hx _ _ i) _

end Stale

section Congr

variable {g : Heap} (hx : g.arena.get? x = h.arena.get? x)

include hx

theorem tagOf_congr : g.tagOf x = h.tagOf x := by
  simp only [tagOf, record, hx]

theorem project_congr (f : Field) : g.project x f = h.project x f := by
  simp only [project, tagOf, record, rawField, raw, hx]

theorem primitiveOffset_congr : g.primitiveOffset x = h.primitiveOffset x := by
  simp only [primitiveOffset, record, hx]

theorem attributesOf_congr : g.attributesOf x = h.attributesOf x := by
  simp only [attributesOf, record, hx]

theorem readCell_congr : g.readCell x = h.readCell x := by
  simp only [readCell, tagOf, record, rawCell, raw, hx]

theorem getValue_congr (i : Nat) : g.getValue x i = h.getValue x i := by
  simp only [getValue, checkElement, tagOf, record, rawLength, rawValue, raw, hx]

end Congr

theorem readCell_eq_ok_iff (hw : Arena.All Record.WellFormed h.arena) {tag head tail : Handle} :
    h.readCell x = .ok (tag, head, tail) ↔
      ∃ r, h.arena.get? x = some r ∧ r.payload = .cell head tail tag := by
  have hcell (p : Payload) : p.cell? = some (tag, head, tail) ↔ p = .cell head tail tag := by
    cases p with
    | cell head' tail' tag' => simp [Payload.cell?, and_comm, and_assoc]
    | _ => simp [Payload.cell?]
  by_cases hl : h.isLive x = true
  · obtain ⟨r, hr⟩ := get?_of_isLive hl
    rw [readCell_of_get? hr (hw.get? hr), orRefuse_eq_ok_iff, hcell, hr]
    simp
  · rw [readCell_of_not_isLive hl]
    refine iff_of_false nofun ?_
    rintro ⟨r, hr, -⟩
    exact hl (Arena.contains_of_get? hr)

end Heap

end TaggedHeap
