import TaggedHeap.Proofs.Arising
import TaggedHeap.Proofs.Growth
import TaggedHeap.Proofs.Honesty
import TaggedHeap.Proofs.Searching

namespace TaggedHeap

theorem Payload.values_iff_of_fits {p : Payload} {t : TypeTag} (h : p.fits t = true) :
    (∃ elements, p = .values elements) ↔ t.isGenericVector = true := by
  cases p <;> cases t <;> first | exact absurd h Bool.false_ne_true | simp [TypeTag.isGenericVector]

theorem Payload.field?_hashTable_eq_some_iff {p : Payload} {x : Handle} :
    p.field? .hashTable = some x ↔ ∃ frame enclosing, p = .environment frame enclosing x := by
  cases p <;> simp [field?]

namespace Heap

open Arena

variable {g h : Heap} {x name value cell last b : Handle} {n : Nat} {r : Record} {t : TypeTag}

/-- A search for the name passes so many cells and then comes to a value. -/
inductive Arrives (h : Heap) (name : Handle) : Nat → Handle → Handle → Prop
  | here {b : Handle} : Arrives h name 0 b b
  | pass {n : Nat} {cell tail b : Handle} :
      h.Passes name cell tail → Arrives h name n tail b → Arrives h name (n + 1) cell b

theorem Arrives.of_eq (ha : Arrives h name n cell b) (harena : g.arena = h.arena)
    (hnil : g.nil = h.nil) : Arrives g name n cell b := by
  induction ha with
  | here => exact .here
  | pass hp _ ih =>
    refine .pass ?_ ih
    rw [Passes, harena, hnil]
    exact hp

/-- A list without the name that does not end where lists end. -/
def Strays (h : Heap) (name : Handle) (n : Nat) (cell b : Handle) : Prop :=
  h.Arrives name n cell b ∧ b ≠ h.nil ∧ ∀ r, h.arena.get? b = some r → r.payload.cell? = none

theorem strays_of_searchFrom (hs : h.searchFrom name n cell last = .broken b) :
    ∃ m, h.Strays name m cell b := by
  induction n generalizing cell last with
  | zero =>
    rw [searchFrom] at hs
    split at hs
    · cases hs
    · cases hs
  | succ n ih =>
    rcases h.searchFrom_cases name n cell last with ⟨tail, hp, he⟩ | he | he | ⟨hc, he⟩
    · rw [he] at hs
      obtain ⟨m, ha, hb⟩ := ih hs
      exact ⟨m + 1, .pass hp ha, hb⟩
    · cases he.symm.trans hs
    · cases he.symm.trans hs
    · cases he.symm.trans hs
      exact ⟨0, .here, hc⟩

theorem Strays.searchFrom (hs : h.Strays name n cell b) (last : Handle) :
    h.searchFrom name (n + 1) cell last = .broken b := by
  obtain ⟨ha, hn, hc⟩ := hs
  induction ha generalizing last with
  | here =>
    rw [Heap.searchFrom, if_neg hn]
    split
    · next head tail tag heq =>
      obtain ⟨r, hr, hp⟩ := Option.map_eq_some_iff.mp heq
      exact absurd hp (Payload.cell?_eq_none_iff.mp (hc r hr) head tail tag)
    · rfl
  | pass hp _ ih =>
    rw [hp.searchFrom]
    exact ih _ hn hc

theorem search_eq_broken_iff : h.search name cell = .broken b ↔ ∃ n, h.Strays name n cell b := by
  constructor
  · exact strays_of_searchFrom
  · rintro ⟨n, hs⟩
    have hb := hs.searchFrom h.nil
    have hne : h.searchFrom name (n + 1) cell h.nil ≠ .endless := by
      rw [hb]
      nofun
    rw [search_eq hne, hb]

/-- The attributes of a value lead past so many cells, none of that name, to a value with a tag that
is not one of cells. -/
def Derails (h : Heap) (x name : Handle) (n : Nat) (t : TypeTag) (b : Handle) : Prop :=
  ∃ attributes, h.attributesOf x = .ok attributes ∧ h.Arrives name n attributes b ∧ b ≠ h.nil ∧
    h.tagOf b = .ok t ∧ t.isCell = false

theorem derails_congr (harena : g.arena = h.arena) (hnil : g.nil = h.nil) :
    (∃ n t, g.Derails x name n t b) ↔ ∃ n t, h.Derails x name n t b := by
  have hattributes : g.attributesOf x = h.attributesOf x := by
    rw [attributesOf, record, harena, attributesOf, record]
  have htag : g.tagOf b = h.tagOf b := by
    rw [tagOf, record, harena, tagOf, record]
  have harrives (n : Nat) (cell : Handle) :
      g.Arrives name n cell b ↔ h.Arrives name n cell b :=
    ⟨fun ha ↦ ha.of_eq harena.symm hnil.symm, fun ha ↦ ha.of_eq harena hnil⟩
  simp only [Derails, hattributes, htag, hnil, harrives]

theorem isCell_eq_false_iff (hw : r.WellFormed) :
    r.tag.isCell = false ↔ r.payload.cell? = none := by
  rw [← Payload.isSome_cell?_of_fits hw]
  exact Option.isSome_eq_false_iff.trans Option.isNone_iff_eq_none

theorem derails_iff (hp : Proper h.arena) :
    (∃ n t, h.Derails x name n t b) ↔
      ∃ r, h.arena.get? x = some r ∧ h.search name r.attributes = .broken b ∧
        h.isLive b = true := by
  constructor
  · rintro ⟨n, t, attributes, hx, ha, hn, ht, hc⟩
    obtain ⟨r, hr, he⟩ := exists_of_bind_eq_ok hx
    obtain ⟨q, hq, hqt⟩ := exists_of_bind_eq_ok ht
    cases he
    cases hqt
    have hq := get?_of_record hq
    refine ⟨r, get?_of_record hr, search_eq_broken_iff.mpr ⟨n, ha, hn, fun q' hq' ↦ ?_⟩,
      contains_of_get? hq⟩
    rw [hq, Option.some_inj] at hq'
    exact hq' ▸ (isCell_eq_false_iff (hp.wellFormed.get? hq)).mp hc
  · rintro ⟨r, hr, hs, hl⟩
    obtain ⟨n, ha, hn, hc⟩ := search_eq_broken_iff.mp hs
    obtain ⟨q, hq⟩ := get?_of_isLive hl
    exact ⟨n, q.tag, r.attributes, attributesOf_of_get? hr, ha, hn, tagOf_of_get? hq,
      (isCell_eq_false_iff (hp.wellFormed.get? hq)).mpr (hc q hq)⟩

theorem honest_update {f : Record → Except Failure Record} (hf : ∀ r, Honest h (f r)) :
    Honest (h.update x f).2 (h.update x f).1 := by
  have he := (h.honest_record x).bind hf
  unfold update
  split
  · exact honest_ok ()
  · next failure hr => exact he.of_error hr

theorem honest_setAttributes (h : Heap) (x value : Handle) :
    Honest (h.setAttributes x value).2 (h.setAttributes x value).1 :=
  honest_update fun _ ↦ honest_ok _

theorem honest_setField (h : Heap) (x : Handle) (f : Field) (value : Handle) :
    Honest (h.setField x f value).2 (h.setField x f value).1 := by
  refine honest_update fun r ↦ ?_
  split
  · split
    · exact honest_ok _
    · exact honest_error nofun
  · exact honest_error nofun

theorem honest_setString (h : Heap) (x : Handle) (i : Nat) (value : Handle) :
    Honest (h.setString x i value).2 (h.setString x i value).1 := by
  unfold setString
  split
  · next failure hv => exact (h.honest_record value).of_error hv
  · split
    · refine honest_update fun r ↦ ?_
      split
      · split
        · exact honest_ok _
        · exact honest_error nofun
      · exact honest_error nofun
    · exact honest_error nofun

theorem honest_force (h : Heap) (x value : Handle) :
    Honest (h.force x value).2 (h.force x value).1 := by
  have hv := h.honest_setField x .promiseValue value
  unfold force
  split
  · next h' _ => exact h'.honest_setField x .promiseEnvironment h'.nil
  · next failure h' he =>
    rw [he] at hv
    exact hv

def Misnames {α : Type} (o : Outcome α) (b : Handle) : Prop :=
  o.1 = .error (.stale b) ∧ o.2.isLive b = true

theorem Honest.not_misnames {α : Type} {o : Outcome α} (ho : Honest o.2 o.1) :
    ¬ Misnames o b :=
  fun hm ↦ ho b hm.1 hm.2

theorem misnames_unprotectAfter_iff {α : Type} {o : Outcome α} :
    Misnames (unprotectAfter n o) b ↔ Misnames o b := by
  rw [Misnames, fst_unprotectAfter, isLive_unprotectAfter, Misnames]

theorem misnames_setAttributeProtected_iff :
    Misnames (h.setAttributeProtected x name value) b ↔
      ∃ r, h.arena.get? x = some r ∧ h.search name r.attributes = .broken b ∧
        h.isLive b = true := by
  cases hx : h.record x with
  | error failure =>
    have ho : h.setAttributeProtected x name value = (.error failure, h) := by
      simp only [setAttributeProtected, hx]
    refine iff_of_false (ho ▸ ((h.honest_record x).of_error hx).not_misnames) ?_
    rintro ⟨r, hr, -⟩
    cases hx.symm.trans (record_of_get? hr)
  | ok r =>
    have hr := get?_of_record hx
    have hsearch : (∃ r, h.arena.get? x = some r ∧ h.search name r.attributes = .broken b ∧
        h.isLive b = true) ↔ h.search name r.attributes = .broken b ∧ h.isLive b = true := by
      simp [hr]
    rw [hsearch]
    cases hs : h.search name r.attributes with
    | found cell =>
      have ho : h.setAttributeProtected x name value = h.setField cell .head value := by
        simp only [setAttributeProtected, hx, hs]
      exact iff_of_false (ho ▸ (h.honest_setField cell .head value).not_misnames)
        fun hb ↦ nomatch hb.1
    | absent last =>
      refine iff_of_false (Honest.not_misnames ?_) fun hb ↦ nomatch hb.1
      simp only [setAttributeProtected, hx, hs]
      split
      · exact honest_setAttributes _ x _
      · exact honest_setField _ last .tail _
    | broken cell =>
      simp [Misnames, setAttributeProtected, hx, hs, Failure.stale]
    | endless =>
      have ho : h.setAttributeProtected x name value = (.error (.fault .endlessChain), h) := by
        simp only [setAttributeProtected, hx, hs]
      have he : Honest h (.error (.fault .endlessChain) : Except Failure Unit) := honest_error nofun
      exact iff_of_false (ho ▸ he.not_misnames) fun hb ↦ nomatch hb.1

theorem misnames_setAttribute_iff (hp : Proper h.arena) :
    Misnames (h.setAttribute x name value) b ↔ ∃ n t, h.Derails x name n t b := by
  let q := (h.protect x).protect value
  have hq : (∃ n t, q.Derails x name n t b) ↔ ∃ n t, h.Derails x name n t b :=
    derails_congr rfl rfl
  rw [setAttribute, misnames_unprotectAfter_iff, ← hq, derails_iff (h := q) hp]
  exact misnames_setAttributeProtected_iff

/-- An environment has a value with a tag that is not one of generic vectors in the place of its
hash table. -/
def Misplaces (h : Heap) (x : Handle) (t : TypeTag) (b : Handle) : Prop :=
  h.project x .hashTable = .ok b ∧ b ≠ h.nil ∧ h.tagOf b = .ok t ∧ t.isGenericVector = false

theorem project_hashTable_eq_ok_iff (hp : Proper h.arena) :
    h.project x .hashTable = .ok b ↔
      ∃ r, h.arena.get? x = some r ∧
        ∃ frame enclosing, r.payload = .environment frame enclosing b := by
  constructor
  · intro hb
    by_cases hx : h.isLive x = true
    · obtain ⟨r, hr⟩ := get?_of_isLive hx
      rw [project_of_get? hr (hp.wellFormed.get? hr), orRefuse_eq_ok_iff] at hb
      exact ⟨r, hr, Payload.field?_hashTable_eq_some_iff.mp hb⟩
    · rw [project_of_not_isLive hx] at hb
      cases hb
  · rintro ⟨r, hr, hb⟩
    rw [project_of_get? hr (hp.wellFormed.get? hr), orRefuse_eq_ok_iff]
    exact Payload.field?_hashTable_eq_some_iff.mpr hb

theorem misplaces_iff (hp : Proper h.arena) :
    (∃ t, h.Misplaces x t b) ↔
      ∃ r, h.arena.get? x = some r ∧
        (∃ frame enclosing, r.payload = .environment frame enclosing b) ∧ b ≠ h.nil ∧
        ∃ q, h.arena.get? b = some q ∧ ∀ elements, q.payload ≠ .values elements := by
  have hvalues {q : Record} (hq : h.arena.get? b = some q) :
      q.tag.isGenericVector = false ↔ ∀ elements, q.payload ≠ .values elements := by
    rw [← Bool.not_eq_true, ← Payload.values_iff_of_fits (hp.wellFormed.get? hq), not_exists]
  constructor
  · rintro ⟨t, hx, hn, ht, hg⟩
    obtain ⟨r, hr, hpay⟩ := (project_hashTable_eq_ok_iff hp).mp hx
    obtain ⟨q, hq, hqt⟩ := exists_of_bind_eq_ok ht
    cases hqt
    exact ⟨r, hr, hpay, hn, q, get?_of_record hq, (hvalues (get?_of_record hq)).mp hg⟩
  · rintro ⟨r, hr, hpay, hn, q, hq, hv⟩
    exact ⟨q.tag, (project_hashTable_eq_ok_iff hp).mpr ⟨r, hr, hpay⟩, hn, tagOf_of_get? hq,
      (hvalues hq).mpr hv⟩

theorem misnames_defineHashed_iff {table symbol : Handle} {name : String} :
    Misnames (h.defineHashed table name symbol value) b ↔
      table = b ∧ ∃ q, h.arena.get? b = some q ∧ ∀ elements, q.payload ≠ .values elements := by
  unfold defineHashed
  split
  · next elements hv =>
    obtain ⟨r, hr, hpay⟩ := Option.map_eq_some_iff.mp hv
    refine iff_of_false (Honest.not_misnames ?_) ?_
    · dsimp only
      split
      · exact honest_ok ()
      · exact honest_error nofun
    · rintro ⟨rfl, q, hq, hn⟩
      cases hr.symm.trans hq
      exact hn elements hpay
  · next hn =>
    constructor
    · rintro ⟨he, hl⟩
      obtain rfl : table = b := by simpa [Failure.stale] using he
      obtain ⟨q, hq⟩ := get?_of_isLive hl
      exact ⟨rfl, q, hq, fun elements hpay ↦ hn elements (by rw [hq, Option.map_some, hpay])⟩
    · rintro ⟨rfl, q, hq, -⟩
      exact ⟨rfl, contains_of_get? hq⟩

theorem misnames_defineProtected_iff {name : String} (hp : Proper h.arena) :
    Misnames (h.defineProtected x name value) b ↔
      ∃ t, (h.install name).2.Misplaces x t b := by
  let p := h.install name
  have hpp : Proper p.2.arena := (h.continues_install name).evolves.proper hp
  rw [misplaces_iff hpp]
  cases hx : p.2.record x with
  | error failure =>
    have ho : h.defineProtected x name value = (.error failure, p.2) := by
      simp only [defineProtected, p, hx]
    refine iff_of_false (ho ▸ ((p.2.honest_record x).of_error hx).not_misnames) ?_
    rintro ⟨r, hr, -⟩
    cases hx.symm.trans (record_of_get? hr)
  | ok r =>
    have hr := get?_of_record hx
    cases hpay : r.payload with
    | environment frame enclosing table =>
      by_cases htable : table = p.2.nil
      · refine iff_of_false (Honest.not_misnames ?_) ?_
        · simp only [defineProtected, p, hx, hpay, htable, if_true]
          exact honest_setField _ x .frame _
        · rintro ⟨q, hq, ⟨_, _, he⟩, hn, -⟩
          cases hr.symm.trans hq
          cases hpay.symm.trans he
          exact hn htable
      · have ho : h.defineProtected x name value = p.2.defineHashed table name p.1 value := by
          simp only [defineProtected, p, hx, hpay, htable, if_false]
        rw [ho, misnames_defineHashed_iff]
        constructor
        · rintro ⟨rfl, hv⟩
          exact ⟨r, hr, ⟨frame, enclosing, hpay⟩, htable, hv⟩
        · rintro ⟨q, hq, ⟨_, _, he⟩, -, hv⟩
          cases hr.symm.trans hq
          cases hpay.symm.trans he
          exact ⟨rfl, hv⟩
    | _ =>
      refine iff_of_false (Honest.not_misnames ?_) ?_
      · simp only [defineProtected, p, hx, hpay]
        exact honest_error nofun
      · rintro ⟨q, hq, ⟨_, _, he⟩, -⟩
        cases hr.symm.trans hq
        cases hpay.symm.trans he

theorem misnames_define_iff {name : String} (hp : Proper h.arena) :
    Misnames (h.define x name value) b ↔
      ∃ t, (((h.protect x).protect value).install name).2.Misplaces x t b := by
  rw [define, misnames_unprotectAfter_iff]
  exact misnames_defineProtected_iff (h := (h.protect x).protect value) hp

theorem misnames_attach_iff {p : Handle × Heap} (hp : Proper p.2.arena) {symbol : Handle} :
    Misnames (unprotectAfter 1 ((p.2.protect p.1).setAttribute x symbol p.1)) b ↔
      ∃ n t, p.2.Derails x symbol n t b := by
  rw [misnames_unprotectAfter_iff, misnames_setAttribute_iff (h := p.2.protect p.1) hp]
  exact derails_congr rfl rfl

theorem misnames_setDimensions_iff {nrow ncol : Nat} (hp : Proper h.arena) :
    let p := h.newInteger [Int32.ofNat nrow, Int32.ofNat ncol]
    Misnames (h.setDimensions x nrow ncol) b ↔
      (∃ length, h.vectorLength x = .ok length ∧ dimensionDefect? length nrow ncol = none) ∧
        ∃ n t, p.2.Derails x p.2.dimSymbol n t b := by
  intro p
  have hpp : Proper p.2.arena := (h.continues_alloc .integer _ rfl).evolves.proper hp
  cases hx : h.record x with
  | error failure =>
    have ho : h.setDimensions x nrow ncol = (.error failure, h) := by
      simp only [setDimensions, hx]
    refine iff_of_false (ho ▸ ((h.honest_record x).of_error hx).not_misnames) ?_
    rintro ⟨⟨length, hl, -⟩, -⟩
    obtain ⟨t, ht, -⟩ := exists_of_bind_eq_ok hl
    obtain ⟨r, hr, -⟩ := exists_of_bind_eq_ok ht
    cases hx.symm.trans hr
  | ok r =>
    have hr := get?_of_record hx
    rw [vectorLength_of_get? hr (hp.wellFormed.get? hr)]
    simp only [orRefuse_eq_ok_iff]
    cases hlength : r.payload.length? with
    | none =>
      refine iff_of_false (Honest.not_misnames ?_) ?_
      · simp only [setDimensions, hx, hlength]
        exact honest_error nofun
      · rintro ⟨⟨_, hl, -⟩, -⟩
        cases hl
    | some length =>
      cases hd : dimensionDefect? length nrow ncol with
      | some defect =>
        refine iff_of_false (Honest.not_misnames ?_) ?_
        · simp only [setDimensions, hx, hlength, hd]
          exact honest_error nofun
        · rintro ⟨⟨_, hl, hnone⟩, -⟩
          cases hl
          cases hd.symm.trans hnone
      | none =>
        have ho : h.setDimensions x nrow ncol =
            unprotectAfter 1 ((p.2.protect p.1).setAttribute x p.2.dimSymbol p.1) := by
          simp only [setDimensions, hx, hlength, hd, p]
        rw [ho, misnames_attach_iff hpp]
        exact (and_iff_right ⟨length, rfl, hd⟩).symm

end Heap

/-- The update meets the record of a handle in a place that is not meant for it: the list of
attributes that it searches, or the hash table that it is going to define in. -/
def Update.MisledBy (h : Heap) (b : Handle) : Update → Prop
  | setAttribute x name _ => ∃ n t, h.Derails x name n t b
  | setDimensions x nrow ncol =>
    let p := h.newInteger [Int32.ofNat nrow, Int32.ofNat ncol]
    (∃ length, h.vectorLength x = .ok length ∧ Heap.dimensionDefect? length nrow ncol = none) ∧
      ∃ n t, p.2.Derails x p.2.dimSymbol n t b
  | setNames x names =>
    let p := h.newString (names.map some)
    ∃ n t, p.2.Derails x p.2.namesSymbol n t b
  | define x name value =>
    ∃ t, (((h.protect x).protect value).install name).2.Misplaces x t b
  | _ => False

namespace Heap

open Arena

variable {h : Heap} {x name value cell b : Handle} {n : Nat} {t : TypeTag}

theorem misnames_ofOutcome_iff {α : Type} {datum : α → Datum} {o : Outcome α} :
    Misnames (Update.ofOutcome datum o) b ↔ Misnames o b :=
  and_congr_left' Update.fst_ofOutcome_eq_error_iff

theorem misnames_run_iff (hp : Proper h.arena) (u : Update) :
    Misnames (u.run h) b ↔ u.MisledBy h b := by
  have hnone {o : Outcome Datum} (ho : Honest o.2 o.1) : Misnames o b ↔ False :=
    iff_false_intro ho.not_misnames
  cases u with
  | setString x i value =>
    exact misnames_ofOutcome_iff.trans (iff_false_intro (h.honest_setString x i value).not_misnames)
  | setField x f value =>
    exact misnames_ofOutcome_iff.trans (iff_false_intro (h.honest_setField x f value).not_misnames)
  | force x value =>
    exact misnames_ofOutcome_iff.trans (iff_false_intro (h.honest_force x value).not_misnames)
  | setAttributes x attributes =>
    exact misnames_ofOutcome_iff.trans
      (iff_false_intro (h.honest_setAttributes x attributes).not_misnames)
  | hashedEnvironment enclosing buckets =>
    refine hnone (Honest.map ?_ _)
    unfold hashedEnvironment
    dsimp only
    split
    · exact honest_error nofun
    · exact honest_ok _
  | primitive tag offset =>
    refine hnone (Honest.map ?_ _)
    cases tag with
    | special | builtin => exact honest_ok _
    | _ => exact honest_error nofun
  | define x name value => exact misnames_ofOutcome_iff.trans (misnames_define_iff hp)
  | setAttribute x name value => exact misnames_ofOutcome_iff.trans (misnames_setAttribute_iff hp)
  | setDimensions x nrow ncol => exact misnames_ofOutcome_iff.trans (misnames_setDimensions_iff hp)
  | setNames x names =>
    have hpp := (h.continues_newString (names.map some)).evolves.proper hp
    exact misnames_ofOutcome_iff.trans (misnames_attach_iff hpp)
  | _ => exact hnone (honest_ok _)

theorem foldUntil_of_arrives {β : Type} {f : β → Handle × Handle → Except Failure (β ⊕ β)} {a : β}
    (hp : Proper h.arena) (ha : h.Arrives name n cell b) (hn : b ≠ h.nil) (ht : h.tagOf b = .ok t)
    (hc : t.isCell = false)
    (hf : ∀ tag head, tag ≠ name → f a (tag, head) = .ok (.inr a)) {w : Walk} {steps : Nat}
    (hw : w.cursor = cell) (hfin : w.finished = false) (hl : w.walked + n < w.limit)
    (hs : n < steps) :
    Walk.foldUntil h.nextCell f steps w a = .error (.mismatch (.tag .pairlist) t) := by
  induction ha generalizing w steps with
  | here =>
    obtain ⟨k, rfl⟩ := Nat.exists_eq_succ_of_ne_zero (Nat.ne_of_gt hs)
    rw [Walk.foldUntil, nextCell_of_unmet ht hw hfin hn hl hc]
  | @pass m cell tail b hpass _ ih =>
    obtain ⟨k, rfl⟩ := Nat.exists_eq_succ_of_ne_zero (Nat.ne_of_gt (Nat.zero_lt_of_lt hs))
    obtain ⟨hne, r, head, tag, hr, hpay, htag⟩ := hpass
    have hcell := readCell_of_get? hr (hp.wellFormed.get? hr)
    rw [hpay] at hcell
    have hnext : h.nextCell w = (some (.ok (tag, head)), w.moveTo tail) := by
      rw [nextCell, if_neg (by simp [hfin]), hw, if_neg hne, if_neg (by omega), hcell]
      rfl
    rw [Walk.foldUntil, hnext]
    dsimp only
    rw [hf tag head htag]
    have hmoved : w.walked + 1 + m < w.limit := (Nat.add_right_comm _ _ _).trans_lt hl
    exact ih hn ht rfl hfin hmoved (Nat.lt_of_succ_lt_succ hs)

theorem attributeBySymbol_of_derails (hp : Proper h.arena) (hd : h.Derails x name n t b)
    (hn : n < Walk.defaultLimit) :
    h.attributeBySymbol x name = .error (.mismatch (.tag .pairlist) t) := by
  obtain ⟨attributes, hx, ha, hb, ht, hc⟩ := hd
  rw [attributeBySymbol, hx, ok_bind]
  refine foldUntil_of_arrives hp ha hb ht hc (fun tag head hne ↦ ?_) rfl rfl ?_ ?_
  · rw [ok_bind, beq_false_of_ne hne]
    rfl
  · exact (Nat.zero_add n).trans_lt hn
  · exact Nat.lt_succ_of_lt hn

end Heap

/-- Where the new element is no `char` record, the vector is not looked at. -/
def Update.demand? (h : Heap) : Update → Option Demand
  | setString x _ value =>
    match h.tagOf value with
    | .ok .char => some ⟨x, .stringVector, (· == .string)⟩
    | _ => some ⟨value, .tag .char, (· == .char)⟩
  | setField x f _ => some (f.demand x)
  | force x _ => some (Field.promiseValue.demand x)
  | define x _ _ => some (Field.hashTable.demand x)
  | setDimensions x _ _ => some ⟨x, .vector, TypeTag.isVector⟩
  | _ => none

namespace Heap

open Arena

variable {h : Heap} {x value : Handle} {t : TypeTag}

theorem update_of_record {f : Record → Except Failure Record} {r : Record} {failure : Failure}
    (hr : h.record x = .ok r) (hf : f r = .error failure) :
    (h.update x f).1 = .error failure := by
  rw [update, hr, ok_bind, hf]

theorem setField_of_unmet (ht : h.tagOf x = .ok t) {f : Field} (hu : f.accepts t = false) :
    (h.setField x f value).1 = .error (.mismatch (.tag f.layout.tag) t) := by
  obtain ⟨r, hr, he⟩ := exists_of_bind_eq_ok ht
  cases he
  exact update_of_record hr (if_neg (Bool.not_eq_true _ ▸ hu))

theorem force_of_unmet (ht : h.tagOf x = .ok t) (hu : Field.promiseValue.accepts t = false) :
    (h.force x value).1 = .error (.mismatch (.tag .promise) t) := by
  have hv : (h.setField x .promiseValue value).1 = .error (.mismatch (.tag .promise) t) :=
    setField_of_unmet ht hu
  unfold force
  split
  · next he =>
    rw [he] at hv
    cases hv
  · next he =>
    rw [he] at hv
    exact hv

theorem setString_of_unmet_value (ht : h.tagOf value = .ok t) (hu : (t == .char) = false)
    (i : Nat) : (h.setString x i value).1 = .error (.mismatch (.tag .char) t) := by
  obtain ⟨r, hr, he⟩ := exists_of_bind_eq_ok ht
  cases he
  rw [setString, hr]
  dsimp only
  rw [if_neg (ne_of_beq_false hu)]

theorem setString_of_unmet (hp : Proper h.arena) (hv : h.tagOf value = .ok .char)
    (ht : h.tagOf x = .ok t) (hu : (t == .string) = false) (i : Nat) :
    (h.setString x i value).1 = .error (.mismatch .stringVector t) := by
  obtain ⟨q, hq, hqt⟩ := exists_of_bind_eq_ok hv
  obtain ⟨r, hr, he⟩ := exists_of_bind_eq_ok ht
  cases he
  have hw := hp.wellFormed.get? (get?_of_record hr)
  rw [setString, hq]
  dsimp only
  rw [if_pos (Except.ok.inj hqt)]
  refine update_of_record hr ?_
  cases hpay : r.payload with
  | strings elements =>
    rw [Record.WellFormed, hpay] at hw
    cases hu.symm.trans hw
  | _ => rfl

theorem setDimensions_of_unmet (hp : Proper h.arena) (ht : h.tagOf x = .ok t)
    (hu : t.isVector = false) (nrow ncol : Nat) :
    (h.setDimensions x nrow ncol).1 = .error (.mismatch .vector t) := by
  obtain ⟨r, hr, he⟩ := exists_of_bind_eq_ok ht
  cases he
  have hlength : r.payload.length? = none := by
    rw [← Option.isNone_iff_eq_none, ← Option.isSome_eq_false_iff,
      Payload.isSome_length?_of_fits (hp.wellFormed.get? (get?_of_record hr))]
    exact hu
  simp only [setDimensions, hr, hlength]

theorem defineProtected_of_unmet {name : String} {r : Record}
    (hr : (h.install name).2.arena.get? x = some r) (hw : r.WellFormed)
    (hu : Field.hashTable.accepts r.tag = false) :
    (h.defineProtected x name value).1 = .error (.mismatch (.tag .environment) r.tag) := by
  cases hpay : r.payload with
  | environment frame enclosing table =>
    rw [Record.WellFormed, hpay] at hw
    cases hu.symm.trans hw
  | _ => simp only [defineProtected, record_of_get? hr, hpay]

theorem define_of_unmet {name : String} (hp : Proper h.arena)
    (hn : Numbered (h.define x name value).2.arena) (ht : h.tagOf x = .ok t)
    (hu : Field.hashTable.accepts t = false) :
    (h.define x name value).1 = .error (.mismatch (.tag .environment) t) := by
  let q := (h.protect x).protect value
  obtain ⟨r, hr, he⟩ := exists_of_bind_eq_ok ht
  cases he
  have hr := get?_of_record hr
  have hroot := h.mem_rootHandles_protect_protect x value
  have hreach : Arena.Reach q.arena (q.rootHandles []) x := .root hroot (contains_of_get? hr)
  rw [define, arena_unprotectAfter] at hn
  have hni := (q.course_of_install x name value).numbered hn
  have hx := ((q.grows_install name).get?_eq hp hni x hreach).trans hr
  rw [define, fst_unprotectAfter]
  exact defineProtected_of_unmet hx (hp.wellFormed.get? hr) hu

theorem run_of_unmet (hp : Proper h.arena) {u : Update} (hn : Numbered (u.run h).2.arena)
    {d : Demand} (hd : u.demand? h = some d) (hu : d.Unmet h t) :
    (u.run h).1 = .error (.mismatch d.shape t) := by
  obtain ⟨ht, hu⟩ := hu
  cases u with
  | setString x i value =>
    refine map_of_error ?_ _
    dsimp only [Update.demand?] at hd
    split at hd
    · next hv =>
      cases hd
      exact setString_of_unmet hp hv ht hu i
    · cases hd
      exact setString_of_unmet_value ht hu i
  | setField x f value =>
    cases hd
    exact map_of_error (setField_of_unmet ht hu) _
  | force x value =>
    cases hd
    exact map_of_error (force_of_unmet ht hu) _
  | define x name value =>
    cases hd
    exact map_of_error (define_of_unmet hp hn ht hu) _
  | setDimensions x nrow ncol =>
    cases hd
    exact map_of_error (setDimensions_of_unmet hp ht hu nrow ncol) _
  | _ => cases hd

/-- What the operations of a heap say of the values that they cannot use. -/
structure Candid (h : Heap) : Prop where
  query : ∀ (q : Query) b, (q.run h).1 = .error (.stale b) → ¬ (q.run h).2.isLive b = true
  cells : ∀ (w : Walk) b, (w.trail h.nextCell).1.failure = some (.stale b) → ¬ h.isLive b = true
  environments : ∀ (w : Walk) b, (w.trail h.nextEnclosing).1.failure = some (.stale b) →
    ¬ h.isLive b = true
  update_iff : ∀ (u : Update) b,
    (u.run h).1 = .error (.stale b) ∧ (u.run h).2.isLive b = true ↔ u.MisledBy h b
  query_unmet : ∀ (q : Query) d t, q.demand? = some d → d.Unmet h t →
    (q.run h).1 = .error (.mismatch d.shape t)
  update_unmet : ∀ (u : Update) d t, Numbered (u.run h).2.arena → u.demand? h = some d →
    d.Unmet h t → (u.run h).1 = .error (.mismatch d.shape t)
  cell_unmet : ∀ (w : Walk) t, w.finished = false → w.cursor ≠ h.nil → w.walked < w.limit →
    h.tagOf w.cursor = .ok t → t.isCell = false →
    (h.nextCell w).1 = some (.error (.mismatch (.tag .pairlist) t))
  enclosing_unmet : ∀ (w : Walk) t, w.finished = false → h.tagOf w.cursor = .ok t →
    t ≠ .environment → (h.nextEnclosing w).1 = some (.error (.mismatch (.tag .environment) t))
  /-- So does the read of an attribute where an update that sets it would be misled. -/
  lookup_derailed : ∀ x name n t b, h.Derails x name n t b → n < Walk.defaultLimit →
    h.attributeBySymbol x name = .error (.mismatch (.tag .pairlist) t)

theorem fst_run_query (q : Query) (h : Heap) : (q.run h).1 = q.answer h := by
  unfold Query.run
  dsimp only
  split <;> rfl

theorem Arises.blames_exactly (ha : Arises h) : Candid h where
  query q b hb hl := by
    rw [fst_run_query] at hb
    refine h.honest_answer q b hb ?_
    rcases q.run_cases h with he | ⟨e, he⟩
    · exact he ▸ hl
    · rw [he] at hl
      exact hl
  cells w b hb := honest_trail h.honest_nextCell w hb
  environments w b hb := honest_trail h.honest_nextEnclosing w hb
  update_iff u b := misnames_run_iff ha.proper u
  query_unmet q d t hq hu := by
    rw [fst_run_query]
    exact answer_of_unmet ha.proper.wellFormed hq hu
  update_unmet u d t hn hd hu := run_of_unmet ha.proper hn hd hu
  cell_unmet w t hf hn hl ht hc := by rw [nextCell_of_unmet ht rfl hf hn hl hc]
  enclosing_unmet w t hf ht hne := by
    rw [nextEnclosing_of_unmet ht rfl hf (beq_false_of_ne hne)]
  lookup_derailed x name n t b hd hn := attributeBySymbol_of_derails ha.proper hd hn

/-- A vector that has itself for its attributes misleads an update that sets one. -/
theorem blames_exactly_of_own_attributes :
    let p := (create 0 0).newInteger [1]
    let h := (p.2.setAttributes p.1 p.1).2
    Arises h ∧ Candid h ∧ (Update.setAttribute p.1 h.dimSymbol p.1).MisledBy h p.1 := by
  intro p h
  have ha : Arises h := .run (.update (.setAttributes p.1 p.1))
    (.run (.update (.newInteger [1])) (.create 0 0) trivial) trivial
  have hn : p.1 ≠ h.nil := by decide
  have hd : h.Derails p.1 h.dimSymbol 0 .integer p.1 := ⟨p.1, rfl, .here, hn, rfl, rfl⟩
  exact ⟨ha, Arises.blames_exactly ha, 0, .integer, hd⟩

/-- The update calls the vector stale, which it is not; a read of the same attribute tells what it
is. -/
theorem setAttribute_misnames_live_vector :
    let p := (create 0 0).newInteger [1]
    let h := (p.2.setAttributes p.1 p.1).2
    (h.setAttribute p.1 h.dimSymbol p.1).1 = .error (.stale p.1) ∧
      (h.setAttribute p.1 h.dimSymbol p.1).2.isLive p.1 = true ∧
      h.attributeBySymbol p.1 h.dimSymbol = .error (.mismatch (.tag .pairlist) .integer) := by
  decide

end Heap

end TaggedHeap
