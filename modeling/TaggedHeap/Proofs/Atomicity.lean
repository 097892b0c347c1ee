import TaggedHeap.Proofs.Operands
import TaggedHeap.Proofs.Searching
import TaggedHeap.Proofs.Twins

namespace TaggedHeap

theorem Payload.isSome_setField? (p : Payload) (value : Handle) (f : Field) :
    (p.setField? value f).isSome = (p.field? f).isSome := by
  cases p <;> cases f <;> rfl

namespace Heap

open Arena

variable {g h h' : Heap} {x y name value cell last : Handle} {r : Record} {cause : AccessError}
  {failure : Failure} {α : Type}

theorem setField_of_accepts {f : Field} (hx : h.arena.get? x = some r) (hw : r.WellFormed)
    (hf : f.accepts r.tag = true) (value : Handle) : (h.setField x f value).1 = .ok () := by
  have hs : (r.payload.setField? value f).isSome = true := by
    rw [Payload.isSome_setField?, Payload.isSome_field?_of_fits hw, hf]
  obtain ⟨payload, hp⟩ := Option.isSome_iff_exists.mp hs
  rw [setField, update, record_of_get? hx, ok_bind, if_pos hf, hp]

theorem setField_of_setField? {f f' : Field} {payload : Payload}
    (hx : h.arena.get? x = some r) (hw : r.WellFormed)
    (hp : r.payload.setField? y f = some payload) (hf : f'.layout = f.layout) (value : Handle) :
    (h.setField x f' value).1 = .ok () := by
  refine setField_of_accepts hx hw ?_ value
  rw [Field.accepts, hf, ← Field.accepts, ← Payload.isSome_field?_of_fits hw,
    ← Payload.isSome_setField? _ y, hp, Option.isSome_some]

theorem update_refused {f : Record → Except Failure Record}
    (he : (h.update x f).1 = .error failure) : (h.update x f).2 = h := by
  rcases h.update_cases x f with ⟨_, _, _, _, hs⟩ | ⟨_, hs⟩
  · rw [hs] at he
    cases he
  · rw [hs]

theorem setString_refused {i : Nat} (he : (h.setString x i value).1 = .error failure) :
    (h.setString x i value).2 = h := by
  rcases h.setString_cases x i value with ⟨_, _, _, _, hs⟩ | ⟨_, hs⟩
  · rw [hs] at he
    cases he
  · rw [hs]

theorem force_refused (hp : Proper h.arena) (he : (h.force x value).1 = .error failure) :
    (h.force x value).2 = h := by
  rcases h.setField_cases x .promiseValue value with ⟨r, payload, hx, hv, hs⟩ | ⟨_, hs⟩
  · have hw : Record.WellFormed { r with payload := payload } :=
      (Payload.fits_setField? hv r.tag).trans (hp.wellFormed.get? hx)
    have hget : (h.arena.modify x fun _ ↦ { r with payload := payload }).get? x =
        some { r with payload := payload } := by
      rw [get?_modify, if_pos rfl, hx, Option.map_some]
    have hf : Field.promiseEnvironment.accepts r.tag = true := by
      have hl := Payload.isSome_field?_of_fits (hp.wellFormed.get? hx) .promiseValue
      rw [← Payload.isSome_setField? _ value, hv] at hl
      exact hl.symm
    rw [force, hs] at he
    cases he.symm.trans (setField_of_accepts hget hw hf _)
  · rw [force, hs]

theorem unprotectAfter_of_denied {o : Outcome α} (n : Nat) (ho : o.1 = .error (.denied cause)) :
    (unprotectAfter n o).2 = o.2.unprotect n := by
  obtain ⟨e, h⟩ := o
  subst ho
  rfl

theorem unprotectAfter_of_fault {o : Outcome α} (n : Nat) {fault : Fault}
    (ho : o.1 = .error (.fault fault)) : unprotectAfter n o = o := by
  obtain ⟨e, h⟩ := o
  subst ho
  rfl

theorem unprotect_protect (h : Heap) (x : Handle) : (h.protect x).unprotect 1 = h := by
  simp [unprotect, Roots.unprotect?, protect, Roots.protect]

theorem unprotect_protect_protect (h : Heap) (x y : Handle) :
    ((h.protect x).protect y).unprotect 2 = h := by
  simp [unprotect, Roots.unprotect?, protect, Roots.protect]

theorem reach_of_searchFrom {n : Nat} (hs : h.searchFrom name n cell last = .absent y)
    (hc : h.isLive cell = true → Arena.Reach h.arena (h.rootHandles []) cell) :
    y = last ∨ Arena.Reach h.arena (h.rootHandles []) y ∧
      ∃ r head tail tag, h.arena.get? y = some r ∧ r.payload = .cell head tail tag := by
  induction n generalizing cell last with
  | zero =>
    rw [searchFrom] at hs
    split_ifs at hs
    exact .inl (Search.absent.inj hs).symm
  | succ n ih =>
    rcases h.searchFrom_cases name n cell last with ⟨tail, hp, he⟩ | he | he | ⟨-, he⟩
    · have hcell := hc hp.isLive
      obtain ⟨-, r, head, tag, hr, hpay, -⟩ := hp
      have htail : tail ∈ h.arena.linksOf cell := by
        rw [linksOf_of_get? hr, Record.links, hpay]
        simp [Payload.children]
      rcases ih (he.symm.trans hs) fun hl ↦ .link hcell htail hl with rfl | hy
      · exact .inr ⟨hcell, r, head, tail, tag, hr, hpay⟩
      · exact .inr hy
    · cases he.symm.trans hs
      exact .inl rfl
    · cases he.symm.trans hs
    · cases he.symm.trans hs

/-- A new attribute finds its place: the last cell of the list, or the record itself if the list is
empty, is still there when the cell of the attribute has been made. -/
theorem setAttributeProtected_of_absent (hp : Proper h.arena) (hx : x ∈ h.rootHandles [])
    (hr : h.arena.get? x = some r) (hs : h.search name r.attributes = .absent last)
    (hn : Numbered (h.setAttributeProtected x name value).2.arena) :
    (h.setAttributeProtected x name value).1 = .ok () := by
  let a := h.alloc .pairlist (.cell value h.nil name)
  have hc := h.continues_alloc .pairlist (.cell value h.nil name) rfl
  have he : h.setAttributeProtected x name value =
      if last = a.2.nil then a.2.setAttributes x a.1 else a.2.setField last .tail a.1 := by
    rw [setAttributeProtected, record_of_get? hr]
    dsimp only
    rw [hs]
  rw [he] at hn ⊢
  by_cases hnil : last = a.2.nil
  · rw [if_pos hnil]
    exact setAttributes_of_isLive (hc.live x hx (contains_of_get? hr)) a.1
  · rw [if_neg hnil] at hn ⊢
    have hna : Numbered a.2.arena := by
      rwa [Numbered, ← (rewrites_setField _ _ _ _).size_eq]
    have hlinks : r.attributes ∈ h.arena.linksOf x := by
      rw [linksOf_of_get? hr]
      exact List.mem_cons_self
    have hreach := Arena.Reach.root hx (contains_of_get? hr)
    rcases reach_of_searchFrom hs fun hl ↦ .link hreach hlinks hl with rfl | ⟨hy, q, hq⟩
    · exact absurd hc.nil.symm hnil
    · obtain ⟨head, tail, tag, hq, hpay⟩ := hq
      have hset : q.payload.setField? value .tail = some (.cell head value tag) := by
        rw [hpay]
        rfl
      have hget := (get?_alloc_of_reach hp hna hy).trans hq
      exact setField_of_setField? hget (hp.wellFormed.get? hq) hset rfl a.1

theorem setAttributeProtected_denied (hp : Proper h.arena) (hx : x ∈ h.rootHandles [])
    (hn : Numbered (h.setAttributeProtected x name value).2.arena)
    (he : (h.setAttributeProtected x name value).1 = .error (.denied cause)) :
    (h.setAttributeProtected x name value).2 = h := by
  cases hr : h.record x with
  | error failure => rw [setAttributeProtected, hr]
  | ok r =>
    cases hs : h.search name r.attributes with
    | found cell =>
      have heq : h.setAttributeProtected x name value = h.setField cell .head value := by
        simp only [setAttributeProtected, hr, hs]
      rw [heq] at he ⊢
      exact update_refused he
    | absent last =>
      cases he.symm.trans (setAttributeProtected_of_absent hp hx (get?_of_record hr) hs hn)
    | broken cell => simp only [setAttributeProtected, hr, hs]
    | endless => simp only [setAttributeProtected, hr, hs]

theorem setAttribute_denied (hp : Proper h.arena)
    (hn : Numbered (h.setAttribute x name value).2.arena)
    (he : (h.setAttribute x name value).1 = .error (.denied cause)) :
    (h.setAttribute x name value).2 = h := by
  have hx := h.mem_rootHandles_protect_protect x value
  rw [setAttribute, fst_unprotectAfter] at he
  rw [setAttribute, arena_unprotectAfter] at hn
  have hd := setAttributeProtected_denied (h := (h.protect x).protect value) hp hx hn he
  rw [setAttribute, unprotectAfter_of_denied 2 he, hd, unprotect_protect_protect]

theorem setFrame_of_alloc {frame enclosing table symbol : Handle} (hp : Proper h.arena)
    (hx : x ∈ h.rootHandles []) (hr : h.arena.get? x = some r)
    (hpay : r.payload = .environment frame enclosing table)
    (hn : Numbered (h.alloc .pairlist (.cell value frame symbol)).2.arena) (y : Handle) :
    ((h.alloc .pairlist (.cell value frame symbol)).2.setField x .frame y).1 = .ok () := by
  have hget := (get?_alloc_of_reach hp hn (.root hx (contains_of_get? hr))).trans hr
  have hset : r.payload.setField? y .frame = some (.environment y enclosing table) := by
    rw [hpay]
    rfl
  exact setField_of_setField? hget (hp.wellFormed.get? hr) hset rfl y

theorem defineHashed_refused {name : String} {table symbol : Handle}
    (he : (h.defineHashed table name symbol value).1 = .error failure) :
    (h.defineHashed table name symbol value).2 = h := by
  unfold defineHashed at he ⊢
  split
  · dsimp only
    split
    · next hb _ _ hbucket =>
      simp only [hb, hbucket] at he
      cases he
    · rfl
  · rfl

theorem defineProtected_denied {name : String} (hp : Proper h.arena) (hx : x ∈ h.rootHandles [])
    (hn : Numbered (h.defineProtected x name value).2.arena)
    (he : (h.defineProtected x name value).1 = .error (.denied cause)) :
    (h.defineProtected x name value).2 = (h.install name).2 := by
  have hc := h.continues_install name
  let p := h.install name
  cases hr : p.2.record x with
  | error failure => simp only [defineProtected, p, hr]
  | ok r =>
    cases hpay : r.payload with
    | environment frame enclosing table =>
      by_cases htable : table = p.2.nil
      · let y := p.2.alloc .pairlist (.cell value frame p.1)
        have heq : h.defineProtected x name value = y.2.setField x .frame y.1 := by
          simp only [defineProtected, p, hr, hpay, htable, if_true, y]
        rw [heq] at hn he
        have hn : Numbered y.2.arena := by
          rwa [Numbered, ← (rewrites_setField _ _ _ _).size_eq]
        cases he.symm.trans (setFrame_of_alloc (hc.evolves.proper hp) (hc.mem_rootHandles hx)
          (get?_of_record hr) hpay hn y.1)
      · have heq : h.defineProtected x name value = p.2.defineHashed table name p.1 value := by
          simp only [defineProtected, p, hr, hpay, htable, if_false]
        rw [heq] at he ⊢
        exact defineHashed_refused he
    | _ => simp only [defineProtected, p, hr, hpay]

def KeepsNames (h h' : Heap) : Prop :=
  ∀ name x, h.symbols.lookup name = some x → h'.symbols.lookup name = some x

theorem keepsNames_of_eq (hs : h'.symbols = h.symbols) : KeepsNames h h' :=
  fun _ _ hx ↦ hs ▸ hx

theorem symbols_unprotect (h : Heap) (n : Nat) : (h.unprotect n).symbols = h.symbols := by
  unfold unprotect
  split <;> rfl

theorem keepsNames_install (h : Heap) (name : String) : KeepsNames h (h.install name).2 := by
  unfold install
  split
  · exact keepsNames_of_eq rfl
  · next hnone =>
    intro name' x hx
    have hne : (name' == name) = false := by
      refine beq_false_of_ne ?_
      rintro rfl
      cases hnone.symm.trans hx
    dsimp only
    rw [List.lookup_cons, hne, symbols_unprotect, symbols_alloc]
    exact (h.symbols_intern _).symm ▸ hx

theorem symbols_internAll (values : List (Option String)) (h : Heap) :
    (internAll values h).2.symbols = h.symbols := by
  induction values generalizing h with
  | nil => rfl
  | cons value values ih =>
    cases value with
    | none => exact ih (h.protect h.missingString)
    | some text => exact (ih (protect _ _)).trans (h.symbols_intern (Text.Utf8.encode text))

theorem symbols_newString (h : Heap) (values : List (Option String)) :
    (h.newString values).2.symbols = h.symbols := by
  unfold newString
  dsimp only
  rw [symbols_unprotect, symbols_alloc, symbols_internAll]

/-- Everything that a program can get at is as it was. -/
structure Unharmed (h h' : Heap) : Prop where
  record_eq : ∀ x, h.Reach [] x → ∃ r, h.record x = .ok r ∧ h'.record x = .ok r
  roots_eq : h'.roots = h.roots
  names : KeepsNames h h'

theorem Grows.unharmed (hg : Grows h 0 h') (hp : Proper h.arena) (hn : Numbered h'.arena)
    (hs : KeepsNames h h') : Unharmed h h' where
  record_eq x hx := by
    have hx := (reach_iff hp.wellFormed).mp hx
    obtain ⟨r, hr⟩ := contains_iff.mp hx.contains
    exact ⟨r, record_of_get? hr, record_of_get? ((hg.get?_eq hp hn x hx).trans hr)⟩
  roots_eq := by
    obtain ⟨pushed, hlen, hroots⟩ := hg.roots
    rw [hroots, List.length_eq_zero_iff.mp hlen]
    rfl
  names := hs

theorem attach_denied {p : Handle × Heap} (hp : Proper p.2.arena) {symbol : Handle}
    (hn : Numbered (unprotectAfter 1 ((p.2.protect p.1).setAttribute x symbol p.1)).2.arena)
    (he : (unprotectAfter 1 ((p.2.protect p.1).setAttribute x symbol p.1)).1 =
      .error (.denied cause)) :
    (unprotectAfter 1 ((p.2.protect p.1).setAttribute x symbol p.1)).2 = p.2 := by
  rw [fst_unprotectAfter] at he
  rw [arena_unprotectAfter] at hn
  have hd := setAttribute_denied (h := p.2.protect p.1) hp hn he
  rw [unprotectAfter_of_denied 1 he, hd, unprotect_protect]

theorem define_denied {name : String} (hp : Proper h.arena)
    (hn : Numbered (h.define x name value).2.arena)
    (he : (h.define x name value).1 = .error (.denied cause)) :
    Unharmed h (h.define x name value).2 := by
  let q := (h.protect x).protect value
  have hx := h.mem_rootHandles_protect_protect x value
  have hg := ((h.grows_protect x).trans ((h.protect x).grows_protect value)).trans
    (q.grows_install name)
  rw [define, fst_unprotectAfter] at he
  have hd : (h.define x name value).2 = (q.install name).2.unprotect 2 := by
    rw [define, arena_unprotectAfter] at hn
    rw [define, unprotectAfter_of_denied 2 he, defineProtected_denied (h := q) hp hx hn he]
  rw [hd] at hn ⊢
  refine (hg.unprotect (n := 2) rfl).unharmed hp hn fun name' y hy ↦ ?_
  rw [symbols_unprotect]
  exact q.keepsNames_install name name' y hy

theorem setDimensions_denied {nrow ncol : Nat} (hp : Proper h.arena)
    (hn : Numbered (h.setDimensions x nrow ncol).2.arena)
    (he : (h.setDimensions x nrow ncol).1 = .error (.denied cause)) :
    Unharmed h (h.setDimensions x nrow ncol).2 := by
  have hsame (hn : Numbered h.arena) := (Grows.refl h).unharmed hp hn (keepsNames_of_eq rfl)
  unfold setDimensions at hn he ⊢
  cases hr : h.record x with
  | error failure =>
    simp only [hr] at hn ⊢
    exact hsame hn
  | ok r =>
    cases hl : r.payload.length? with
    | none =>
      simp only [hr, hl] at hn ⊢
      exact hsame hn
    | some length =>
      cases hd : dimensionDefect? length nrow ncol with
      | some defect =>
        simp only [hr, hl, hd] at hn ⊢
        exact hsame hn
      | none =>
        simp only [hr, hl, hd] at hn he ⊢
        let p := h.newInteger [Int32.ofNat nrow, Int32.ofNat ncol]
        have hg : Grows h 0 p.2 := h.grows_alloc .integer _ rfl (by decide)
        have hd := attach_denied (p := p) (hg.evolves.proper hp) hn he
        rw [hd] at hn ⊢
        exact hg.unharmed hp hn (keepsNames_of_eq (h.symbols_alloc _ _))

theorem setNames_denied {names : List String} (hp : Proper h.arena)
    (hn : Numbered (h.setNames x names).2.arena)
    (he : (h.setNames x names).1 = .error (.denied cause)) :
    Unharmed h (h.setNames x names).2 := by
  let p := h.newString (names.map some)
  have hg : Grows h 0 p.2 := h.grows_newString (names.map some)
  have hd : (h.setNames x names).2 = p.2 :=
    attach_denied (p := p) (hg.evolves.proper hp) hn he
  rw [hd] at hn ⊢
  exact hg.unharmed hp hn (keepsNames_of_eq (h.symbols_newString _))

end Heap

/-- The updates that make records before they have looked at all their arguments. -/
def Update.MakesFirst : Update → Prop
  | define _ _ _ | setDimensions _ _ _ | setNames _ _ => True
  | _ => False

namespace Heap

open Arena

variable {h : Heap} {u : Update} {cause : AccessError}

theorem run_eq_of_denied (hp : Proper h.arena) (hu : ¬ u.MakesFirst)
    (hn : Numbered (u.run h).2.arena) (he : (u.run h).1 = .error (.denied cause)) :
    (u.run h).2 = h := by
  cases u with
  | setString x i value => exact setString_refused (Update.fst_ofOutcome_eq_error_iff.mp he)
  | setField x f value => exact update_refused (Update.fst_ofOutcome_eq_error_iff.mp he)
  | force x value => exact force_refused hp (Update.fst_ofOutcome_eq_error_iff.mp he)
  | setAttributes x value => exact update_refused (Update.fst_ofOutcome_eq_error_iff.mp he)
  | setAttribute x name value =>
    exact setAttribute_denied hp hn (Update.fst_ofOutcome_eq_error_iff.mp he)
  | hashedEnvironment enclosing buckets =>
    have he := Update.fst_ofOutcome_eq_error_iff.mp he
    unfold hashedEnvironment at he
    dsimp only at he
    split at he
    · cases he
    · cases he
  | primitive tag offset =>
    cases tag with
    | special | builtin => cases he
    | _ => rfl
  | define _ _ _ | setDimensions _ _ _ | setNames _ _ => exact absurd trivial hu
  | _ => cases he

/-- An update that refuses its arguments does no harm: what the roots lead to, the roots themselves
and the symbols of names are as they were. Most leave the whole heap as it was. -/
theorem Arises.refusal_harmless (ha : Arises h) (hn : Numbered (u.run h).2.arena)
    (he : (u.run h).1 = .error (.denied cause)) :
    Unharmed h (u.run h).2 ∧ (¬ u.MakesFirst → (u.run h).2 = h) := by
  have hp := ha.proper
  refine ⟨?_, fun hu ↦ run_eq_of_denied hp hu hn he⟩
  by_cases hu : u.MakesFirst
  · cases u with
    | define x name value => exact define_denied hp hn (Update.fst_ofOutcome_eq_error_iff.mp he)
    | setDimensions x nrow ncol =>
      exact setDimensions_denied hp hn (Update.fst_ofOutcome_eq_error_iff.mp he)
    | setNames x names => exact setNames_denied hp hn (Update.fst_ofOutcome_eq_error_iff.mp he)
    | _ => exact hu.elim
  · have hs := run_eq_of_denied hp hu hn he
    rw [hs] at hn ⊢
    exact (Grows.refl h).unharmed hp hn (keepsNames_of_eq rfl)

theorem refusal_harmless_of_define_in_vector :
    let p := (create 0 1).newInteger [1]
    let u := Update.define p.1 "a" p.1
    (u.run p.2).1 = .error (.mismatch (.tag .environment) .integer) ∧
      Unharmed p.2 (u.run p.2).2 := by
  intro p u
  have ha : Arises p.2 := .run (.update (.newInteger [1])) (.create 0 1) trivial
  have he : (u.run p.2).1 = .error (.mismatch (.tag .environment) .integer) :=
    Update.fst_ofOutcome_eq_error_iff.mpr (by decide)
  have hsize : (u.run p.2).2.arena.slots.size ≤ 16 := by decide
  have hn : Numbered (u.run p.2).2.arena := hsize.trans (by decide)
  exact ⟨he, (Arises.refusal_harmless ha hn he).1⟩

end Heap

end TaggedHeap
