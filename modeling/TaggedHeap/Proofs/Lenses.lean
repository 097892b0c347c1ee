import TaggedHeap.Proofs.Shaping

namespace TaggedHeap

namespace Payload

variable {p q : Payload} {v w : Handle} {f k : Field}

theorem field?_setField? (hq : p.setField? v f = some q) : q.field? f = some v := by
  cases p <;> cases f <;> cases hq <;> rfl

theorem field?_setField?_of_ne (hq : p.setField? v f = some q) (hk : k ≠ f) :
    q.field? k = p.field? k := by
  cases p <;> cases f <;> cases hq <;> cases k <;> first | rfl | exact absurd rfl hk

theorem setField?_setField? (hq : p.setField? v f = some q) :
    q.setField? w f = p.setField? w f := by
  cases p <;> cases f <;> cases hq <;> rfl

theorem setField?_field? (hv : p.field? f = some v) : p.setField? v f = some p := by
  cases p <;> cases f <;> cases hv <;> rfl

end Payload

/-- The tags with fields promise neither elements nor bytes nor a number. -/
structure TypeTag.Plain (t : TypeTag) : Prop where
  isVector : t.isVector = false
  char : (t == .char) = false
  primitive : (t == .special || t == .builtin) = false
  element : ∀ g : Getter, g.accepts t = false

theorem Field.plain_of_accepts {t : TypeTag} {f : Field} (hf : f.accepts t = true) : t.Plain := by
  cases t with
  | symbol | pairlist | closure | environment | promise | language | dots =>
    exact ⟨rfl, rfl, rfl, fun g ↦ by cases g <;> rfl⟩
  | _ => cases f <;> cases hf

namespace Arena

variable {a : Arena} {x : Handle} {r : Record}

theorem modify_modify (a : Arena) (x : Handle) (f g : Record → Record) :
    (a.modify x f).modify x g = a.modify x fun r ↦ g (f r) := by
  simp only [modify, mk.injEq, and_true]
  apply Array.ext_getElem?
  intro i
  simp only [Array.getElem?_modify]
  by_cases hi : x.slot.toNat = i
  · simp only [if_pos hi, Option.map_map]
    congr 1
    funext s
    by_cases hg : s.generation = x.generation
    · simp [hg, Function.comp_def]
    · simp [hg]
  · simp only [if_neg hi]

theorem modify_of_get? (hx : a.get? x = some r) : (a.modify x fun _ ↦ r) = a := by
  obtain ⟨s, hs, hg, hr⟩ := get?_eq_some_iff.mp hx
  have hslots : (a.slots.modify x.slot.toNat fun s ↦
      if s.generation = x.generation then { s with record := s.record.map fun _ ↦ r } else s) =
      a.slots := by
    apply Array.ext_getElem?
    intro i
    rw [Array.getElem?_modify]
    split_ifs with hi
    · subst hi
      rw [hs, Option.map_some, if_pos hg, hr, Option.map_some, ← hr]
    · rfl
  rw [modify, hslots]

end Arena

namespace Heap

open Arena

variable {g h : Heap} {x y v w c : Handle} {f k : Field} {r r' : Record} {q : Payload}

/-- The heap with another record in the place of one that is there. -/
def put (h : Heap) (x : Handle) (r : Record) : Heap :=
  { h with arena := h.arena.modify x fun _ ↦ r }

theorem get?_put (hx : h.arena.get? x = some r) :
    (h.put x r').arena.get? x = some r' := by
  rw [put, get?_modify, if_pos rfl, hx, Option.map_some]

theorem get?_put_of_ne (hne : x ≠ y) : (h.put x r').arena.get? y = h.arena.get? y := by
  rw [put, get?_modify, if_neg hne]

theorem isLive_put (h : Heap) (x y : Handle) (r : Record) : (h.put x r).isLive y = h.isLive y :=
  contains_modify _

theorem put_put (h : Heap) (x : Handle) (r r' : Record) : (h.put x r).put x r' = h.put x r' := by
  rw [put, put, put, modify_modify]

theorem put_of_get? (hx : h.arena.get? x = some r) : h.put x r = h := by
  rw [put, modify_of_get? hx]

theorem setField_of_get? (hx : h.arena.get? x = some r) (hw : r.WellFormed) (f : Field)
    (v : Handle) :
    (f.accepts r.tag = true ∧ ∃ q, r.payload.setField? v f = some q ∧
        h.setField x f v = (.ok (), h.put x { r with payload := q })) ∨
      f.accepts r.tag = false ∧
        h.setField x f v = (.error (.mismatch (.tag f.layout.tag) r.tag), h) := by
  cases hf : f.accepts r.tag with
  | true =>
    have hs : (r.payload.setField? v f).isSome = true := by
      rw [Payload.isSome_setField?, Payload.isSome_field?_of_fits hw, hf]
    obtain ⟨q, hq⟩ := Option.isSome_iff_exists.mp hs
    refine .inl ⟨rfl, q, hq, ?_⟩
    rw [setField, update, record_of_get? hx, ok_bind, if_pos hf, hq]
    rfl
  | false =>
    refine .inr ⟨rfl, ?_⟩
    rw [setField, update, record_of_get? hx, ok_bind, if_neg (Bool.eq_false_iff.mp hf)]

theorem setField_of_not_isLive (hx : ¬ h.isLive x = true) (f : Field) (v : Handle) :
    h.setField x f v = (.error (.stale x), h) := by
  rw [setField, update, record_of_not_isLive hx]
  rfl

section Put

variable (hp : Proper h.arena) (hx : h.arena.get? x = some r)
  (hq : r.payload.setField? v f = some q)

include hp hx hq

theorem proper_put : Proper (h.put x { r with payload := q }).arena := by
  refine Change.proper (.rewrite fun r' hr' ↦ ?_) hp
  obtain rfl := Option.some.inj (hx.symm.trans hr')
  exact ⟨rfl, (Payload.fits_setField? hq r.tag).trans⟩

theorem project_put : (h.put x { r with payload := q }).project x f = .ok v := by
  have hw := (proper_put hp hx hq).wellFormed.get? (get?_put hx)
  rw [project_of_get? (get?_put hx) hw, orRefuse_eq_ok_iff]
  exact Payload.field?_setField? hq

theorem project_put_of_ne (hne : (y, k) ≠ (x, f)) :
    (h.put x { r with payload := q }).project y k = h.project y k := by
  by_cases hxy : x = y
  · subst hxy
    have hk : k ≠ f := fun he ↦ hne (he ▸ rfl)
    have hw := (proper_put hp hx hq).wellFormed.get? (get?_put hx)
    rw [project_of_get? (get?_put hx) hw, project_of_get? hx (hp.wellFormed.get? hx),
      Payload.field?_setField?_of_ne hq hk]
  · exact project_congr (get?_put_of_ne hxy) k

end Put

/-- What a write to a field leaves alone: all but this one record, and of the record its tag and its
attributes. -/
structure Leaves (h : Heap) (x : Handle) (g : Heap) : Prop where
  rest : ∃ arena, g = { h with arena := arena }
  proper : Proper g.arena
  get?_of_ne : ∀ y, x ≠ y → g.arena.get? y = h.arena.get? y
  self : ∃ r r', h.arena.get? x = some r ∧ g.arena.get? x = some r' ∧ r'.tag = r.tag ∧
    r'.attributes = r.attributes ∧ r.tag.Plain

theorem leaves_put (hp : Proper h.arena) (hx : h.arena.get? x = some r)
    (hf : f.accepts r.tag = true) (hq : r.payload.setField? v f = some q) :
    Leaves h x (h.put x { r with payload := q }) where
  rest := ⟨_, rfl⟩
  proper := proper_put hp hx hq
  get?_of_ne _ := get?_put_of_ne
  self := ⟨r, _, hx, get?_put hx, rfl, rfl, Field.plain_of_accepts hf⟩

namespace Leaves

variable (hl : Leaves h x g)

include hl

theorem tagOf (y : Handle) : g.tagOf y = h.tagOf y := by
  by_cases hxy : x = y
  · subst hxy
    obtain ⟨r, r', hr, hr', ht, -, -⟩ := hl.self
    rw [tagOf_of_get? hr, tagOf_of_get? hr', ht]
  · exact tagOf_congr (hl.get?_of_ne y hxy)

theorem attributesOf (y : Handle) : g.attributesOf y = h.attributesOf y := by
  by_cases hxy : x = y
  · subst hxy
    obtain ⟨r, r', hr, hr', -, ha, -⟩ := hl.self
    rw [attributesOf_of_get? hr, attributesOf_of_get? hr', ha]
  · exact attributesOf_congr (hl.get?_of_ne y hxy)

theorem tagOf_self : ∃ t, h.tagOf x = .ok t ∧ g.tagOf x = .ok t ∧ t.Plain := by
  obtain ⟨r, r', hr, hr', ht, -, hplain⟩ := hl.self
  exact ⟨r.tag, tagOf_of_get? hr, ht ▸ tagOf_of_get? hr', hplain⟩

theorem vectorLength (y : Handle) : g.vectorLength y = h.vectorLength y := by
  by_cases hxy : x = y
  · subst hxy
    obtain ⟨t, ht, ht', hplain⟩ := hl.tagOf_self
    rw [vectorLength_of_unmet ht hplain.isVector, vectorLength_of_unmet ht' hplain.isVector]
  · simp only [Heap.vectorLength, hl.tagOf, rawLength, raw, hl.get?_of_ne y hxy]

theorem charBytes (y : Handle) : g.charBytes y = h.charBytes y := by
  by_cases hxy : x = y
  · subst hxy
    obtain ⟨t, ht, ht', hplain⟩ := hl.tagOf_self
    rw [charBytes_of_unmet ht hplain.char, charBytes_of_unmet ht' hplain.char]
  · simp only [Heap.charBytes, expectTag, hl.tagOf, rawBytes, raw, hl.get?_of_ne y hxy]

theorem primitiveOffset (hp : Proper h.arena) (y : Handle) :
    g.primitiveOffset y = h.primitiveOffset y := by
  by_cases hxy : x = y
  · subst hxy
    obtain ⟨t, ht, ht', hplain⟩ := hl.tagOf_self
    rw [primitiveOffset_of_unmet ht hp.wellFormed hplain.primitive,
      primitiveOffset_of_unmet ht' hl.proper.wellFormed hplain.primitive]
  · exact primitiveOffset_congr (hl.get?_of_ne y hxy)

theorem read (hp : Proper h.arena) (k : Getter) (y : Handle) (i : Nat) :
    k.read g y i = k.read h y i := by
  have hm : g.missingString = h.missingString := by
    obtain ⟨arena, rfl⟩ := hl.rest
    rfl
  by_cases hxy : x = y
  · subst hxy
    obtain ⟨t, ht, ht', hplain⟩ := hl.tagOf_self
    rw [read_of_unmet ht (hplain.element k), read_of_unmet ht' (hplain.element k)]
  · have hget := hl.get?_of_ne y hxy
    by_cases hlive : h.isLive y = true
    · obtain ⟨r, hr⟩ := get?_of_isLive hlive
      exact read_congr hp hl.proper hr (hget.trans hr) rfl rfl hm (fun z _ ↦ hl.charBytes z) k i
    · have hlive' : ¬ g.isLive y = true := by rwa [isLive, contains, hget]
      rw [read_of_not_isLive hlive, read_of_not_isLive hlive']

theorem foldUntil {β : Type} {e : β → Handle × Handle → Except Failure (β ⊕ β)} {steps : Nat}
    {u : Walk} {b : β} (hp : Proper h.arena) (hu : ∀ n, h.along .tail u.cursor n ≠ .ok x) :
    Walk.foldUntil g.nextCell e steps u b = Walk.foldUntil h.nextCell e steps u b := by
  have hnil : g.nil = h.nil := by
    obtain ⟨arena, rfl⟩ := hl.rest
    rfl
  induction steps generalizing u b with
  | zero => rfl
  | succ steps ih =>
    have hne : x ≠ u.cursor := fun he ↦ hu 0 (congrArg Except.ok he.symm)
    have hnext : g.nextCell u = h.nextCell u := by
      simp only [nextCell, hnil, readCell_congr (hl.get?_of_ne _ hne)]
    rw [Walk.foldUntil, Walk.foldUntil, hnext]
    split
    · rfl
    · rfl
    · next cell u' hcell =>
      obtain ⟨-, -, tail, htail, rfl⟩ := exists_of_nextCell hp hcell
      split
      · rfl
      · rfl
      · exact ih fun n hn ↦ hu (n + 1) ((along_cons htail n).trans hn)

end Leaves

/-- A field as a lens on the heap: what comes of writing a value to it. -/
structure Lens (h : Heap) (x : Handle) (f : Field) (v : Handle) (o : Outcome Unit) : Prop where
  ok_iff : o.1 = .ok () ↔ ∃ w, h.project x f = .ok w
  error_iff : ∀ failure, o.1 = .error failure ↔ h.project x f = .error failure
  refused : o.1 ≠ .ok () → o.2 = h
  project : o.1 = .ok () → o.2.project x f = .ok v
  project_of_ne : ∀ y k, (y, k) ≠ (x, f) → o.2.project y k = h.project y k
  rest : ∃ arena, o.2 = { h with arena := arena }
  isLive : ∀ y, o.2.isLive y = h.isLive y
  tagOf : ∀ y, o.2.tagOf y = h.tagOf y
  attributesOf : ∀ y, o.2.attributesOf y = h.attributesOf y
  /-- Attributes are found as before, unless the record is a cell of their list. -/
  lookup : ∀ y list, h.attributesOf y = .ok list → (∀ n, h.along .tail list n ≠ .ok x) →
    ∀ symbol, o.2.attributeBySymbol y symbol = h.attributeBySymbol y symbol
  vectorLength : ∀ y, o.2.vectorLength y = h.vectorLength y
  element : ∀ (k : Getter) y i, k.read o.2 y i = k.read h y i
  charBytes : ∀ y, o.2.charBytes y = h.charBytes y
  primitiveOffset : ∀ y, o.2.primitiveOffset y = h.primitiveOffset y
  restores : h.project x f = .ok v → o.2 = h
  overwrites : ∀ w, o.2.setField x f w = h.setField x f w

theorem lens_of_refused {failure : Failure} (hproject : h.project x f = .error failure) :
    Lens h x f v (.error failure, h) where
  ok_iff := iff_of_false nofun fun ⟨w, hw⟩ ↦ by cases hw.symm.trans hproject
  error_iff failure' := by rw [hproject, Except.error.injEq, Except.error.injEq]
  refused _ := rfl
  project := nofun
  project_of_ne _ _ _ := rfl
  rest := ⟨_, rfl⟩
  isLive _ := rfl
  tagOf _ := rfl
  attributesOf _ := rfl
  lookup _ _ _ _ _ := rfl
  vectorLength _ := rfl
  element _ _ _ := rfl
  charBytes _ := rfl
  primitiveOffset _ := rfl
  restores _ := rfl
  overwrites _ := rfl

theorem lens_put (hp : Proper h.arena) (hx : h.arena.get? x = some r)
    (hf : f.accepts r.tag = true) (hq : r.payload.setField? v f = some q) :
    Lens h x f v (.ok (), h.put x { r with payload := q }) := by
  have hl := leaves_put hp hx hf hq
  have hw := hp.wellFormed.get? hx
  have hproject := project_of_get? (f := f) hx hw
  have hsome : (r.payload.field? f).isSome = true := by
    rw [← Payload.isSome_setField? _ v, hq, Option.isSome_some]
  obtain ⟨old, hold⟩ := Option.isSome_iff_exists.mp hsome
  rw [hold] at hproject
  refine ⟨iff_of_true rfl ⟨old, hproject⟩, fun failure ↦ iff_of_false nofun ?_, absurd rfl,
    fun _ ↦ project_put hp hx hq, fun _ _ ↦ project_put_of_ne hp hx hq, hl.rest,
    fun y ↦ h.isLive_put x y _, hl.tagOf, hl.attributesOf, fun y list hlist hfar symbol ↦ ?_,
    hl.vectorLength, hl.read hp, hl.charBytes, hl.primitiveOffset hp, fun hv ↦ ?_, fun w ↦ ?_⟩
  · rw [hproject]
    exact nofun
  · rw [attributeBySymbol, attributeBySymbol, hl.attributesOf, hlist, ok_bind, ok_bind]
    exact hl.foldUntil hp hfar
  · have hsame : q = r.payload := by
      cases hproject.symm.trans hv
      exact Option.some.inj (hq.symm.trans (Payload.setField?_field? hold))
    rw [hsame]
    exact put_of_get? hx
  · have hw' := hl.proper.wellFormed.get? (get?_put hx)
    rcases setField_of_get? hx hw f w with ⟨-, q₁, hq₁, he₁⟩ | ⟨hno, -⟩
    · rcases setField_of_get? (get?_put hx) hw' f w with ⟨-, q₂, hq₂, he₂⟩ | ⟨hno, -⟩
      · have hsame : q₂ = q₁ := by
          rw [Payload.setField?_setField? hq, hq₁, Option.some_inj] at hq₂
          exact hq₂.symm
        rw [he₁, he₂, put_put, hsame]
      · cases hf.symm.trans hno
    · cases hf.symm.trans hno

/-- In every heap and for every value, each field is a lens: written where it is read, and refused
where it is not. -/
theorem Arises.setField_lens (ha : Arises h) (x : Handle) (f : Field) (v : Handle) :
    Lens h x f v (h.setField x f v) := by
  by_cases hlive : h.isLive x = true
  · obtain ⟨r, hr⟩ := get?_of_isLive hlive
    rcases setField_of_get? hr (ha.proper.wellFormed.get? hr) f v with ⟨hf, q, hq, he⟩ | ⟨hf, he⟩
    · rw [he]
      exact lens_put ha.proper hr hf hq
    · rw [he]
      exact lens_of_refused (project_of_unmet (tagOf_of_get? hr) hf)
  · rw [setField_of_not_isLive hlive]
    exact lens_of_refused (project_of_not_isLive hlive f)

/-- The tail of a call, which has the fields of a cell under another tag. -/
theorem setField_lens_of_call :
    let p := (create 0 1).call (create 0 1).nil (create 0 1).nil
    Arises p.2 ∧ Lens p.2 p.1 .tail p.1 (p.2.setField p.1 .tail p.1) ∧
      (p.2.setField p.1 .tail p.1).2.project p.1 .tail = .ok p.1 ∧
      (p.2.setField p.1 .frame p.1).1 = .error (.mismatch (.tag .environment) .language) := by
  intro p
  have ha : Arises p.2 := .run (.update (.call (create 0 1).nil (create 0 1).nil)) (.create 0 1)
    trivial
  have hl := Arises.setField_lens ha p.1 .tail p.1
  exact ⟨ha, hl, hl.project (by decide +kernel), by decide +kernel⟩

end Heap

end TaggedHeap
