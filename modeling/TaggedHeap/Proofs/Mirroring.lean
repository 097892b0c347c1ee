import TaggedHeap.Proofs.Twins
import TaggedHeap.Query

namespace TaggedHeap

variable {α α' β β' γ γ' : Type}

/-- Two outcomes are the same up to renaming; a result has the property and is taken to the other
by the function. -/
inductive Mirrors (σ : Handle → Handle) (p : α → Prop) (f : α → β) :
    Except Failure α → Except Failure β → Prop
  | ok {a : α} : p a → Mirrors σ p f (.ok a) (.ok (f a))
  | error (failure : Failure) : Mirrors σ p f (.error failure) (.error (failure.rename σ))

namespace Mirrors

variable {σ : Handle → Handle} {p : α → Prop} {q : β → Prop} {f : α → α'} {g : β → β'}
  {e : Except Failure α} {e' : Except Failure α'}

theorem bind {k : α → Except Failure β} {k' : α' → Except Failure β'} (he : Mirrors σ p f e e')
    (hk : ∀ a, p a → Mirrors σ q g (k a) (k' (f a))) : Mirrors σ q g (e >>= k) (e' >>= k') := by
  cases he with
  | ok ha => exact hk _ ha
  | error failure => exact .error failure

theorem map (he : Mirrors σ p f e e') {k : α → β} {k' : α' → β'} (hq : ∀ a, p a → q (k a))
    (hg : ∀ a, k' (f a) = g (k a)) : Mirrors σ q g (k <$> e) (k' <$> e') := by
  cases he with
  | @ok a ha =>
    have hk : Mirrors σ q g (.ok (k a)) (.ok (g (k a))) := .ok (hq a ha)
    rw [← hg] at hk
    exact hk
  | error failure => exact .error failure

theorem refusal {failure : Failure} (hf : failure.rename σ = failure) :
    Mirrors σ p f (.error failure) (.error failure) := by
  have h : Mirrors σ p f (.error failure) (.error (failure.rename σ)) := .error failure
  rwa [hf] at h

theorem same {a : α} (ha : p a) {b : α'} (hb : b = f a) : Mirrors σ p f (.ok a) (.ok b) :=
  hb ▸ .ok ha

theorem mapM {k : γ → Except Failure α} {k' : γ → Except Failure α'} (l : List γ)
    (hk : ∀ c ∈ l, Mirrors σ p f (k c) (k' c)) :
    Mirrors σ (fun as ↦ ∀ a ∈ as, p a) (List.map f) (l.mapM k) (l.mapM k') := by
  induction l with
  | nil => exact .ok nofun
  | cons c l ih =>
    obtain ⟨hc, hl⟩ := List.forall_mem_cons.mp hk
    rw [List.mapM_cons, List.mapM_cons]
    refine hc.bind fun a ha ↦ (ih hl).bind fun as has ↦ ?_
    exact .ok (List.forall_mem_cons.mpr ⟨ha, has⟩)

end Mirrors

abbrev Datum.Within (p : Handle → Prop) (d : Datum) : Prop :=
  ∀ x ∈ d.handles, p x

namespace Mirrors

variable {σ : Handle → Handle} {p : Handle → Prop}

theorem plain {e e' : Except Failure α} (he : Mirrors σ (fun _ ↦ True) id e e')
    {datum : α → Datum} (hd : ∀ a, (datum a).handles = [] ∧ (datum a).rename σ = datum a) :
    Mirrors σ (Datum.Within p) (Datum.rename σ) (datum <$> e) (datum <$> e') :=
  he.map (fun a _ x hx ↦ by simp [(hd a).1] at hx) fun a ↦ (hd a).2.symm

theorem plainOption {e e' : Except Failure (Option α)} (he : Mirrors σ (fun _ ↦ True) id e e')
    {datum : α → Datum} (hd : ∀ a, (datum a).handles = [] ∧ (datum a).rename σ = datum a) :
    Mirrors σ (Datum.Within p) (Datum.rename σ) (Datum.option datum <$> e)
      (Datum.option datum <$> e') :=
  he.plain fun a? ↦ by
    cases a? with
    | none => exact ⟨rfl, rfl⟩
    | some a => exact hd a

theorem handle {e e' : Except Failure Handle} (he : Mirrors σ p σ e e') :
    Mirrors σ (Datum.Within p) (Datum.rename σ) (Datum.handle <$> e) (Datum.handle <$> e') :=
  he.map (fun _ hx ↦ List.forall_mem_singleton.mpr hx) fun _ ↦ rfl

theorem handleOption {e e' : Except Failure (Option Handle)}
    (he : Mirrors σ (fun y ↦ ∀ z ∈ y, p z) (Option.map σ) e e') :
    Mirrors σ (Datum.Within p) (Datum.rename σ) (Datum.option .handle <$> e)
      (Datum.option .handle <$> e') := by
  refine he.map (fun y hy ↦ ?_) fun y ↦ ?_
  · cases y with
    | none => exact nofun
    | some x => exact List.forall_mem_singleton.mpr (hy x rfl)
  · cases y <;> rfl

end Mirrors

namespace Heap

open Arena

variable {h₁ h₂ : Heap} {x y : Handle} {P : List Handle} {σ : Equiv.Perm Handle}
  {A : Set (Handle × Handle)}

namespace Twin

section Reads

variable (ht : Twin A σ P h₁ h₂) (hx : h₁.Rooted P x)

include ht hx

theorem record : Mirrors σ (fun r ↦ ∀ y ∈ r.links, h₁.Rooted P y) (Record.rename σ)
    (h₁.record x) (h₂.record (σ x)) := by
  obtain ⟨r, hr, hr₂, hl⟩ := ht.exists_records hx
  rw [record_of_get? hr, record_of_get? hr₂]
  exact .ok hl

theorem tagOf : Mirrors σ (fun _ ↦ True) id (h₁.tagOf x) (h₂.tagOf (σ x)) :=
  (ht.record hx).bind fun _ _ ↦ .ok trivial

theorem attributesOf : Mirrors σ (h₁.Rooted P) σ (h₁.attributesOf x) (h₂.attributesOf (σ x)) :=
  (ht.record hx).bind fun _ hr ↦ .ok (hr _ List.mem_cons_self)

theorem raw (what : String) {part : Payload → Option α} {part' : Payload → Option β}
    {p : α → Prop} {f : α → β} (hp : ∀ q, part' (Payload.rename σ q) = (part q).map f)
    (ha : ∀ q a, part q = some a → (∀ y ∈ q.children, h₁.Rooted P y) → p a) :
    Mirrors σ p f (h₁.raw what x part) (h₂.raw what (σ x) part') := by
  obtain ⟨r, hr, hr₂, hl⟩ := ht.exists_records hx
  have hl : ∀ y ∈ r.payload.children, h₁.Rooted P y := fun y hy ↦
    hl y (List.mem_cons_of_mem _ hy)
  rw [raw_of_get? what hr, raw_of_get? what hr₂, Record.rename, hp]
  cases hq : part r.payload with
  | none => exact .error _
  | some a => exact .ok (ha _ a hq hl)

theorem rawPlain (what : String) {part : Payload → Option α}
    (hp : ∀ q, part (Payload.rename σ q) = part q) :
    Mirrors σ (fun _ ↦ True) id (h₁.raw what x part) (h₂.raw what (σ x) part) :=
  ht.raw hx what (fun q ↦ by rw [hp, Option.map_id_fun, id]) fun _ _ _ _ ↦ trivial

theorem rawHandle (what : String) {part : Payload → Option Handle}
    (hp : ∀ q, part (Payload.rename σ q) = (part q).map σ)
    (hc : ∀ q y, part q = some y → y ∈ q.children) :
    Mirrors σ (h₁.Rooted P) σ (h₁.raw what x part) (h₂.raw what (σ x) part) :=
  ht.raw hx what hp fun q y hy hq ↦ hq y (hc q y hy)

theorem expectTag (expected : TypeTag) :
    Mirrors σ (fun _ ↦ True) id (h₁.expectTag x expected) (h₂.expectTag (σ x) expected) := by
  refine (ht.tagOf hx).bind fun t _ ↦ ?_
  dsimp only [id]
  split
  · exact .ok trivial
  · exact .refusal rfl

theorem vectorLength :
    Mirrors σ (fun _ ↦ True) id (h₁.vectorLength x) (h₂.vectorLength (σ x)) := by
  refine (ht.tagOf hx).bind fun t _ ↦ ?_
  dsimp only [id]
  split
  · exact ht.rawPlain hx _ (Payload.length?_rename σ)
  · exact .refusal rfl

theorem project (f : Field) :
    Mirrors σ (h₁.Rooted P) σ (h₁.project x f) (h₂.project (σ x) f) := by
  refine (ht.tagOf hx).bind fun t _ ↦ ?_
  dsimp only [id]
  split
  · exact ht.rawHandle hx _ (fun q ↦ q.field?_rename σ f) fun q y hy ↦
      Payload.mem_children_iff.mpr (.inl ⟨f, hy⟩)
  · exact .refusal rfl

theorem charBytes : Mirrors σ (fun _ ↦ True) id (h₁.charBytes x) (h₂.charBytes (σ x)) :=
  (ht.expectTag hx .char).bind fun _ _ ↦ ht.rawPlain hx _ (Payload.bytes?_rename σ)

theorem charText : Mirrors σ (fun _ ↦ True) id (h₁.charText x) (h₂.charText (σ x)) := by
  refine (ht.charBytes hx).bind fun bytes _ ↦ ?_
  dsimp only [id]
  split
  · exact .ok trivial
  · exact .refusal rfl

theorem primitiveOffset :
    Mirrors σ (fun _ ↦ True) id (h₁.primitiveOffset x) (h₂.primitiveOffset (σ x)) := by
  refine (ht.record hx).bind fun r _ ↦ ?_
  rw [Record.rename]
  cases r.payload with
  | primitive offset => exact .ok trivial
  | _ => exact .refusal rfl

theorem checkElement (expected : Shape) (accepts : TypeTag → Bool) (i : Nat) :
    Mirrors σ (fun _ ↦ True) id (h₁.checkElement x expected accepts i)
      (h₂.checkElement (σ x) expected accepts i) := by
  refine (ht.tagOf hx).bind fun t _ ↦ ?_
  dsimp only [id]
  split
  · refine (ht.rawPlain hx "length" (Payload.length?_rename σ)).bind fun length _ ↦ ?_
    dsimp only [id]
    split
    · exact .ok trivial
    · exact .refusal rfl
  · exact .refusal rfl

theorem getRawLogical (i : Nat) :
    Mirrors σ (fun _ ↦ True) id (h₁.getRawLogical x i) (h₂.getRawLogical (σ x) i) :=
  (ht.checkElement hx _ _ i).bind fun _ _ ↦ ht.rawPlain hx _ fun q ↦ q.logical?_rename σ i

theorem getInteger (i : Nat) :
    Mirrors σ (fun _ ↦ True) id (h₁.getInteger x i) (h₂.getInteger (σ x) i) :=
  (ht.checkElement hx _ _ i).bind fun _ _ ↦ ht.rawPlain hx _ fun q ↦ q.integer?_rename σ i

theorem getReal (i : Nat) :
    Mirrors σ (fun _ ↦ True) id (h₁.getReal x i) (h₂.getReal (σ x) i) :=
  (ht.checkElement hx _ _ i).bind fun _ _ ↦ ht.rawPlain hx _ fun q ↦ q.real?_rename σ i

theorem getChar (i : Nat) :
    Mirrors σ (h₁.Rooted P) σ (h₁.getChar x i) (h₂.getChar (σ x) i) :=
  (ht.checkElement hx _ _ i).bind fun _ _ ↦
    ht.rawHandle hx _ (fun q ↦ q.string?_rename σ i) fun _ _ hy ↦
      Payload.mem_children_iff.mpr (.inr (.inl ⟨i, hy⟩))

theorem getValue (i : Nat) :
    Mirrors σ (h₁.Rooted P) σ (h₁.getValue x i) (h₂.getValue (σ x) i) :=
  (ht.checkElement hx _ _ i).bind fun _ _ ↦
    ht.rawHandle hx _ (fun q ↦ q.value?_rename σ i) fun _ _ hy ↦
      Payload.mem_children_iff.mpr (.inr (.inr ⟨i, hy⟩))

theorem symbolText : Mirrors σ (fun _ ↦ True) id (h₁.symbolText x) (h₂.symbolText (σ x)) :=
  (ht.project hx .printName).bind fun _ hy ↦ ht.charText hy

end Reads

variable (ht : Twin A σ P h₁ h₂)

include ht

/-- The missing string is the same one in both heaps, so whether an element is present is too. -/
theorem decodeString :
    Missing.decodeString (σ x) h₂.missingString =
      (Missing.decodeString x h₁.missingString).map σ := by
  unfold Missing.decodeString
  by_cases hm : x = h₁.missingString
  · rw [if_pos hm, if_pos (ht.eq_missing_iff.mpr hm), Option.map_none]
  · rw [if_neg hm, if_neg fun he ↦ hm (ht.eq_missing_iff.mp he), Option.map_some]

theorem getText? (hx : h₁.Rooted P x) (i : Nat) :
    Mirrors σ (fun _ ↦ True) id (h₁.getText? x i) (h₂.getText? (σ x) i) := by
  refine (ht.getChar hx i).bind fun char hc ↦ ?_
  rw [ht.decodeString]
  unfold Missing.decodeString
  by_cases hm : char = h₁.missingString
  · rw [if_pos hm]
    exact .ok trivial
  · rw [if_neg hm]
    exact (ht.charText hc).map (fun _ _ ↦ trivial) fun _ ↦ rfl

theorem getBytes? (hx : h₁.Rooted P x) (i : Nat) :
    Mirrors σ (fun _ ↦ True) id (h₁.getBytes? x i) (h₂.getBytes? (σ x) i) := by
  refine (ht.getChar hx i).bind fun char hc ↦ ?_
  rw [ht.decodeString]
  unfold Missing.decodeString
  by_cases hm : char = h₁.missingString
  · rw [if_pos hm]
    exact .ok trivial
  · rw [if_neg hm]
    exact (ht.charBytes hc).map (fun _ _ ↦ trivial) fun _ ↦ rfl

end Twin

end Heap

/-- Two steps of a walk yield the same up to renaming, and go on to the same place. -/
inductive MirrorsStep (σ : Handle → Handle) (place : Handle → Prop) (p : α → Prop) (f : α → β) :
    Step α → Step β → Prop
  | stop {w : Walk} : place w.cursor → MirrorsStep σ place p f (none, w) (none, w.rename σ)
  | yield {e : Except Failure α} {e' : Except Failure β} {w : Walk} :
      Mirrors σ p f e e' → place w.cursor →
      MirrorsStep σ place p f (some e, w) (some e', w.rename σ)

theorem MirrorsStep.isSome_eq {σ : Handle → Handle} {place : Handle → Prop} {p : α → Prop}
    {f : α → β} {s : Step α} {s' : Step β} (h : MirrorsStep σ place p f s s') :
    s'.1.isSome = s.1.isSome := by
  cases h <;> rfl

section Walks

variable {σ : Handle → Handle} {place : Handle → Prop} {p : α → Prop} {f : α → α'}
  {next : Walk → Step α} {next' : Walk → Step α'}
  (hn : ∀ w, place w.cursor → MirrorsStep σ place p f (next w) (next' (w.rename σ)))

include hn

theorem mirrors_foldUntil {q : β → Prop} {g : β → β'} {k : β → α → Except Failure (β ⊕ β)}
    {k' : β' → α' → Except Failure (β' ⊕ β')}
    (hk : ∀ b a, q b → p a → Mirrors σ (Sum.elim q q) (Sum.map g g) (k b a) (k' (g b) (f a)))
    (steps : Nat) {w : Walk} (hw : place w.cursor) {b : β} (hb : q b) :
    Mirrors σ q g (Walk.foldUntil next k steps w b)
      (Walk.foldUntil next' k' steps (w.rename σ) (g b)) := by
  induction steps generalizing w b with
  | zero => exact .ok hb
  | succ steps ih =>
    unfold Walk.foldUntil
    have hstep := hn w hw
    revert hstep
    generalize next w = s
    generalize next' (w.rename σ) = s'
    intro hstep
    cases hstep with
    | stop _ => exact .ok hb
    | yield he hw =>
      cases he with
      | error failure => exact .error failure
      | @ok a ha =>
        have hka := hk b a hb ha
        revert hka
        dsimp only
        generalize k b a = e
        generalize k' (g b) (f a) = e'
        intro hka
        cases hka with
        | error failure => exact .error failure
        | @ok c hc =>
          cases c with
          | inl c => exact .ok hc
          | inr c => exact ih hw hc

theorem mirrors_trailFrom (steps : Nat) {w : Walk} (hw : place w.cursor) (items : List α)
    (hi : ∀ a ∈ items, p a) :
    place (Walk.trailFrom next steps w items).2.cursor ∧
      (∀ a ∈ (Walk.trailFrom next steps w items).1.items, p a) ∧
      Walk.trailFrom next' steps (w.rename σ) (items.map f) =
        (⟨(Walk.trailFrom next steps w items).1.items.map f,
          (Walk.trailFrom next steps w items).1.failure.map (Failure.rename σ)⟩,
          (Walk.trailFrom next steps w items).2.rename σ) := by
  induction steps generalizing w items with
  | zero =>
    refine ⟨hw, fun a ha ↦ hi a (List.mem_reverse.mp ha), ?_⟩
    rw [Walk.trailFrom, Walk.trailFrom, List.map_reverse]
    rfl
  | succ steps ih =>
    unfold Walk.trailFrom
    have hstep := hn w hw
    revert hstep
    generalize next w = s
    generalize next' (w.rename σ) = s'
    intro hstep
    cases hstep with
    | stop hw =>
      refine ⟨hw, fun a ha ↦ hi a (List.mem_reverse.mp ha), ?_⟩
      simp
    | yield he hw =>
      cases he with
      | error failure =>
        refine ⟨hw, fun a ha ↦ hi a (List.mem_reverse.mp ha), ?_⟩
        simp
      | @ok a ha => exact ih hw _ (List.forall_mem_cons.mpr ⟨ha, hi⟩)

end Walks

namespace Heap.Twin

open Arena

variable {h₁ h₂ : Heap} {x : Handle} {P : List Handle} {σ : Equiv.Perm Handle}
  {A : Set (Handle × Handle)} (ht : Twin A σ P h₁ h₂)

include ht

theorem readCell (hx : h₁.Rooted P x) :
    Mirrors σ (fun c ↦ h₁.Rooted P c.1 ∧ h₁.Rooted P c.2.1 ∧ h₁.Rooted P c.2.2)
      (fun c ↦ (σ c.1, σ c.2.1, σ c.2.2)) (h₁.readCell x) (h₂.readCell (σ x)) := by
  refine (ht.tagOf hx).bind fun t _ ↦ ?_
  dsimp only [id]
  split
  · refine ht.raw hx _ (Payload.cell?_rename σ) fun q c hc hq ↦ ?_
    cases q <;> cases hc
    exact ⟨hq _ (by simp [Payload.children]), hq _ (by simp [Payload.children]),
      hq _ (by simp [Payload.children])⟩
  · exact .refusal rfl

theorem nextCell (w : Walk) (hw : h₁.Rooted P w.cursor) :
    MirrorsStep σ (h₁.Rooted P) (fun c ↦ h₁.Rooted P c.1 ∧ h₁.Rooted P c.2)
      (fun c ↦ (σ c.1, σ c.2)) (h₁.nextCell w) (h₂.nextCell (w.rename σ)) := by
  obtain ⟨cursor, walked, limit, finished⟩ := w
  change h₁.Rooted P cursor at hw
  have hc := ht.readCell hw
  simp only [Heap.nextCell, Walk.rename]
  cases finished with
  | true => exact .stop (w := ⟨cursor, walked, limit, true⟩) hw
  | false =>
    simp only [Bool.false_eq_true, if_false, ht.eq_nil_iff]
    by_cases hx : cursor = h₁.nil
    · simp only [hx, if_true]
      exact .stop (w := ⟨h₁.nil, walked, limit, true⟩) ht.rooted_nil
    by_cases hl : limit ≤ walked
    · simp only [hx, hl, if_true, if_false]
      exact .yield (w := ⟨cursor, walked, limit, true⟩) (.refusal rfl) hw
    · simp only [hx, hl, if_false]
      revert hc
      generalize h₁.readCell cursor = e
      generalize h₂.readCell (σ cursor) = e'
      intro hc
      cases hc with
      | @ok c hc =>
        exact .yield (w := ⟨c.2.2, walked + 1, limit, false⟩) (.ok ⟨hc.1, hc.2.1⟩) hc.2.2
      | error failure => exact .yield (w := ⟨cursor, walked, limit, true⟩) (.error failure) hw

theorem nextEnclosing (w : Walk) (hw : h₁.Rooted P w.cursor) :
    MirrorsStep σ (h₁.Rooted P) (h₁.Rooted P) σ (h₁.nextEnclosing w)
      (h₂.nextEnclosing (w.rename σ)) := by
  obtain ⟨cursor, walked, limit, finished⟩ := w
  change h₁.Rooted P cursor at hw
  have hp := ht.project hw .enclosing
  simp only [Heap.nextEnclosing, Walk.rename]
  cases finished with
  | true => exact .stop (w := ⟨cursor, walked, limit, true⟩) hw
  | false =>
    simp only [Bool.false_eq_true, if_false]
    revert hp
    generalize h₁.project cursor .enclosing = e
    generalize h₂.project (σ cursor) .enclosing = e'
    intro hp
    cases hp with
    | @ok parent hparent =>
      simp only [ht.eq_nil_iff]
      by_cases hx : parent = h₁.nil
      · simp only [hx, if_true]
        exact .stop (w := ⟨cursor, walked, limit, true⟩) hw
      by_cases hl : limit ≤ walked
      · simp only [hx, hl, if_true, if_false]
        exact .yield (w := ⟨cursor, walked, limit, true⟩) (.refusal rfl) hw
      · simp only [hx, hl, if_false]
        exact .yield (w := ⟨parent, walked + 1, limit, false⟩) (.ok hparent) hparent
    | error failure => exact .yield (w := ⟨cursor, walked, limit, true⟩) (.error failure) hw

theorem findHead {test test' : Handle → Except Failure Bool}
    (htest : ∀ x, h₁.Rooted P x → Mirrors σ (fun _ ↦ True) id (test x) (test' (σ x)))
    (hx : h₁.Rooted P x) :
    Mirrors σ (fun y ↦ ∀ z ∈ y, h₁.Rooted P z) (Option.map σ) (h₁.findHead test x)
      (h₂.findHead test' (σ x)) := by
  have hnone : ∀ z ∈ (none : Option Handle), h₁.Rooted P z := nofun
  unfold Heap.findHead
  refine mirrors_foldUntil ht.nextCell (fun b c _ hc ↦ ?_) _
    (q := fun y ↦ ∀ z ∈ y, h₁.Rooted P z) (w := Walk.start x Walk.defaultLimit) hx hnone
    (g := Option.map σ)
  refine (htest c.1 hc.1).bind fun hit _ ↦ ?_
  cases hit with
  | true => exact .same (a := Sum.inl (some c.2)) (fun z hz ↦ Option.some.inj hz ▸ hc.2) rfl
  | false => exact .same (a := Sum.inr none) hnone rfl

theorem attributeBySymbol {symbol : Handle} (hx : h₁.Rooted P x) :
    Mirrors σ (fun y ↦ ∀ z ∈ y, h₁.Rooted P z) (Option.map σ) (h₁.attributeBySymbol x symbol)
      (h₂.attributeBySymbol (σ x) (σ symbol)) := by
  refine (ht.attributesOf hx).bind fun attributes ha ↦ ht.findHead (fun tag _ ↦ ?_) ha
  refine .same trivial ?_
  rw [id, Bool.eq_iff_iff, beq_iff_eq, beq_iff_eq, σ.injective.eq_iff]

theorem attributeByName (hx : h₁.Rooted P x) (name : String) :
    Mirrors σ (fun y ↦ ∀ z ∈ y, h₁.Rooted P z) (Option.map σ) (h₁.attributeByName x name)
      (h₂.attributeByName (σ x) name) := by
  refine (ht.attributesOf hx).bind fun attributes ha ↦ ht.findHead (fun tag htag ↦ ?_) ha
  by_cases hn : tag = h₁.nil
  · rw [if_pos hn, if_pos (ht.eq_nil_iff.mpr hn)]
    exact .ok trivial
  · rw [if_neg hn, if_neg fun he ↦ hn (ht.eq_nil_iff.mp he)]
    exact (ht.symbolText htag).map (fun _ _ ↦ trivial) fun _ ↦ rfl

theorem tagNames (hx : h₁.Rooted P x) :
    Mirrors σ (fun _ ↦ True) id (h₁.tagNames x) (h₂.tagNames (σ x)) := by
  refine Mirrors.map (p := fun _ ↦ True) (f := id) ?_ (fun _ _ ↦ trivial) fun _ ↦ rfl
  refine mirrors_foldUntil ht.nextCell (fun names c _ hc ↦ ?_) _
    (w := Walk.start x Walk.defaultLimit) hx trivial
  exact (ht.symbolText hc.1).bind fun name _ ↦
    .same (a := Sum.inr (name :: names)) trivial rfl

theorem extents (hx : h₁.Rooted P x) :
    Mirrors σ (fun _ ↦ True) id (h₁.extents x) (h₂.extents (σ x)) := by
  unfold Heap.extents
  rw [ht.dimSymbol]
  refine (ht.attributeBySymbol hx).bind fun dim? hdim ↦ ?_
  cases dim? with
  | none => exact .ok trivial
  | some dim =>
    have hd := hdim dim rfl
    refine (ht.tagOf hd).bind fun t _ ↦ ?_
    dsimp only [id]
    split
    · refine (ht.rawPlain hd "length" (Payload.length?_rename σ)).bind fun length _ ↦ ?_
      refine (Mirrors.mapM (p := fun _ ↦ True) (f := id) _ fun i _ ↦
        ht.rawPlain hd _ fun q ↦ q.integer?_rename σ i).bind fun numbers _ ↦ ?_
      rw [List.map_id]
      refine (Mirrors.mapM (p := fun _ ↦ True) (f := id) _ fun n _ ↦ ?_).bind fun extents _ ↦ ?_
      · unfold extent
        split
        · exact .refusal rfl
        · exact .ok trivial
      · rw [List.map_id]
        exact .ok trivial
    · exact .refusal rfl

theorem dimensions (hx : h₁.Rooted P x) :
    Mirrors σ (fun _ ↦ True) id (h₁.dimensions x) (h₂.dimensions (σ x)) := by
  refine (ht.vectorLength hx).bind fun length _ ↦ (ht.extents hx).bind fun extents _ ↦ ?_
  dsimp only [id]
  split
  · exact .ok trivial
  · split
    · exact .ok trivial
    · exact .refusal rfl
  · exact .refusal rfl

theorem nrows (hx : h₁.Rooted P x) :
    Mirrors σ (fun _ ↦ True) id (h₁.nrows x) (h₂.nrows (σ x)) := by
  refine (ht.vectorLength hx).bind fun length _ ↦ (ht.extents hx).bind fun extents _ ↦ ?_
  dsimp only [id]
  split
  · exact .ok trivial
  · exact .ok trivial
  · exact .refusal rfl

theorem matrixOffset (hx : h₁.Rooted P x) (row column : Nat) :
    Mirrors σ (fun _ ↦ True) id (h₁.matrixOffset x row column)
      (h₂.matrixOffset (σ x) row column) := by
  refine (ht.vectorLength hx).bind fun length _ ↦ (ht.nrows hx).bind fun nrow _ ↦ ?_
  simp only [id_eq, filledColumns_eq, ok_bind]
  split
  · exact .ok trivial
  · exact .refusal rfl

theorem bucketNames (hx : h₁.Rooted P x) :
    Mirrors σ (fun _ ↦ True) id (h₁.bucketNames x) (h₂.bucketNames (σ x)) := by
  refine (ht.project hx .hashTable).bind fun table htable ↦
    (ht.vectorLength htable).bind fun size _ ↦ ?_
  refine (Mirrors.mapM (p := fun _ ↦ True) (f := id) _ fun i _ ↦ ?_).bind fun buckets _ ↦ ?_
  · refine (ht.getValue htable i).bind fun bucket hb ↦ ?_
    by_cases hn : bucket = h₁.nil
    · rw [if_pos hn, if_pos (ht.eq_nil_iff.mpr hn)]
      exact .ok trivial
    · rw [if_neg hn, if_neg fun he ↦ hn (ht.eq_nil_iff.mp he)]
      exact (ht.tagNames hb).bind fun names _ ↦ .ok trivial
  · rw [List.map_id]
    exact .ok trivial

theorem read (hx : h₁.Rooted P x) (offset : Nat) (g : Getter) :
    Mirrors σ (Datum.Within (h₁.Rooted P)) (Datum.rename σ) (g.read h₁ x offset)
      (g.read h₂ (σ x) offset) := by
  have hl := ht.getRawLogical hx offset
  have hi := ht.getInteger hx offset
  have hr := ht.getReal hx offset
  have hc := ht.getChar hx offset
  cases g with
  | rawLogical => exact .plain hl fun _ ↦ ⟨rfl, rfl⟩
  | logical =>
    have hb : Mirrors σ (fun _ ↦ True) id (h₁.getLogical x offset) (h₂.getLogical (σ x) offset) :=
      hl.bind fun _ _ ↦ .ok trivial
    exact hb.plain fun _ ↦ ⟨rfl, rfl⟩
  | logicalOption => exact .plainOption (hl.bind fun _ _ ↦ .ok trivial) fun _ ↦ ⟨rfl, rfl⟩
  | integer => exact .plain hi fun _ ↦ ⟨rfl, rfl⟩
  | integerOption => exact .plainOption (hi.bind fun _ _ ↦ .ok trivial) fun _ ↦ ⟨rfl, rfl⟩
  | real => exact .plain hr fun _ ↦ ⟨rfl, rfl⟩
  | realOption => exact .plainOption (hr.bind fun _ _ ↦ .ok trivial) fun _ ↦ ⟨rfl, rfl⟩
  | char => exact .handle hc
  | text => exact .plain (hc.bind fun _ hy ↦ ht.charText hy) fun _ ↦ ⟨rfl, rfl⟩
  | textOption => exact .plainOption (ht.getText? hx offset) fun _ ↦ ⟨rfl, rfl⟩
  | bytes => exact .plain (hc.bind fun _ hy ↦ ht.charBytes hy) fun _ ↦ ⟨rfl, rfl⟩
  | bytesOption => exact .plainOption (ht.getBytes? hx offset) fun _ ↦ ⟨rfl, rfl⟩
  | value => exact .handle (ht.getValue hx offset)

theorem cells (w : Walk) (hw : h₁.Rooted P w.cursor) :
    Mirrors σ (Datum.Within (h₁.Rooted P)) (Datum.rename σ) ((Query.cells w).answer h₁)
      ((Query.cells (w.rename σ)).answer h₂) := by
  obtain ⟨hplace, hitems, he⟩ := mirrors_trailFrom ht.nextCell w.bound hw [] nofun
  have hmore := (ht.nextCell _ hplace).isSome_eq
  refine .same (a := Datum.cells (w.trail h₁.nextCell).1
    (h₁.nextCell (w.trail h₁.nextCell).2).1.isSome) (fun x hx ↦ ?_) ?_
  · obtain ⟨c, hc, hx⟩ := List.mem_flatMap.mp hx
    rcases List.mem_pair.mp hx with rfl | rfl
    · exact (hitems c hc).1
    · exact (hitems c hc).2
  · change Datum.cells (Walk.trailFrom h₂.nextCell w.bound (w.rename σ) []).1
      (h₂.nextCell (Walk.trailFrom h₂.nextCell w.bound (w.rename σ) []).2).1.isSome = _
    rw [List.map_nil] at he
    rw [he, hmore]
    rfl

theorem enclosing (w : Walk) (hw : h₁.Rooted P w.cursor) :
    Mirrors σ (Datum.Within (h₁.Rooted P)) (Datum.rename σ) ((Query.enclosing w).answer h₁)
      ((Query.enclosing (w.rename σ)).answer h₂) := by
  obtain ⟨hplace, hitems, he⟩ := mirrors_trailFrom ht.nextEnclosing w.bound hw [] nofun
  have hmore := (ht.nextEnclosing _ hplace).isSome_eq
  refine .same (a := Datum.environments (w.trail h₁.nextEnclosing).1
    (h₁.nextEnclosing (w.trail h₁.nextEnclosing).2).1.isSome) hitems ?_
  change Datum.environments (Walk.trailFrom h₂.nextEnclosing w.bound (w.rename σ) []).1
    (h₂.nextEnclosing (Walk.trailFrom h₂.nextEnclosing w.bound (w.rename σ) []).2).1.isSome = _
  rw [List.map_nil] at he
  rw [he, hmore]
  rfl

theorem answer (q : Query) (hq : ∀ x ∈ q.handles, h₁.Rooted P x) :
    Mirrors σ (Datum.Within (h₁.Rooted P)) (Datum.rename σ) (q.answer h₁)
      ((q.rename σ).answer h₂) := by
  cases q with
  | isLive x =>
    have hx := hq x List.mem_cons_self
    refine .same (a := Datum.truth (h₁.isLive x)) nofun ?_
    rw [(ht.rooted hx).isLive, hx.isLive]
    rfl
  | isNil x =>
    refine .same (a := Datum.truth (h₁.isNil x)) nofun (congrArg Datum.truth ?_)
    rw [Bool.eq_iff_iff, Heap.isNil, Heap.isNil, beq_iff_eq, beq_iff_eq]
    exact ht.eq_nil_iff
  | tagOf x => exact .plain (ht.tagOf (hq x List.mem_cons_self)) fun _ ↦ ⟨rfl, rfl⟩
  | expectTag x expected =>
    exact .plain (ht.expectTag (hq x List.mem_cons_self) expected) fun _ ↦ ⟨rfl, rfl⟩
  | attributesOf x => exact .handle (ht.attributesOf (hq x List.mem_cons_self))
  | attributeBySymbol x symbol =>
    exact .handleOption (ht.attributeBySymbol (hq x List.mem_cons_self))
  | attributeByName x name =>
    exact .handleOption (ht.attributeByName (hq x List.mem_cons_self) name)
  | vectorLength x => exact .plain (ht.vectorLength (hq x List.mem_cons_self)) fun _ ↦ ⟨rfl, rfl⟩
  | nrows x => exact .plain (ht.nrows (hq x List.mem_cons_self)) fun _ ↦ ⟨rfl, rfl⟩
  | dimensions x =>
    exact .plainOption (ht.dimensions (hq x List.mem_cons_self)) fun _ ↦ ⟨rfl, rfl⟩
  | charBytes x => exact .plain (ht.charBytes (hq x List.mem_cons_self)) fun _ ↦ ⟨rfl, rfl⟩
  | charText x => exact .plain (ht.charText (hq x List.mem_cons_self)) fun _ ↦ ⟨rfl, rfl⟩
  | symbolText x => exact .plain (ht.symbolText (hq x List.mem_cons_self)) fun _ ↦ ⟨rfl, rfl⟩
  | primitiveOffset x =>
    exact .plain (ht.primitiveOffset (hq x List.mem_cons_self)) fun _ ↦ ⟨rfl, rfl⟩
  | project x f => exact .handle (ht.project (hq x List.mem_cons_self) f)
  | element g x offset => exact ht.read (hq x List.mem_cons_self) offset g
  | matrixOffset x row column =>
    exact .plain (ht.matrixOffset (hq x List.mem_cons_self) row column) fun _ ↦ ⟨rfl, rfl⟩
  | matrixElement g x row column =>
    have hx := hq x List.mem_cons_self
    exact (ht.matrixOffset hx row column).bind fun offset _ ↦ ht.read hx offset g
  | bucketNames x => exact .plain (ht.bucketNames (hq x List.mem_cons_self)) fun _ ↦ ⟨rfl, rfl⟩
  | cells w => exact ht.cells w (hq _ List.mem_cons_self)
  | enclosing w => exact ht.enclosing w (hq _ List.mem_cons_self)

end Heap.Twin

end TaggedHeap
