import TaggedHeap.Proofs.Agreement
import TaggedHeap.Proofs.Founding
import TaggedHeap.Proofs.Collection

namespace TaggedHeap

open Arena

namespace Action

/-- Both heaps tell the same of an action, but for the number of records that a collection frees. -/
def SameOutcome (f : Handle → Handle) (e₁ e₂ : Except Failure Datum) : Action → Prop
  | request (.update .collect) => ∃ n₁ n₂, e₁ = .ok (.natural n₁) ∧ e₂ = .ok (.natural n₂)
  | _ => e₂ = renameOutcome f e₁

theorem sameOutcome_of_eq {f : Handle → Handle} {e₁ e₂ : Except Failure Datum} {a : Action}
    (ha : a ≠ request (.update .collect)) (he : e₂ = renameOutcome f e₁) :
    a.SameOutcome f e₁ e₂ := by
  unfold SameOutcome
  split
  · exact absurd rfl ha
  · exact he

theorem SameOutcome.handlesOf_eq {f : Handle → Handle} {e₁ e₂ : Except Failure Datum}
    {a : Action} (hs : a.SameOutcome f e₁ e₂) : handlesOf e₂ = (handlesOf e₁).map f := by
  unfold SameOutcome at hs
  split at hs
  · obtain ⟨n₁, n₂, rfl, rfl⟩ := hs
    rfl
  · rw [hs, handlesOf_renameOutcome]

/-- A program uses what reads lead to from the roots, and for an action that stores no records also
what the action before has handed out. -/
def WellRooted (h : Heap) (fresh : List Handle) : List Action → Prop
  | [] => True
  | a :: program =>
    (∀ x ∈ a.handles, h.Reach [] x ∨ a.NeverAllocates ∧ x ∈ fresh) ∧
      WellRooted (a.run h).2 (handlesOf (a.run h).1) program

/-- The interned text that an action sets attributes on, other than the missing string. -/
def adorns (h : Heap) (a : Action) : Set Handle :=
  {x | a.adorned? = some x ∧ h.tagOf x = .ok .char ∧ x ≠ h.missingString}

/-- The roots always lead to the interned text that a program has set attributes on. -/
def KeepsText (h : Heap) (adorned : Set Handle) : List Action → Prop
  | [] => True
  | a :: program =>
    (∀ x ∈ adorned ∪ a.adorns h, (a.run h).2.Reach [] x) ∧
      KeepsText (a.run h).2 (adorned ∪ a.adorns h) program

theorem KeepsText.cons {h : Heap} {K : Set Handle} {a : Action} {program : List Action}
    (ha : a.adorned? = none) (hK : ∀ x ∈ K, (a.run h).2.Reach [] x)
    (hs : KeepsText (a.run h).2 K program) : KeepsText h K (a :: program) := by
  have he : K ∪ a.adorns h = K := by simp [adorns, ha]
  rw [KeepsText, he]
  exact ⟨hK, hs⟩

end Action

def renameStep {α : Type} (f : Handle → Handle) (g : α → α) (s : Step α) : Step α :=
  (s.1.map fun e ↦ (g <$> e).mapError (Failure.rename f), s.2.rename f)

theorem Mirrors.eq_rename {α β : Type} {σ : Handle → Handle} {p : α → Prop} {f : α → β}
    {e : Except Failure α} {e' : Except Failure β} (he : Mirrors σ p f e e') :
    e' = (f <$> e).mapError (Failure.rename σ) := by
  cases he <;> rfl

theorem MirrorsStep.eq_renameStep {α : Type} {σ : Handle → Handle} {place : Handle → Prop}
    {p : α → Prop} {f : α → α} {s s' : Step α} (hs : MirrorsStep σ place p f s s') :
    s' = renameStep σ f s := by
  cases hs with
  | stop _ => rfl
  | yield he _ => rw [he.eq_rename]; rfl

namespace Heap

variable {h h₁ h₂ : Heap} {x y : Handle} {P fresh : List Handle} {σ σ' : Equiv.Perm Handle}
  {K : Set Handle} {A : Set (Handle × Handle)}

/-- The renaming takes what reads lead to in the one heap to what they lead to in the other. The
roots are the same, and so is every step of a walk. -/
structure Corresponds (σ : Equiv.Perm Handle) (fresh : List Handle) (h₁ h₂ : Heap) : Prop
    extends Labelled σ h₁ h₂ where
  reach_iff : ∀ x, h₂.Reach [] (σ x) ↔ h₁.Reach [] x
  nextCell_eq : ∀ w : Walk, h₁.Reach [] w.cursor ∨ w.cursor ∈ fresh →
    h₂.nextCell (w.rename σ) = renameStep σ (fun c ↦ (σ c.1, σ c.2)) (h₁.nextCell w)
  nextEnclosing_eq : ∀ w : Walk, h₁.Reach [] w.cursor ∨ w.cursor ∈ fresh →
    h₂.nextEnclosing (w.rename σ) = renameStep σ σ (h₁.nextEnclosing w)

/-- A program runs alike in two heaps: at every action the renaming is extended to what is new, and
the outcomes and the heaps correspond. -/
def Indistinguishable (σ : Equiv.Perm Handle) (h₁ h₂ : Heap) : List Action → Prop
  | [] => True
  | a :: program =>
    let o₁ := a.run h₁
    let o₂ := (a.rename σ).run h₂
    Numbered o₁.2.arena → Numbered o₂.2.arena →
      ∃ σ', (∀ x, h₁.Reach [] x → σ' x = σ x) ∧ (a.NeverAllocates → σ' = σ) ∧
        a.SameOutcome σ' o₁.1 o₂.1 ∧ Corresponds σ' (handlesOf o₁.1) o₁.2 o₂.2 ∧
        Indistinguishable σ' o₁.2 o₂.2 program

theorem reach_of_mem (hx : x ∈ h.rootHandles []) (hl : h.isLive x = true) : h.Reach [] x :=
  .root (mem_rootHandles.mp hx) hl

theorem Indistinguishable.step {a : Action} {program : List Action}
    (hi : Indistinguishable σ h₁ h₂ (a :: program)) (b : Action) (hb : a.rename σ = b)
    (hn₁ : Numbered (a.run h₁).2.arena) (hn₂ : Numbered (b.run h₂).2.arena) :
    ∃ σ', (a.NeverAllocates → σ' = σ) ∧
      handlesOf (b.run h₂).1 = (handlesOf (a.run h₁).1).map σ' ∧
      Corresponds σ' (handlesOf (a.run h₁).1) (a.run h₁).2 (b.run h₂).2 ∧
      Indistinguishable σ' (a.run h₁).2 (b.run h₂).2 program := by
  subst hb
  obtain ⟨σ', -, hq, he, hi⟩ := hi hn₁ hn₂
  exact ⟨σ', hq, he.handlesOf_eq, hi⟩

theorem Indistinguishable.quiet {a : Action} {program : List Action}
    (hi : Indistinguishable σ h₁ h₂ (a :: program)) (ha : a.NeverAllocates) (b : Action)
    (hb : a.rename σ = b) (hn₁ : Numbered (a.run h₁).2.arena)
    (hn₂ : Numbered (b.run h₂).2.arena) :
    Indistinguishable σ (a.run h₁).2 (b.run h₂).2 program := by
  obtain ⟨σ', hq, -, -, hi⟩ := hi.step b hb hn₁ hn₂
  exact hq ha ▸ hi

theorem Adornable.of_tagOf (hw : All Record.WellFormed h.arena)
    (ha : h.tagOf x = .ok .char → Expects A σ h x) : Adornable A σ h x := by
  rintro bytes ⟨r, hr, hp⟩
  refine ha ?_
  have hf := hw.get? hr
  rw [Record.WellFormed, hp] at hf
  rw [tagOf_of_get? hr, eq_of_beq hf]

theorem Retains.graphOn_eq (hk : Retains (K.graphOn σ) σ h)
    (hagree : ∀ x, h.Rooted [] x → σ' x = σ x) : K.graphOn σ' = K.graphOn σ :=
  Set.image_congr fun x hx ↦
    congrArg (Prod.mk x) (hagree x (hk (x, σ x) (Set.mem_image_of_mem _ hx)).1)

namespace Twin

theorem reach_iff (ht : Twin A σ P h₁ h₂) : h₁.Reach P x ↔ h₁.Rooted P x :=
  Heap.reach_iff ht.left.proper.wellFormed

theorem corresponds (ht : Twin A σ P h₁ h₂) : Corresponds σ P h₁ h₂ := by
  have hn := ht.narrow (Q := []) nofun
  have hrooted {x : Handle} (hx : h₁.Reach [] x ∨ x ∈ P) : h₁.Rooted P x :=
    hx.elim (fun hx ↦ (hn.reach_iff.mp hx).pending (List.nil_subset P)) ht.rooted_pending
  refine ⟨ht.toLabelled, fun x ↦ ?_, fun w hw ↦ ?_, fun w hw ↦ ?_⟩
  · rw [hn.reach_iff, Heap.reach_iff hn.right.proper.wellFormed]
    exact hn.rooted_iff
  · exact (ht.nextCell w (hrooted hw)).eq_renameStep
  · exact (ht.nextEnclosing w (hrooted hw)).eq_renameStep

theorem adorn (ht : Twin (K.graphOn σ) σ P h₁ h₂) (a : Action) :
    Twin ((K ∪ a.adorns h₁).graphOn σ) σ P h₁ h₂ ∧
      ∀ x, a.adorned? = some x → Adornable ((K ∪ a.adorns h₁).graphOn σ) σ h₁ x := by
  refine ⟨ht.mono (Set.image_mono Set.subset_union_left), fun x hx ↦ ?_⟩
  refine .of_tagOf ht.left.proper.wellFormed fun htag ↦ ?_
  by_cases hm : x = h₁.missingString
  · exact .inl hm
  · exact .inr (Set.mem_image_of_mem _ (.inr ⟨hx, htag, hm⟩))

theorem agrees_action (ht : Twin A σ P h₁ h₂) (a : Action) (hq : a.NeverAllocates)
    (hx : ∀ x ∈ a.handles, h₁.Rooted P x) (ha : ∀ x, a.adorned? = some x → Adornable A σ h₁ x) :
    Agrees A σ (a.run h₁) ((a.rename σ).run h₂) := by
  cases a with
  | request r =>
    cases r with
    | query q => exact ht.agrees_query q hx
    | update u => exact ht.runs_quietly u hq hx ha
  | take x =>
    have hx := hx x List.mem_cons_self
    exact ⟨rfl, (ht.preserve hx (List.forall_mem_singleton.mpr hx)).report _ _⟩
  | letGo x => exact ⟨rfl, ((ht.release x).narrow (Q := []) nofun).report _ _⟩
  | report e => exact ⟨rfl, (ht.narrow (Q := []) nofun).report e e⟩
  | drain => exact ⟨rfl, ht.drain⟩

theorem step (ht : Twin (K.graphOn σ) σ P h₁ h₂) (hK : ∀ x ∈ K, h₁.Reach [] x) (a : Action)
    (hx : ∀ x ∈ a.handles, h₁.Reach [] x ∨ a.NeverAllocates ∧ x ∈ P)
    (hn₁ : Numbered (a.run h₁).2.arena) (hn₂ : Numbered ((a.rename σ).run h₂).2.arena) :
    ∃ σ', (∀ x, h₁.Reach [] x → σ' x = σ x) ∧ (a.NeverAllocates → σ' = σ) ∧
      a.SameOutcome σ' (a.run h₁).1 ((a.rename σ).run h₂).1 ∧
      Twin ((K ∪ a.adorns h₁).graphOn σ') σ' (handlesOf (a.run h₁).1) (a.run h₁).2
        ((a.rename σ).run h₂).2 := by
  obtain ⟨ht, hb⟩ := ht.adorn a
  have ht₀ := ht.narrow (Q := []) nofun
  have hreach {x : Handle} : h₁.Reach [] x ↔ h₁.Rooted [] x := ht₀.reach_iff
  by_cases hq : a.NeverAllocates
  · have hx' x (hxa : x ∈ a.handles) : h₁.Rooted P x :=
      (hx x hxa).elim (fun hx ↦ (hreach.mp hx).pending (List.nil_subset P)) fun hx ↦
        ht.rooted_pending hx.2
    obtain ⟨he, ht'⟩ := ht.agrees_action a hq hx' hb
    refine ⟨σ, fun _ _ ↦ rfl, fun _ ↦ rfl, Action.sameOutcome_of_eq ?_ he, ht'⟩
    rintro rfl
    exact hq
  · have hx' x (hxa : x ∈ a.handles) : h₁.Rooted [] x :=
      (hx x hxa).elim hreach.mp fun hx ↦ absurd hx.1 hq
    have hk : Retains ((K ∪ a.adorns h₁).graphOn σ) σ h₁ := by
      intro p hp
      obtain ⟨hpK, hpσ⟩ := Set.mem_graphOn.mp hp
      exact ⟨hpK.elim (fun hp ↦ hreach.mp (hK _ hp)) fun hp ↦
        hx' _ (a.mem_handles_of_adorned? hp.1), hpσ⟩
    cases a with
    | request r =>
      cases r with
      | query q => exact absurd trivial hq
      | update u =>
        by_cases hu : u = .collect
        · subst hu
          exact ⟨σ, fun _ _ ↦ rfl, fun _ ↦ rfl, ⟨_, _, rfl, rfl⟩, ht₀.collect hn₁ hn₂⟩
        · obtain ⟨σ', hagree, he, ht'⟩ := ht₀.follows_update hk u hu hx' hb hn₁ hn₂
          refine ⟨σ', fun x hx ↦ hagree x (hreach.mp hx), fun hq' ↦ absurd hq' hq,
            Action.sameOutcome_of_eq (fun hc ↦ hu ?_) he, hk.graphOn_eq hagree ▸ ht'⟩
          cases hc
          rfl
    | _ => exact absurd trivial hq

end Twin

theorem Twin.indistinguishable (program : List Action) (ht : Twin (K.graphOn σ) σ fresh h₁ h₂)
    (hK : ∀ x ∈ K, h₁.Reach [] x) (hw : Action.WellRooted h₁ fresh program)
    (hs : Action.KeepsText h₁ K program) : Indistinguishable σ h₁ h₂ program := by
  induction program generalizing σ fresh K h₁ h₂ with
  | nil => trivial
  | cons a program ih =>
    intro hn₁ hn₂
    obtain ⟨σ', hagree, hquiet, hsame, ht'⟩ := ht.step hK a hw.1 hn₁ hn₂
    exact ⟨σ', hagree, hquiet, hsame, ht'.corresponds, ih ht' hs.1 hw.2 hs.2⟩

/-- What a program is told does not depend on when collections start. It may tell one heap from
another by nothing but the handles, and these correspond. -/
theorem collection_unobservable (ordinal₁ ordinal₂ threshold₁ threshold₂ : Nat)
    (program : List Action) (hw : Action.WellRooted (create ordinal₁ threshold₁) [] program)
    (hs : Action.KeepsText (create ordinal₁ threshold₁) ∅ program) :
    ∃ σ, Corresponds σ [] (create ordinal₁ threshold₁) (create ordinal₂ threshold₂) ∧
      Indistinguishable σ (create ordinal₁ threshold₁) (create ordinal₂ threshold₂) program := by
  obtain ⟨σ, ht⟩ := twin_create ordinal₁ ordinal₂ threshold₁ threshold₂
  rw [← Set.graphOn_empty σ] at ht
  exact ⟨σ, ht.corresponds, ht.indistinguishable program nofun hw hs⟩

theorem collection_unobservable_of_protect :
    let program : List Action :=
      [.request (.update (.internText "foo")), .request (.update (.protect ⟨8, 0⟩)),
        .request (.update (.setAttributes ⟨8, 0⟩ ⟨5, 0⟩)), .request (.update (.newInteger [1])),
        .request (.query (.attributesOf ⟨8, 0⟩))]
    Action.WellRooted (create 0 0) [] program ∧ Action.KeepsText (create 0 0) ∅ program ∧
      ∃ σ, Corresponds σ [] (create 0 0) (create 0 1) ∧
        Indistinguishable σ (create 0 0) (create 0 1) program := by
  intro program
  have hw : Action.WellRooted (create 0 0) [] program := by
    refine ⟨nofun, fun x hx ↦ .inr ⟨trivial, hx⟩, fun x hx ↦ .inl ?_, nofun,
      fun x hx ↦ .inl ?_, trivial⟩
    · obtain rfl | rfl : x = ⟨8, 0⟩ ∨ x = ⟨5, 0⟩ := List.mem_pair.mp hx
      · exact reach_of_mem (by decide) (by decide)
      · exact reach_of_mem (by decide) (by decide)
    · obtain rfl := List.mem_singleton.mp hx
      exact reach_of_mem (by decide) (by decide)
  have hs : Action.KeepsText (create 0 0) ∅ program := by
    refine .cons rfl nofun (.cons rfl nofun ⟨?_, .cons rfl ?_ (.cons rfl ?_ trivial)⟩)
    all_goals
      rintro x (⟨⟨⟩⟩ | ⟨⟨⟩, -⟩)
      exact reach_of_mem (by decide) (by decide)
  exact ⟨hw, hs, collection_unobservable 0 0 0 1 program hw hs⟩

/-- The text is forgotten if a collection comes between, and its attributes with it. -/
def adornedText : List Action :=
  [.request (.update (.internText "foo")), .request (.update (.protect ⟨8, 0⟩)),
    .request (.update (.setAttributes ⟨8, 0⟩ ⟨5, 0⟩)), .request (.update (.unprotect 1)),
    .request (.update (.newInteger [1])), .request (.update (.internText "foo")),
    .request (.query (.attributesOf ⟨8, 0⟩))]

theorem wellRooted_adornedText : Action.WellRooted (create 0 0) [] adornedText := by
  refine ⟨nofun, fun x hx ↦ .inr ⟨trivial, hx⟩, fun x hx ↦ .inl ?_, nofun, nofun, nofun,
    fun x hx ↦ .inr ⟨trivial, hx⟩, trivial⟩
  obtain rfl | rfl : x = ⟨8, 0⟩ ∨ x = ⟨5, 0⟩ := List.mem_pair.mp hx
  · exact reach_of_mem (by decide) (by decide)
  · exact reach_of_mem (by decide) (by decide)

/-- The one heap still has the attributes, as no collection has started in it. -/
theorem adornedText_observable :
    Action.WellRooted (create 0 0) [] adornedText ∧
      ¬ ∃ σ, Corresponds σ [] (create 0 0) (create 0 1) ∧
        Indistinguishable σ (create 0 0) (create 0 1) adornedText := by
  refine ⟨wellRooted_adornedText, ?_⟩
  rintro ⟨σ, -, hi⟩
  obtain ⟨σ₁, -, he, hc, hi⟩ :=
    hi.step (.request (.update (.internText "foo"))) rfl (by decide) (by decide)
  have htext : ⟨8, 0⟩ = σ₁ ⟨8, 0⟩ := List.singleton_injective he
  have hdim : ⟨5, 0⟩ = σ₁ ⟨5, 0⟩ := hc.dimSymbol
  replace hi := hi.quiet trivial (.request (.update (.protect ⟨8, 0⟩)))
    (by rw [Action.rename, Update.rename, ← htext]) (by decide) (by decide)
  replace hi := hi.quiet trivial (.request (.update (.setAttributes ⟨8, 0⟩ ⟨5, 0⟩)))
    (by rw [Action.rename, Update.rename, ← htext, ← hdim]) (by decide) (by decide)
  replace hi := hi.quiet trivial (.request (.update (.unprotect 1))) rfl (by decide) (by decide)
  obtain ⟨σ₂, -, -, -, hi⟩ :=
    hi.step (.request (.update (.newInteger [1]))) rfl (by decide) (by decide)
  obtain ⟨σ₃, -, he, -, hi⟩ :=
    hi.step (.request (.update (.internText "foo"))) rfl (by decide) (by decide)
  have htext : ⟨8, 2⟩ = σ₃ ⟨8, 0⟩ := List.singleton_injective he
  obtain ⟨σ₄, -, he, hc, -⟩ := hi.step (.request (.query (.attributesOf ⟨8, 2⟩)))
    (by rw [Action.rename, Query.rename, ← htext]) (by decide) (by decide)
  -- The one heap finds the symbol, the other finds nothing.
  have hattributes : ⟨0, 0⟩ = σ₄ ⟨5, 0⟩ := List.singleton_injective he
  have hnil : ⟨0, 0⟩ = σ₄ ⟨0, 0⟩ := hc.nil
  exact absurd (σ₄.injective (hattributes.symm.trans hnil)) (by decide)

end Heap

end TaggedHeap
