import TaggedHeap.Proofs.Mirroring
import TaggedHeap.Proofs.Searching

namespace TaggedHeap.Heap

open Arena

variable {h g h₁ h₂ g₁ g₂ : Heap} {x y : Handle} {P Q : List Handle}
  {σ σ' : Equiv.Perm Handle} {A : Set (Handle × Handle)} {k n : Nat}

theorem Reframes.refl (h : Heap) : Reframes h h :=
  ⟨rfl, rfl, rfl, List.suffix_refl _⟩

theorem Advances.refl (σ : Equiv.Perm Handle) (h : Heap) : Advances σ h σ h :=
  ⟨fun _ hx ↦ hx, fun _ _ ↦ rfl⟩

theorem Rooted.protect (hx : h.Rooted [] x) (y : Handle) : (h.protect y).Rooted [] x :=
  hx.mono fun _ ↦ (h.grows_protect y).toContinues.mem_rootHandles

theorem rooted_protect_self (hx : h.isLive x = true) : (h.protect x).Rooted [] x :=
  .root (h.mem_rootHandles_protect x) hx

namespace Twin

/-- The roots and the figures may change alike, as long as what was led to does the leading. -/
theorem reroot (ht : Twin A σ P h₁ h₂) (hg₁ : Reframes h₁ g₁) (hg₂ : Reframes h₂ g₂)
    (hs₁ : g₁.symbols = h₁.symbols) (hs₂ : g₂.symbols = h₂.symbols)
    (hr : g₂.roots = g₁.roots.rename σ) (hroots : ∀ x ∈ g₁.roots.toList, h₁.Rooted P x)
    (hQ : ∀ x ∈ Q, h₁.Rooted P x) : Twin A σ Q g₁ g₂ := by
  refine ht.reframe hg₁ hg₂ (by rw [hs₁, hs₂, ht.symbols]) hr fun x hx ↦ ?_
  obtain ⟨hn, hm, hu, _⟩ : g₁.nil = h₁.nil ∧ g₁.missingString = h₁.missingString ∧
      g₁.unbound = h₁.unbound ∧ _ := by simpa only [Heap.values, Prod.mk.injEq] using hg₁.values
  rw [mem_rootHandles, hn, hm, hu, hs₁] at hx
  rcases hx with hx | hx | hx | hx | hx | hx | hx
  · exact hx ▸ ht.rooted_nil
  · exact hx ▸ ht.rooted_missingString
  · exact hx ▸ ht.rooted_unbound
  · exact ht.rooted_of_mem_roots (mem_rootHandles.mpr (.inr (.inr (.inr (.inl hx)))))
  · exact hroots x (List.mem_append_left _ hx)
  · exact hroots x (List.mem_append_right _ hx)
  · exact hQ x hx

theorem rooted_of_mem_toList (ht : Twin A σ P h₁ h₂) (hx : x ∈ h₁.roots.toList) :
    h₁.Rooted P x := by
  refine ht.rooted_of_mem_roots (mem_rootHandles.mpr ?_)
  rcases List.mem_append.mp hx with hx | hx
  · exact .inr (.inr (.inr (.inr (.inl hx))))
  · exact .inr (.inr (.inr (.inr (.inr (.inl hx)))))

theorem rooted_pending (ht : Twin A σ P h₁ h₂) (hx : x ∈ P) : h₁.Rooted P x :=
  ht.rooted_of_mem_roots (h₁.rootHandles_eq P ▸ List.mem_append_right _ hx)

theorem withRoots (ht : Twin A σ P h₁ h₂) {r : Roots} (hr : ∀ x ∈ r.toList, h₁.Rooted P x)
    (hQ : ∀ x ∈ Q, h₁.Rooted P x) :
    Twin A σ Q { h₁ with roots := r } { h₂ with roots := r.rename σ } :=
  have hto (h : Heap) (r : Roots) : Reframes h { h with roots := r } :=
    ⟨rfl, rfl, rfl, List.suffix_refl _⟩
  ht.reroot (hto _ _) (hto _ _) rfl rfl rfl hr hQ

theorem narrow (ht : Twin A σ P h₁ h₂) (hQ : ∀ x ∈ Q, h₁.Rooted P x) : Twin A σ Q h₁ h₂ :=
  ht.reroot (.refl h₁) (.refl h₂) rfl rfl ht.roots (fun _ ↦ ht.rooted_of_mem_toList) hQ

theorem report (ht : Twin A σ P h₁ h₂) (e₁ e₂ : Event) : Twin A σ P (h₁.report e₁) (h₂.report e₂) :=
  ht.reroot ⟨rfl, rfl, rfl, List.suffix_refl _⟩ ⟨rfl, rfl, rfl, List.suffix_refl _⟩ rfl rfl ht.roots
    (fun _ ↦ ht.rooted_of_mem_toList) fun _ ↦ ht.rooted_pending

theorem drain (ht : Twin A σ P h₁ h₂) : Twin A σ [] h₁.drain.2 h₂.drain.2 :=
  ht.reroot ⟨rfl, rfl, rfl, List.suffix_refl _⟩ ⟨rfl, rfl, rfl, List.suffix_refl _⟩ rfl rfl ht.roots
    (fun _ ↦ ht.rooted_of_mem_toList) nofun

theorem protect (ht : Twin A σ P h₁ h₂) (hx : h₁.Rooted P x) (hQ : ∀ y ∈ Q, h₁.Rooted P y) :
    Twin A σ Q (h₁.protect x) (h₂.protect (σ x)) := by
  have ht' := ht.withRoots (r := h₁.roots.protect x)
    (List.forall_mem_cons.mpr ⟨hx, fun _ ↦ ht.rooted_of_mem_toList⟩) hQ
  unfold Heap.protect
  rwa [ht.roots]

theorem preserve (ht : Twin A σ P h₁ h₂) (hx : h₁.Rooted P x) (hQ : ∀ y ∈ Q, h₁.Rooted P y) :
    Twin A σ Q (h₁.preserve x) (h₂.preserve (σ x)) := by
  have ht' := ht.withRoots (Q := Q) (r := h₁.roots.preserve x) (fun y hy ↦ ?_) hQ
  · unfold Heap.preserve
    rwa [ht.roots]
  · rcases List.mem_append.mp hy with hy | hy
    · exact ht.rooted_of_mem_toList (List.mem_append_left _ hy)
    · rcases List.mem_cons.mp hy with rfl | hy
      · exact hx
      · exact ht.rooted_of_mem_toList (List.mem_append_right _ hy)

theorem withRoots? (ht : Twin A σ P h₁ h₂) {r? : Option Roots} (e₁ e₂ : Event)
    (hQ : ∀ x ∈ Q, h₁.Rooted P x) :
    (∀ r, r? = some r → r.toList ⊆ h₁.roots.toList) → Twin A σ Q
      (match r? with
      | some r => { h₁ with roots := r }
      | none => h₁.report e₁)
      (match r?.map (Roots.rename σ) with
      | some r => { h₂ with roots := r }
      | none => h₂.report e₂) := by
  intro hr
  cases r? with
  | some r => exact ht.withRoots (fun x hx ↦ ht.rooted_of_mem_toList (hr r rfl hx)) hQ
  | none => exact (ht.narrow hQ).report e₁ e₂

theorem unprotect (ht : Twin A σ P h₁ h₂) (n : Nat) (hQ : ∀ y ∈ Q, h₁.Rooted P y) :
    Twin A σ Q (h₁.unprotect n) (h₂.unprotect n) := by
  unfold Heap.unprotect
  rw [ht.roots, Roots.unprotect?_rename]
  refine ht.withRoots? _ _ hQ fun r hr ↦ ?_
  unfold Roots.unprotect? at hr
  split_ifs at hr
  cases hr
  exact List.append_subset.mpr ⟨fun _ hx ↦ List.mem_append_left _ (List.mem_of_mem_drop hx),
    List.subset_append_right _ _⟩

theorem unprotectHandle (ht : Twin A σ P h₁ h₂) (x : Handle) :
    Twin A σ P (h₁.unprotectHandle x) (h₂.unprotectHandle (σ x)) := by
  unfold Heap.unprotectHandle
  rw [ht.roots, Roots.unprotectHandle?_rename _ σ.injective]
  refine ht.withRoots? _ _ (fun _ ↦ ht.rooted_pending) fun r hr ↦ ?_
  unfold Roots.unprotectHandle? at hr
  split_ifs at hr
  cases hr
  exact List.append_subset.mpr ⟨fun _ hx ↦ List.mem_append_left _ (List.mem_of_mem_erase hx),
    List.subset_append_right _ _⟩

theorem release (ht : Twin A σ P h₁ h₂) (x : Handle) :
    Twin A σ P (h₁.release x) (h₂.release (σ x)) := by
  unfold Heap.release
  rw [ht.roots, Roots.release?_rename _ σ.injective]
  refine ht.withRoots? _ _ (fun _ ↦ ht.rooted_pending) fun r hr ↦ ?_
  unfold Roots.release? at hr
  split_ifs at hr
  cases hr
  exact List.append_subset.mpr ⟨List.subset_append_left _ _,
    fun _ hx ↦ List.mem_append_right _ (List.mem_of_mem_erase hx)⟩

theorem setThreshold (ht : Twin A σ P h₁ h₂) (threshold : Nat) :
    Twin A σ P (h₁.setThreshold threshold) (h₂.setThreshold threshold) :=
  ht.reroot ⟨rfl, rfl, rfl, List.suffix_refl _⟩ ⟨rfl, rfl, rfl, List.suffix_refl _⟩ rfl rfl ht.roots
    (fun _ ↦ ht.rooted_of_mem_toList) fun _ ↦ ht.rooted_pending

end Twin

theorem Pairs.protect {p₁ p₂ : Handle × Heap} (hp : Pairs A σ h₁ p₁ p₂) :
    ∃ σ', Advances σ h₁ σ' (p₁.2.protect p₁.1) ∧ σ' p₁.1 = p₂.1 ∧
      Twin A σ' [] (p₁.2.protect p₁.1) (p₂.2.protect p₂.1) ∧
      (p₁.2.protect p₁.1).Rooted [] p₁.1 := by
  obtain ⟨σ', ha, hx, ht⟩ := hp
  have hroot : p₁.2.Rooted [p₁.1] p₁.1 := ht.rooted_pending List.mem_cons_self
  have ht' := ht.protect (Q := []) hroot nofun
  rw [hx] at ht'
  exact ⟨σ', ⟨fun y hy ↦ (ha.rooted y hy).protect _, ha.agree⟩, hx, ht',
    rooted_protect_self hroot.isLive⟩

theorem Pairs.unprotect {p₁ p₂ : Handle × Heap} (hp : Pairs A σ h₁ p₁ p₂)
    (hr : ∀ x, h₁.Rooted [] x → (p₁.2.unprotect n).Rooted [] x) :
    Pairs A σ h₁ (p₁.1, p₁.2.unprotect n) (p₂.1, p₂.2.unprotect n) := by
  obtain ⟨σ', ha, hx, ht⟩ := hp
  exact ⟨σ', ⟨hr, ha.agree⟩, hx, ht.unprotect n fun _ ↦ ht.rooted_pending⟩

theorem Pairs.trans {p₁ p₂ : Handle × Heap} (ha : Advances σ h₁ σ' g₁)
    (hp : Pairs A σ' g₁ p₁ p₂) : Pairs A σ h₁ p₁ p₂ := by
  obtain ⟨σ'', ha', hx, ht⟩ := hp
  exact ⟨σ'', ha.trans ha', hx, ht⟩

theorem Twin.pairs (ht : Twin A σ [] h₁ h₂) (hx : h₁.Rooted [] x) (hy : y = σ x) :
    Pairs A σ h₁ (x, h₁) (y, h₂) :=
  ⟨σ, .refl σ h₁, hy.symm, ht.narrow (List.forall_mem_singleton.mpr hx)⟩

theorem lookup_rename (f : Handle → Handle) (symbols : List (String × Handle)) (name : String) :
    (symbols.map fun s ↦ (s.1, f s.2)).lookup name = (symbols.lookup name).map f := by
  induction symbols with
  | nil => rfl
  | cons s symbols ih =>
    rw [List.map_cons, List.lookup_cons, List.lookup_cons, ih]
    split <;> rfl

def internElement (h : Heap) : Option String → Handle × Heap
  | some text => h.internText text
  | none => (h.missingString, h)

theorem internAll_cons (h : Heap) (value : Option String) (values : List (Option String)) :
    internAll (value :: values) h =
      let q := (h.internElement value).2.protect (h.internElement value).1
      ((h.internElement value).1 :: (internAll values q).1, (internAll values q).2) := by
  cases value <;> rfl

def installLabel (h : Heap) : Option String → Handle × Heap
  | some name => h.install name
  | none => (h.nil, h)

theorem link_cons (h : Heap) (name : Option String) (value : Handle)
    (items : List (Option String × Handle)) :
    link ((name, value) :: items) h =
      let p := link items h
      let q := p.2.installLabel name
      let s := q.2.alloc .pairlist (.cell value p.1 q.1)
      (s.1, s.2.protect s.1) := by
  cases name <;> rfl

theorem grows_installLabel (h : Heap) (name : Option String) :
    Grows h 0 (h.installLabel name).2 := by
  cases name with
  | some name => exact h.grows_install name
  | none => exact .refl h

theorem installLabel_mem_core (h : Heap) (name : Option String) :
    (h.installLabel name).1 ∈ (h.installLabel name).2.core := by
  cases name with
  | some name => exact h.mem_core_install name
  | none => exact h.nil_mem_core

namespace Twin

theorem install (ht : Twin A σ [] h₁ h₂) (hk : Retains A σ h₁) (name : String)
    (hn₁ : Numbered (h₁.install name).2.arena) (hn₂ : Numbered (h₂.install name).2.arena) :
    Pairs A σ h₁ (h₁.install name) (h₂.install name) := by
  have hroot (y : Handle) (hy : h₁.Rooted [] y) : (h₁.install name).2.Rooted [] y :=
    (h₁.grows_install name).reach ht.left.proper hn₁ hy
  have hcore := h₁.mem_core_install name
  have hl₂ : h₂.symbols.lookup name = (h₁.symbols.lookup name).map σ := by
    rw [ht.symbols, lookup_rename]
  unfold Heap.install at hn₁ hn₂ hroot hcore ⊢
  cases hl : h₁.symbols.lookup name with
  | some x =>
    simp only [hl₂, hl, Option.map_some] at hcore ⊢
    exact ht.pairs (ht.rooted_core hcore) rfl
  | none =>
    simp only [hl₂, hl, Option.map_none] at hn₁ hn₂ hroot ⊢
    rw [arena_unprotect] at hn₁ hn₂
    let p₁ := h₁.internText name
    let p₂ := h₂.internText name
    let q₁ := p₁.2.protect p₁.1
    let q₂ := p₂.2.protect p₂.1
    let s₁ := q₁.alloc .symbol (.symbol p₁.1 q₁.unbound q₁.nil)
    let s₂ := q₂.alloc .symbol (.symbol p₂.1 q₂.unbound q₂.nil)
    have hp : Pairs A σ h₁ p₁ p₂ := ht.intern hk (Text.Utf8.encode name)
      ((q₁.continues_alloc .symbol (.symbol p₁.1 q₁.unbound q₁.nil) rfl).numbered hn₁)
      ((q₂.continues_alloc .symbol (.symbol p₂.1 q₂.unbound q₂.nil) rfl).numbered hn₂)
    obtain ⟨σ', ha, hx, hq, hname⟩ := hp.protect
    have hs : Pairs A σ' q₁ s₁ s₂ := by
      refine hq.alloc _ ?_ rfl (by decide) ?_ hn₁ hn₂
      · rw [Payload.rename, hx, ← hq.unbound, ← hq.nil]
      · exact forall_mem_three hname hq.rooted_unbound hq.rooted_nil
    obtain ⟨σ'', ha', hx', hs⟩ := Pairs.trans ha hs
    have hu : Twin A σ'' [s₁.1] (s₁.2.unprotect 1) (s₂.2.unprotect 1) :=
      hs.unprotect 1 fun _ ↦ hs.rooted_pending
    refine ⟨σ'', ⟨hroot, ha'.agree⟩, hx', ?_⟩
    refine hu.reframe ⟨rfl, rfl, rfl, List.suffix_cons _ _⟩ ⟨rfl, rfl, rfl, List.suffix_cons _ _⟩
      ?_ hu.roots fun y hy ↦ ?_
    · change (name, s₂.1) :: (s₂.2.unprotect 1).symbols = _
      rw [hu.symbols, List.map_cons, ← hx']
    · refine hu.rooted_of_mem_roots ?_
      simp only [mem_rootHandles, List.map_cons, List.mem_cons, List.not_mem_nil, or_false] at hy ⊢
      tauto

theorem internAll (ht : Twin A σ [] h₁ h₂) (hk : Retains A σ h₁)
    (values : List (Option String)) (hn₁ : Numbered (Heap.internAll values h₁).2.arena)
    (hn₂ : Numbered (Heap.internAll values h₂).2.arena) :
    ∃ σ', Advances σ h₁ σ' (Heap.internAll values h₁).2 ∧
      (Heap.internAll values h₂).1 = (Heap.internAll values h₁).1.map σ' ∧
      Twin A σ' [] (Heap.internAll values h₁).2 (Heap.internAll values h₂).2 ∧
      ∀ x ∈ (Heap.internAll values h₁).1, (Heap.internAll values h₁).2.Rooted [] x := by
  induction values generalizing σ h₁ h₂ with
  | nil => exact ⟨σ, .refl σ h₁, rfl, ht, nofun⟩
  | cons value values ih =>
    rw [internAll_cons] at hn₁ hn₂ ⊢
    rw [internAll_cons]
    let p₁ := h₁.internElement value
    let p₂ := h₂.internElement value
    have hq₁ : Numbered (p₁.2.protect p₁.1).arena :=
      (grows_internAll values _).toContinues.numbered hn₁
    have hq₂ : Numbered (p₂.2.protect p₂.1).arena :=
      (grows_internAll values _).toContinues.numbered hn₂
    have hp : Pairs A σ h₁ p₁ p₂ := by
      cases value with
      | some text => exact ht.intern hk (Text.Utf8.encode text) hq₁ hq₂
      | none => exact ht.pairs ht.rooted_missingString ht.missingString
    obtain ⟨σ₁, ha₁, hx, ht₁, hroot⟩ := hp.protect
    obtain ⟨σ₂, ha₂, hxs, ht₂, hroots⟩ := ih ht₁ (ha₁.retains hk) hn₁ hn₂
    refine ⟨σ₂, ha₁.trans ha₂, ?_, ht₂, List.forall_mem_cons.mpr ⟨ha₂.rooted _ hroot, hroots⟩⟩
    dsimp only
    rw [List.map_cons, ha₂.agree _ hroot, hx, hxs]

theorem newString (ht : Twin A σ [] h₁ h₂) (hk : Retains A σ h₁)
    (values : List (Option String)) (hn₁ : Numbered (h₁.newString values).2.arena)
    (hn₂ : Numbered (h₂.newString values).2.arena) :
    Pairs A σ h₁ (h₁.newString values) (h₂.newString values) := by
  have hroot (y : Handle) (hy : h₁.Rooted [] y) : (h₁.newString values).2.Rooted [] y :=
    (h₁.grows_newString values).reach ht.left.proper hn₁ hy
  unfold Heap.newString at hn₁ hn₂ hroot ⊢
  dsimp only at hn₁ hn₂ hroot ⊢
  rw [arena_unprotect] at hn₁ hn₂
  obtain ⟨σ', ha, hxs, ht', hroots⟩ := ht.internAll hk values
    ((continues_alloc _ _ _ rfl).numbered hn₁) ((continues_alloc _ _ _ rfl).numbered hn₂)
  refine (Pairs.trans ha (ht'.alloc _ ?_ rfl (by decide) ?_ hn₁ hn₂)).unprotect hroot
  · rw [hxs, Payload.rename, List.map_toArray]
  · exact fun y hy ↦ hroots y (by simpa [Payload.children] using hy)

theorem foldl_protect (ht : Twin A σ [] h₁ h₂) (items : List (Option String × Handle))
    (hv : ∀ item ∈ items, h₁.Rooted [] item.2) :
    Twin A σ [] (items.foldl (fun h item ↦ h.protect item.2) h₁)
      ((items.map fun item ↦ (item.1, σ item.2)).foldl (fun h item ↦ h.protect item.2) h₂) ∧
      ∀ x, h₁.Rooted [] x → (items.foldl (fun h item ↦ h.protect item.2) h₁).Rooted [] x := by
  induction items generalizing h₁ h₂ with
  | nil => exact ⟨ht, fun _ hx ↦ hx⟩
  | cons item items ih =>
    obtain ⟨hx, hv⟩ := List.forall_mem_cons.mp hv
    obtain ⟨ht', hroots⟩ := ih (ht.protect hx nofun) fun item hi ↦ (hv item hi).protect _
    exact ⟨ht', fun y hy ↦ hroots y (hy.protect _)⟩

theorem link (ht : Twin A σ [] h₁ h₂) (hk : Retains A σ h₁)
    (items : List (Option String × Handle)) (hv : ∀ item ∈ items, h₁.Rooted [] item.2)
    (hn₁ : Numbered (Heap.link items h₁).2.arena)
    (hn₂ : Numbered (Heap.link (items.map fun item ↦ (item.1, σ item.2)) h₂).2.arena) :
    Pairs A σ h₁ (Heap.link items h₁) (Heap.link (items.map fun item ↦ (item.1, σ item.2)) h₂) ∧
      (Heap.link items h₁).2.Rooted [] (Heap.link items h₁).1 := by
  induction items with
  | nil => exact ⟨ht.pairs ht.rooted_nil ht.nil, ht.rooted_nil⟩
  | cons item items ih =>
    obtain ⟨name, value⟩ := item
    obtain ⟨hvalue, hv⟩ := List.forall_mem_cons.mp hv
    rw [List.map_cons, link_cons] at hn₂
    rw [link_cons] at hn₁
    rw [List.map_cons, link_cons, link_cons]
    let p₁ := Heap.link items h₁
    let p₂ := Heap.link (items.map fun item ↦ (item.1, σ item.2)) h₂
    let q₁ := p₁.2.installLabel name
    let q₂ := p₂.2.installLabel name
    let c₁ : Payload := .cell value p₁.1 q₁.1
    let c₂ : Payload := .cell (σ value) p₂.1 q₂.1
    have hq₁ : Numbered q₁.2.arena := (q₁.2.continues_alloc .pairlist c₁ rfl).numbered hn₁
    have hq₂ : Numbered q₂.2.arena := (q₂.2.continues_alloc .pairlist c₂ rfl).numbered hn₂
    obtain ⟨⟨σ₁, ha₁, hx₁, ht₁⟩, htail⟩ :=
      ih hv ((grows_installLabel p₁.2 name).toContinues.numbered hq₁)
        ((grows_installLabel p₂.2 name).toContinues.numbered hq₂)
    have hp : Pairs A σ₁ p₁.2 q₁ q₂ := by
      have ht₁ := ht₁.narrow (Q := []) nofun
      cases name with
      | some name => exact ht₁.install (ha₁.retains hk) name hq₁ hq₂
      | none => exact ht₁.pairs ht₁.rooted_nil ht₁.nil
    obtain ⟨σ₂, ha₂, hx₂, ht₂⟩ := hp
    have ht₂ := ht₂.narrow (Q := []) nofun
    have hcell : Pairs A σ₂ q₁.2 (q₁.2.alloc .pairlist c₁) (q₂.2.alloc .pairlist c₂) := by
      refine ht₂.alloc _ ?_ rfl (by decide) (forall_mem_three ?_ ?_ ?_) hn₁ hn₂
      · rw [Payload.rename, hx₂, ha₂.agree _ htail, hx₁, ha₂.agree _ (ha₁.rooted _ hvalue),
          ha₁.agree _ hvalue]
      · exact ha₂.rooted _ (ha₁.rooted _ hvalue)
      · exact ha₂.rooted _ htail
      · exact ht₂.rooted_core (p₁.2.installLabel_mem_core name)
    obtain ⟨σ₃, ha₃, hx₃, ht₃, hroot⟩ := (Pairs.trans (ha₁.trans ha₂) hcell).protect
    exact ⟨⟨σ₃, ha₃, hx₃, ht₃.narrow (List.forall_mem_singleton.mpr hroot)⟩, hroot⟩

theorem pairlist (ht : Twin A σ [] h₁ h₂) (hk : Retains A σ h₁)
    (items : List (Option String × Handle)) (hv : ∀ item ∈ items, h₁.Rooted [] item.2)
    (hn₁ : Numbered (h₁.pairlist items).2.arena)
    (hn₂ : Numbered (h₂.pairlist (items.map fun item ↦ (item.1, σ item.2))).2.arena) :
    Pairs A σ h₁ (h₁.pairlist items) (h₂.pairlist (items.map fun item ↦ (item.1, σ item.2))) := by
  have hroot (y : Handle) (hy : h₁.Rooted [] y) : (h₁.pairlist items).2.Rooted [] y :=
    (h₁.grows_pairlist items).reach ht.left.proper hn₁ hy
  unfold Heap.pairlist at hn₁ hn₂ hroot ⊢
  dsimp only at hn₁ hn₂ hroot ⊢
  rw [arena_unprotect] at hn₁ hn₂
  obtain ⟨ht', hroots⟩ := ht.foldl_protect items hv
  have ha : Advances σ h₁ σ (items.foldl (fun h item ↦ h.protect item.2) h₁) :=
    ⟨hroots, fun _ _ ↦ rfl⟩
  obtain ⟨hp, -⟩ := ht'.link (ha.retains hk) items (fun item hi ↦ hroots _ (hv item hi)) hn₁ hn₂
  rw [List.length_map]
  exact (Pairs.trans ha hp).unprotect hroot

end Twin

end TaggedHeap.Heap
