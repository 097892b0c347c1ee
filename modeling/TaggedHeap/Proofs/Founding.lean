import TaggedHeap.Proofs.Rewriting

namespace TaggedHeap

open Arena

/-- Takes the handles of an arena to those of another one with a different seed. -/
def Handle.shift (d : UInt32) : Equiv.Perm Handle where
  toFun x := ⟨x.slot, x.generation + d⟩
  invFun x := ⟨x.slot, x.generation - d⟩
  left_inv x := by simp
  right_inv x := by simp

namespace Heap

variable {h h₁ h₂ : Heap} {x : Handle} {σ : Equiv.Perm Handle} {P : List Handle}
  {K : Set Handle} {A : Set (Handle × Handle)}

theorem get?_bare (seed : UInt32) (x : Handle) :
    (bare seed).arena.get? x =
      if x = (bare seed).missingString then
        some (.new .char (bare seed).nil (.char (Text.Utf8.encode missingText)))
      else if x = (bare seed).nil then some (.new .null (bare seed).nil .null)
      else none := by
  let a := Arena.empty seed
  let r := Record.new .null a.firstHandle .null
  let q := Record.new .char a.firstHandle (.char (Text.Utf8.encode missingText))
  have ha : Accounted a := .empty seed
  change ((a.insert r).2.insert q).2.get? x =
    if x = ((a.insert r).2.insert q).1 then some q else if x = (a.insert r).1 then some r else none
  split_ifs with hq hr
  · rw [hq, (ha.insert r).get?_insert q (numbered_of_size_le (Nat.le_of_ble_eq_true rfl))]
  · rw [get?_insert_of_ne hq, hr,
      ha.get?_insert r (numbered_of_size_le (Nat.le_of_ble_eq_true rfl))]
  · rw [get?_insert_of_ne hq, get?_insert_of_ne hr]
    rfl

theorem sound_bare (seed : UInt32) : Sound K (bare seed) where
  proper := (coherent_bare seed).proper
  interned := by
    refine ⟨List.nodup_nil, nofun, nofun, fun bytes x hx hne ↦ ?_,
      (coherent_bare seed).core _ (by simp [core])⟩
    obtain ⟨r, hr, hp⟩ := hx
    rw [get?_bare, if_neg hne] at hr
    split_ifs at hr
    cases hr
    cases hp
  bare x r bytes hx _ hne _ := by
    rw [get?_bare, if_neg hne] at hx
    split_ifs at hx
    cases hx
    rfl

theorem twin_bare (s₁ s₂ : UInt32) : Twin ∅ (Handle.shift (s₂ - s₁)) [] (bare s₁) (bare s₂) := by
  have hs : s₁ + (s₂ - s₁) = s₂ := by rw [UInt32.add_comm, UInt32.sub_add_cancel]
  have hnil : (bare s₂).nil = Handle.shift (s₂ - s₁) (bare s₁).nil :=
    Handle.mk.injEq .. ▸ ⟨rfl, hs.symm⟩
  have hmissing : (bare s₂).missingString = Handle.shift (s₂ - s₁) (bare s₁).missingString :=
    Handle.mk.injEq .. ▸ ⟨rfl, hs.symm⟩
  have hc := coherent_bare s₁
  refine ⟨⟨hnil, hmissing, hnil, hnil, hnil, rfl, rfl⟩, sound_bare s₁, sound_bare s₂,
    List.mem_cons_self, List.mem_cons_self, hc.core, fun x _ ↦ hc.closed x, fun x _ ↦ ?_⟩
  rw [get?_bare, get?_bare, hnil, hmissing]
  simp only [(Handle.shift (s₂ - s₁)).injective.eq_iff]
  split_ifs <;> rfl

theorem threshold_alloc (h : Heap) (tag : TypeTag) (payload : Payload) :
    (h.alloc tag payload).2.threshold = h.threshold := by
  rw [alloc_eq]
  unfold settle
  split <;> rfl

theorem threshold_intern (h : Heap) (bytes : List UInt8) :
    (h.intern bytes).2.threshold = h.threshold := by
  unfold intern
  split
  · rfl
  · exact h.threshold_alloc .char (.char bytes)

theorem alloc_protect (ht : h.threshold = 0) (x : Handle) (tag : TypeTag) (payload : Payload) :
    (h.protect x).alloc tag payload =
      ((h.alloc tag payload).1, (h.alloc tag payload).2.protect x) := by
  have hd : h.isDue = false := by simp [isDue, ht]
  have hp : (h.protect x).isDue = false := hd
  simp only [alloc, hd, hp, Bool.false_eq_true, if_false]
  rfl

theorem Pairs.addSymbol {p₁ p₂ : Handle × Heap} (hp : Pairs A σ h₁ p₁ p₂)
    (hz₁ : p₁.2.threshold = 0) (hz₂ : p₂.2.threshold = 0)
    (hn₁ : Numbered (p₁.2.alloc .symbol (.symbol p₁.1 p₁.2.nil p₁.2.nil)).2.arena)
    (hn₂ : Numbered (p₂.2.alloc .symbol (.symbol p₂.1 p₂.2.nil p₂.2.nil)).2.arena) :
    let a₁ := p₁.2.alloc .symbol (.symbol p₁.1 p₁.2.nil p₁.2.nil)
    let a₂ := p₂.2.alloc .symbol (.symbol p₂.1 p₂.2.nil p₂.2.nil)
    ∃ σ', σ' p₁.1 = p₂.1 ∧ σ' a₁.1 = a₂.1 ∧ Twin A σ' [a₁.1, p₁.1] a₁.2 a₂.2 := by
  intro a₁ a₂
  obtain ⟨σ₁, -, hx, ht, hname⟩ := hp.protect
  have hpairs : Pairs A σ₁ (p₁.2.protect p₁.1) (a₁.1, a₁.2.protect p₁.1)
      (a₂.1, a₂.2.protect p₂.1) := by
    have h₁ := alloc_protect hz₁ p₁.1 .symbol (.symbol p₁.1 p₁.2.nil p₁.2.nil)
    have h₂ := alloc_protect hz₂ p₂.1 .symbol (.symbol p₂.1 p₂.2.nil p₂.2.nil)
    rw [← h₁, ← h₂]
    refine ht.alloc _ ?_ rfl (by decide) (forall_mem_three hname ht.rooted_nil ht.rooted_nil)
      (h₁ ▸ hn₁) (h₂ ▸ hn₂)
    have hnil : p₂.2.nil = σ₁ p₁.2.nil := ht.nil
    rw [Payload.rename, hx, hnil]
  obtain ⟨σ₂, ha, hx', ht'⟩ := hpairs
  refine ⟨σ₂, (ha.agree _ hname).trans hx, hx', ?_⟩
  exact ht'.unprotect 1 (List.forall_mem_cons.mpr ⟨ht'.rooted_pending List.mem_cons_self,
    List.forall_mem_singleton.mpr ((ha.rooted _ hname).pending (List.nil_subset _))⟩)

theorem Twin.addUnbound (ht : Twin A σ [] h₁ h₂) (hk : Retains A σ h₁) (hz₁ : h₁.threshold = 0)
    (hz₂ : h₂.threshold = 0)
    (hd : h₁.dimSymbol = h₁.nil ∧ h₁.namesSymbol = h₁.nil)
    (hn₁ : Numbered h₁.addUnbound.arena) (hn₂ : Numbered h₂.addUnbound.arena) :
    ∃ σ', Twin A σ' [] h₁.addUnbound h₂.addUnbound := by
  let p₁ := h₁.internText ""
  let p₂ := h₂.internText ""
  let a₁ := p₁.2.alloc .symbol (.symbol p₁.1 p₁.2.nil p₁.2.nil)
  let a₂ := p₂.2.alloc .symbol (.symbol p₂.1 p₂.2.nil p₂.2.nil)
  have ha₁ : Numbered a₁.2.arena := numbered_modify_iff.mp hn₁
  have ha₂ : Numbered a₂.2.arena := numbered_modify_iff.mp hn₂
  have hc (p : Handle × Heap) := p.2.continues_alloc .symbol (.symbol p.1 p.2.nil p.2.nil) rfl
  have hp₁ : Numbered p₁.2.arena := (hc p₁).numbered ha₁
  have hp₂ : Numbered p₂.2.arena := (hc p₂).numbered ha₂
  have hpairs : Pairs A σ h₁ p₁ p₂ := ht.intern hk (Text.Utf8.encode "") hp₁ hp₂
  obtain ⟨σ', hname, hmarker, ht'⟩ := hpairs.addSymbol ((h₁.threshold_intern _).trans hz₁)
    ((h₂.threshold_intern _).trans hz₂) ha₁ ha₂
  let r₁ := Record.new .symbol p₁.2.nil (.symbol p₁.1 p₁.2.nil p₁.2.nil)
  have hr₁ : a₁.2.arena.get? a₁.1 = some r₁ :=
    p₁.2.get?_alloc ((h₁.continues_intern _).evolves.proper ht.left.proper) ha₁
  have hx := ht'.rooted_pending (x := a₁.1) List.mem_cons_self
  have hr₂ := ht'.get?_eq a₁.1 hx
  rw [hr₁, Option.map_some, hmarker] at hr₂
  -- The marker becomes its own value.
  let r : Record := { r₁ with payload := .symbol p₁.1 a₁.1 a₁.2.nil }
  have hlinks : ∀ y ∈ r.links, a₁.2.Rooted [a₁.1, p₁.1] y := by
    refine List.forall_mem_cons.mpr ⟨ht'.rooted_link hx hr₁ List.mem_cons_self, ?_⟩
    exact forall_mem_three (ht'.rooted_pending (by simp)) hx ht'.rooted_nil
  have hreplaces : Replaces (Expects A σ' a₁.2 a₁.1) r₁ r :=
    replaces_payload rfl fun _ ↦ by simp [r₁, Record.new]
  have hm := ht'.rewrite hx hr₁ hlinks hreplaces
  have hv : a₁.2.values = h₁.values := ((h₁.continues_internText "").trans (hc p₁)).values
  obtain ⟨hnil, -, -, hdim, hnames⟩ : a₁.2.nil = h₁.nil ∧ a₁.2.missingString = h₁.missingString ∧
      a₁.2.unbound = h₁.unbound ∧ a₁.2.dimSymbol = h₁.dimSymbol ∧
      a₁.2.namesSymbol = h₁.namesSymbol := by
    simpa only [Heap.values, Prod.mk.injEq] using hv
  have hdim : h₁.addUnbound.dimSymbol = h₁.addUnbound.nil := hdim.trans (hd.1.trans hnil.symm)
  have hnames : h₁.addUnbound.namesSymbol = h₁.addUnbound.nil :=
    hnames.trans (hd.2.trans hnil.symm)
  refine ⟨σ', hm.recast ⟨?_, rfl, rfl, rfl⟩ ⟨?_, rfl, rfl, rfl⟩
    ⟨hm.nil, hm.missingString, hmarker.symm, hm.dimSymbol, hm.namesSymbol, hm.symbols, hm.roots⟩
    (hdim ▸ nil_mem_core _) (hnames ▸ nil_mem_core _) fun y hy ↦ ?_⟩
  · exact modify_eq_of_get? hr₁ _
  · have he := modify_eq_of_get? hr₂ fun q ↦ { q with payload := .symbol p₂.1 a₂.1 a₂.2.nil }
    have hr' : r.rename σ' = { r₁.rename σ' with payload := .symbol p₂.1 a₂.1 a₂.2.nil } := by
      rw [ht'.nil, ← hname, ← hmarker]
      rfl
    rw [hr', hmarker]
    exact he
  · rcases mem_rootHandles.mp hy with hy | hy | hy | hy | hy | hy | hy
    · exact hy ▸ hm.rooted_nil
    · exact hy ▸ hm.rooted_missingString
    · exact hy ▸ hm.rooted_pending List.mem_cons_self
    · exact hm.rooted_of_mem_roots (mem_rootHandles.mpr (.inr (.inr (.inr (.inl hy)))))
    · exact hm.rooted_of_mem_toList (List.mem_append_left _ hy)
    · exact hm.rooted_of_mem_toList (List.mem_append_right _ hy)
    · cases hy

theorem twin_addUnbound (s₁ s₂ : UInt32) :
    ∃ σ, Twin ∅ σ [] (bare s₁).addUnbound (bare s₂).addUnbound := by
  have hn (seed : UInt32) : Numbered (bare seed).addUnbound.arena :=
    numbered_of_size_le ((coherent_addUnbound seed).2.trans (by decide))
  exact (twin_bare s₁ s₂).addUnbound nofun rfl rfl ⟨rfl, rfl⟩ (hn s₁) (hn s₂)

theorem twin_create (ordinal₁ ordinal₂ threshold₁ threshold₂ : Nat) :
    ∃ σ, Twin ∅ σ [] (create ordinal₁ threshold₁) (create ordinal₂ threshold₂) := by
  obtain ⟨σ, ht⟩ := twin_addUnbound (seedOf ordinal₁) (seedOf ordinal₂)
  have hs₁ := (coherent_addUnbound (seedOf ordinal₁)).2
  have hs₂ := (coherent_addUnbound (seedOf ordinal₂)).2
  unfold create
  generalize (bare (seedOf ordinal₁)).addUnbound = h₁ at ht hs₁ ⊢
  generalize (bare (seedOf ordinal₂)).addUnbound = h₂ at ht hs₂ ⊢
  have hp (h : Heap) (hs : h.arena.slots.size ≤ 4) : (h.install "dim").2.arena.slots.size ≤ 6 :=
    (h.size_slots_install_le _).trans (by omega)
  have hq (h : Heap) (hs : h.arena.slots.size ≤ 4) :
      ((h.install "dim").2.install "names").2.arena.slots.size ≤ 8 :=
    ((h.install "dim").2.size_slots_install_le _).trans (Nat.add_le_add_right (hp h hs) 2)
  obtain ⟨σ₁, ha₁, hx₁, ht₁⟩ := ht.install nofun "dim"
    (numbered_of_size_le ((hp h₁ hs₁).trans (by decide)))
    (numbered_of_size_le ((hp h₂ hs₂).trans (by decide)))
  have ht₁ := ht₁.narrow (Q := []) nofun
  obtain ⟨σ₂, ha₂, hx₂, ht₂⟩ := ht₁.install nofun "names" (numbered_of_size_le (hq h₁ hs₁))
    (numbered_of_size_le (hq h₂ hs₂))
  have hdim : σ₂ (h₁.install "dim").1 = (h₂.install "dim").1 := by
    rw [ha₂.agree _ (ht₁.rooted_core (h₁.mem_core_install "dim")), hx₁]
  exact ⟨σ₂, ht₂.recast ⟨rfl, rfl, rfl, rfl⟩ ⟨rfl, rfl, rfl, rfl⟩
    ⟨ht₂.nil, ht₂.missingString, ht₂.unbound, hdim.symm, hx₂.symm, ht₂.symbols, ht₂.roots⟩
    ((continues_install _ "names").keeps.mem_core (h₁.mem_core_install "dim"))
    (mem_core_install _ "names") fun _ hx ↦ ht₂.rooted_of_mem_roots (mem_rootHandles_of_mem hx)⟩

end Heap

end TaggedHeap
