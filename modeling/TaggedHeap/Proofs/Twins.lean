import TaggedHeap.Proofs.Growth
import TaggedHeap.Proofs.Renaming
import Mathlib.Logic.Equiv.Basic

namespace TaggedHeap

namespace Heap

open Arena

variable {h g h₁ h₂ g₁ g₂ : Heap} {x y x₁ x₂ : Handle} {r r' : Record} {bytes : List UInt8}
  {P Q : List Handle} {σ σ' : Equiv.Perm Handle} {k n : Nat} {K L : Set Handle}
  {A B : Set (Handle × Handle)}

/-- What the roots lead to, together with some further handles. -/
abbrev Rooted (h : Heap) (pending : List Handle) (x : Handle) : Prop :=
  Arena.Reach h.arena (h.rootHandles pending) x

theorem Rooted.isLive (hx : h.Rooted P x) : h.isLive x = true :=
  Arena.Reach.contains hx

/-- Interned text is shared by all that ask for it, and but for the exceptions they find no
attributes on it. -/
def BareBut (adorned : Set Handle) (h : Heap) : Prop :=
  ∀ x r bytes, h.arena.get? x = some r → r.payload = .char bytes → x ≠ h.missingString →
    x ∉ adorned → r.attributes = h.nil

theorem Continues.roots_eq (hc : Continues h 0 g) : g.roots = h.roots := by
  obtain ⟨pushed, hp, hr⟩ := hc.roots
  rw [hr, List.length_eq_zero_iff.mp hp]
  rfl

structure Sound (adorned : Set Handle) (h : Heap) : Prop where
  proper : Proper h.arena
  interned : Interned h
  bare : BareBut adorned h

theorem Sound.mono (hs : Sound K h) (hK : K ⊆ L) : Sound L h :=
  ⟨hs.proper, hs.interned, fun x r bytes hx hp hne hL ↦ hs.bare x r bytes hx hp hne (hL <| hK ·)⟩

/-- A change of all but the records and the two values that every record depends on. -/
structure Recasts (h g : Heap) : Prop where
  arena : g.arena = h.arena
  chars : g.chars = h.chars
  nil : g.nil = h.nil
  missingString : g.missingString = h.missingString

theorem Sound.recast (hs : Sound K h) (hr : Recasts h g) : Sound K g := by
  refine ⟨hr.arena ▸ hs.proper, hs.interned.of_eq hr.arena hr.chars hr.missingString, ?_⟩
  intro x r bytes hx hp hne
  rw [hr.nil]
  rw [hr.arena] at hx
  exact hs.bare x r bytes hx hp (hr.missingString ▸ hne)

/-- A change of the roots, the figures and the journal, that may also add symbols. -/
structure Reframes (h g : Heap) : Prop where
  arena : g.arena = h.arena
  chars : g.chars = h.chars
  values : g.values = h.values
  symbols : h.symbols <:+ g.symbols

theorem Reframes.recasts (hr : Reframes h g) : Recasts h g :=
  ⟨hr.arena, hr.chars, congrArg Prod.fst hr.values, congrArg (fun v ↦ v.2.1) hr.values⟩

theorem Grows.sound (hg : Grows h k g) (hn : Numbered g.arena) (hs : Sound K h) : Sound K g where
  proper := hg.evolves.proper hs.proper
  interned := hg.interned hs.proper hn hs.interned
  bare x r bytes hx hp hne hK := by
    have hm : g.missingString = h.missingString := congrArg (fun v ↦ v.2.1) hg.values
    rw [hg.toContinues.nil]
    rcases hg.origin hs.proper x r hx with hx | ha
    · exact hs.bare x r bytes hx hp (hm ▸ hne) hK
    · exact ha

/-- The record can take the place of the other without harm to interned text, which has other
attributes than before only where that is expected. -/
structure Replaces (expected : Prop) (r r' : Record) : Prop where
  marked : r'.marked = r.marked
  wellFormed : r.WellFormed → r'.WellFormed
  char_iff : ∀ bytes, r'.payload = .char bytes ↔ r.payload = .char bytes
  attributes : r'.attributes = r.attributes ∨ ∀ bytes, r.payload = .char bytes → expected

theorem Replaces.mono {p q : Prop} (hr : Replaces p r r') (hpq : p → q) : Replaces q r r' :=
  ⟨hr.marked, hr.wellFormed, hr.char_iff, hr.attributes.imp_right fun ha bytes hp ↦
    hpq (ha bytes hp)⟩

theorem Replaces.rename {p : Prop} (hr : Replaces p r r') (f : Handle → Handle) :
    Replaces p (r.rename f) (r'.rename f) := by
  refine ⟨hr.marked, fun hw ↦ ?_, fun bytes ↦ ?_, hr.attributes.imp (congrArg f) fun ha bytes hp ↦
    ha bytes ((r.payload.char_rename_iff f).mp hp)⟩
  · rw [Record.WellFormed, Record.rename, Payload.fits_rename] at hw ⊢
    exact hr.wellFormed hw
  · rw [Record.rename, Record.rename, Payload.char_rename_iff, Payload.char_rename_iff]
    exact hr.char_iff bytes

theorem Sound.rewrite (hs : Sound K h) (hx : h.arena.get? x = some r)
    (hr : Replaces (x = h.missingString ∨ x ∈ K) r r') :
    Sound K { h with arena := h.arena.modify x fun _ ↦ r' } := by
  have hq {q : Record} (hq : h.arena.get? x = some q) : q = r :=
    Option.some.inj (hq.symm.trans hx)
  refine ⟨Change.proper (.rewrite fun q hq' ↦ ?_) hs.proper, ?_, ?_⟩
  · rw [hq hq']
    exact ⟨hr.marked, hr.wellFormed⟩
  · refine (h.rewrites_modify x fun q hq' bytes ↦ ?_).interned hs.interned
    rw [hq hq']
    exact hr.char_iff bytes
  · intro y q bytes hy hp hne hK
    simp only [get?_modify] at hy
    split at hy
    · next hxy =>
      subst hxy
      rw [hx, Option.map_some, Option.some_inj] at hy
      subst hy
      have hp := (hr.char_iff bytes).mp hp
      rcases hr.attributes with ha | ha
      · exact ha.trans (hs.bare x r bytes hx hp hne hK)
      · exact absurd (ha bytes hp) (not_or_intro hne hK)
    · exact hs.bare y q bytes hy hp hne hK

structure Labelled (σ : Equiv.Perm Handle) (h₁ h₂ : Heap) : Prop where
  nil : h₂.nil = σ h₁.nil
  missingString : h₂.missingString = σ h₁.missingString
  unbound : h₂.unbound = σ h₁.unbound
  dimSymbol : h₂.dimSymbol = σ h₁.dimSymbol
  namesSymbol : h₂.namesSymbol = σ h₁.namesSymbol
  symbols : h₂.symbols = h₁.symbols.map fun s ↦ (s.1, σ s.2)
  roots : h₂.roots = h₁.roots.rename σ

theorem Labelled.rootHandles (hl : Labelled σ h₁ h₂) (P : List Handle) :
    h₂.rootHandles (P.map σ) = (h₁.rootHandles P).map σ := by
  simp [Heap.rootHandles, Roots.toList, Roots.rename, hl.nil, hl.missingString, hl.unbound,
    hl.symbols, hl.roots]

theorem Labelled.of_eq (hl : Labelled σ h₁ h₂) (hv₁ : g₁.values = h₁.values)
    (hv₂ : g₂.values = h₂.values) (hs : g₂.symbols = g₁.symbols.map fun s ↦ (s.1, σ s.2))
    (hr : g₂.roots = g₁.roots.rename σ) : Labelled σ g₁ g₂ := by
  obtain ⟨hn₁, hm₁, hu₁, hd₁, he₁⟩ : g₁.nil = h₁.nil ∧ g₁.missingString = h₁.missingString ∧
      g₁.unbound = h₁.unbound ∧ g₁.dimSymbol = h₁.dimSymbol ∧
      g₁.namesSymbol = h₁.namesSymbol := by
    simpa only [Heap.values, Prod.mk.injEq] using hv₁
  obtain ⟨hn₂, hm₂, hu₂, hd₂, he₂⟩ : g₂.nil = h₂.nil ∧ g₂.missingString = h₂.missingString ∧
      g₂.unbound = h₂.unbound ∧ g₂.dimSymbol = h₂.dimSymbol ∧
      g₂.namesSymbol = h₂.namesSymbol := by
    simpa only [Heap.values, Prod.mk.injEq] using hv₂
  exact ⟨by rw [hn₂, hn₁, hl.nil], by rw [hm₂, hm₁, hl.missingString],
    by rw [hu₂, hu₁, hl.unbound], by rw [hd₂, hd₁, hl.dimSymbol],
    by rw [he₂, he₁, hl.namesSymbol], hs, hr⟩

/-- Attributes are expected on the missing string, and on some of the text that both heaps have. -/
def Expects (adorned : Set (Handle × Handle)) (σ : Equiv.Perm Handle) (h : Heap) (x : Handle) :
    Prop :=
  x = h.missingString ∨ (x, σ x) ∈ adorned

/-- The renaming takes what the roots of the one heap lead to into what the roots of the other lead
to, records included. What is left over in either heap, and when it is going to be freed, does not
matter. -/
structure Twin (adorned : Set (Handle × Handle)) (σ : Equiv.Perm Handle) (pending : List Handle)
    (h₁ h₂ : Heap) : Prop extends Labelled σ h₁ h₂ where
  left : Sound (Prod.fst '' adorned) h₁
  right : Sound (Prod.snd '' adorned) h₂
  dim_mem : h₁.dimSymbol ∈ h₁.core
  names_mem : h₁.namesSymbol ∈ h₁.core
  live : ∀ x ∈ h₁.rootHandles pending, h₁.isLive x = true
  closed : ∀ x, h₁.Rooted pending x → ∀ y ∈ h₁.arena.linksOf x, h₁.isLive y = true
  get?_eq : ∀ x, h₁.Rooted pending x →
    h₂.arena.get? (σ x) = (h₁.arena.get? x).map (Record.rename σ)

namespace Twin

variable (ht : Twin A σ P h₁ h₂)

include ht

theorem linksOf_eq (hx : h₁.Rooted P x) :
    h₂.arena.linksOf (σ x) = (h₁.arena.linksOf x).map σ := by
  have hr₂ := ht.get?_eq x hx
  obtain ⟨r, hr⟩ := get?_of_isLive (Rooted.isLive hx)
  rw [hr, Option.map_some] at hr₂
  rw [linksOf_of_get? hr₂, linksOf_of_get? hr, Record.links_rename]

theorem rooted (hx : h₁.Rooted P x) : h₂.Rooted (P.map σ) (σ x) := by
  have hc {y : Handle} (hy : h₁.Rooted P y) : h₂.arena.contains (σ y) = true := by
    rw [contains, ht.get?_eq y hy, Option.isSome_map]
    exact hy.isLive
  induction hx with
  | root hx hl =>
    refine .root ?_ (hc (.root hx hl))
    rw [ht.rootHandles]
    exact List.mem_map_of_mem hx
  | @link x y hx hy hl ih =>
    refine .link ih ?_ (hc (.link hx hy hl))
    rw [ht.linksOf_eq hx]
    exact List.mem_map_of_mem hy

theorem exists_of_rooted (hy : h₂.Rooted (P.map σ) y) : ∃ x, h₁.Rooted P x ∧ σ x = y := by
  induction hy with
  | root hy _ =>
    rw [ht.rootHandles] at hy
    obtain ⟨x, hx, rfl⟩ := List.mem_map.mp hy
    exact ⟨x, .root hx (ht.live x hx), rfl⟩
  | link _ hz _ ih =>
    obtain ⟨x, hx, rfl⟩ := ih
    rw [ht.linksOf_eq hx] at hz
    obtain ⟨y, hy, rfl⟩ := List.mem_map.mp hz
    exact ⟨y, .link hx hy (ht.closed x hx y hy), rfl⟩

theorem rooted_iff : h₂.Rooted (P.map σ) (σ x) ↔ h₁.Rooted P x := by
  refine ⟨fun hx ↦ ?_, ht.rooted⟩
  obtain ⟨y, hy, he⟩ := ht.exists_of_rooted hx
  exact σ.injective he ▸ hy

theorem rooted_link (hx : h₁.Rooted P x) (hr : h₁.arena.get? x = some r) (hy : y ∈ r.links) :
    h₁.Rooted P y := by
  rw [← linksOf_of_get? hr] at hy
  exact .link hx hy (ht.closed x hx y hy)

theorem exists_records (hx : h₁.Rooted P x) :
    ∃ r, h₁.arena.get? x = some r ∧ h₂.arena.get? (σ x) = some (r.rename σ) ∧
      ∀ y ∈ r.links, h₁.Rooted P y := by
  obtain ⟨r, hr⟩ := get?_of_isLive (Rooted.isLive hx)
  exact ⟨r, hr, by rw [ht.get?_eq x hx, hr, Option.map_some], fun y ↦ ht.rooted_link hx hr⟩

theorem rooted_of_mem_roots (hx : x ∈ h₁.rootHandles P) : h₁.Rooted P x :=
  .root hx (ht.live x hx)

theorem mono (hA : A ⊆ B) : Twin B σ P h₁ h₂ :=
  ⟨ht.toLabelled, ht.left.mono (Set.image_mono hA), ht.right.mono (Set.image_mono hA), ht.dim_mem,
    ht.names_mem, ht.live, ht.closed, ht.get?_eq⟩

theorem congr (he : ∀ x, h₁.Rooted P x → σ' x = σ x) : Twin A σ' P h₁ h₂ := by
  have hroot {x : Handle} (hx : x ∈ h₁.rootHandles P) : σ' x = σ x :=
    he x (ht.rooted_of_mem_roots hx)
  have hcore {x : Handle} (hx : x ∈ h₁.core) : σ' x = σ x :=
    hroot (mem_rootHandles_of_mem_core hx)
  refine ⟨⟨?_, ?_, ?_, ?_, ?_, ?_, ?_⟩, ht.left, ht.right, ht.dim_mem, ht.names_mem, ht.live,
    ht.closed, fun x hx ↦ ?_⟩
  · rw [hcore h₁.nil_mem_core, ht.nil]
  · rw [hcore (by simp [core]), ht.missingString]
  · rw [hcore (by simp [core]), ht.unbound]
  · rw [hcore ht.dim_mem, ht.dimSymbol]
  · rw [hcore ht.names_mem, ht.namesSymbol]
  · rw [ht.symbols]
    refine List.map_congr_left fun s hs ↦ ?_
    have hmem : s.2 ∈ h₁.core := by
      simp only [core, List.mem_cons]
      exact .inr (.inr (.inr (List.mem_map_of_mem hs)))
    rw [hcore hmem]
  · rw [ht.roots, Roots.rename, Roots.rename, Roots.mk.injEq]
    constructor
    · exact List.map_congr_left fun x hx ↦ (hroot (by rw [mem_rootHandles]; tauto)).symm
    · exact List.map_congr_left fun x hx ↦ (hroot (by rw [mem_rootHandles]; tauto)).symm
  · rw [he x hx, ht.get?_eq x hx]
    cases hr : h₁.arena.get? x with
    | none => rfl
    | some r =>
      have hl : ∀ y ∈ r.links, σ y = σ' y := fun y hy ↦ (he y (ht.rooted_link hx hr hy)).symm
      rw [Option.map_some, Option.map_some, Record.rename_congr hl]

theorem recast (hr₁ : Recasts h₁ g₁) (hr₂ : Recasts h₂ g₂) (hl : Labelled σ g₁ g₂)
    (hd : g₁.dimSymbol ∈ g₁.core) (he : g₁.namesSymbol ∈ g₁.core)
    (hroots : ∀ x ∈ g₁.rootHandles Q, h₁.Rooted P x) : Twin A σ Q g₁ g₂ := by
  have hrooted {x : Handle} (hx : g₁.Rooted Q x) : h₁.Rooted P x := by
    unfold Rooted at hx
    rw [hr₁.arena] at hx
    exact hx.trans fun y hy _ ↦ hroots y hy
  refine ⟨hl, ht.left.recast hr₁, ht.right.recast hr₂, hd, he, fun x hx ↦ ?_,
    fun x hx y hy ↦ ?_, fun x hx ↦ ?_⟩
  · rw [Heap.isLive, hr₁.arena]
    exact (hroots x hx).isLive
  · rw [Heap.isLive, hr₁.arena]
    exact ht.closed x (hrooted hx) y (hr₁.arena ▸ hy)
  · rw [hr₁.arena, hr₂.arena]
    exact ht.get?_eq x (hrooted hx)

theorem reframe (hr₁ : Reframes h₁ g₁) (hr₂ : Reframes h₂ g₂)
    (hs : g₂.symbols = g₁.symbols.map fun s ↦ (s.1, σ s.2)) (hr : g₂.roots = g₁.roots.rename σ)
    (hroots : ∀ x ∈ g₁.rootHandles Q, h₁.Rooted P x) : Twin A σ Q g₁ g₂ := by
  obtain ⟨hn, hm, hu, hd, he⟩ : g₁.nil = h₁.nil ∧ g₁.missingString = h₁.missingString ∧
      g₁.unbound = h₁.unbound ∧ g₁.dimSymbol = h₁.dimSymbol ∧
      g₁.namesSymbol = h₁.namesSymbol := by
    simpa only [Heap.values, Prod.mk.injEq] using hr₁.values
  have hcore {x : Handle} (hx : x ∈ h₁.core) : x ∈ g₁.core := by
    have hsub := (hr₁.symbols.map Prod.snd).subset
    simp only [core, List.mem_cons, hn, hm, hu] at hx ⊢
    exact hx.imp_right (Or.imp_right (Or.imp_right fun hx ↦ hsub hx))
  exact ht.recast hr₁.recasts hr₂.recasts (ht.toLabelled.of_eq hr₁.values hr₂.values hs hr)
    (hd ▸ hcore ht.dim_mem) (he ▸ hcore ht.names_mem) hroots

omit ht

theorem rootHandles_eq_of_grows (hg : Grows h 0 g) (hs : g.symbols = h.symbols) :
    g.rootHandles [] = h.rootHandles [] := by
  obtain ⟨hn, hm, hu, _⟩ : g.nil = h.nil ∧ g.missingString = h.missingString ∧
      g.unbound = h.unbound ∧ _ := by simpa only [Heap.values, Prod.mk.injEq] using hg.values
  rw [Heap.rootHandles, hn, hm, hu, hs, hg.toContinues.roots_eq, Heap.rootHandles]

theorem rooted_of_grows (ht : Twin A σ [] h₁ h₂) (hg : Grows h₁ 0 g₁) (hn : Numbered g₁.arena)
    (hs : g₁.symbols = h₁.symbols) (hx : g₁.Rooted [] x) : h₁.Rooted [] x := by
  unfold Rooted at hx
  rw [rootHandles_eq_of_grows hg hs] at hx
  induction hx with
  | root hx _ => exact ht.rooted_of_mem_roots hx
  | link _ hy _ ih =>
    rw [linksOf, hg.get?_eq ht.left.proper hn _ ih] at hy
    exact .link ih hy (ht.closed _ ih _ hy)

theorem grow (ht : Twin A σ [] h₁ h₂) (hg₁ : Grows h₁ 0 g₁) (hg₂ : Grows h₂ 0 g₂)
    (hn₁ : Numbered g₁.arena) (hn₂ : Numbered g₂.arena) (hs₁ : g₁.symbols = h₁.symbols)
    (hs₂ : g₂.symbols = h₂.symbols) : Twin A σ [] g₁ g₂ := by
  have hget₁ := hg₁.get?_eq ht.left.proper hn₁
  have hget₂ := hg₂.get?_eq ht.right.proper hn₂
  have hrooted {x : Handle} (hx : g₁.Rooted [] x) : h₁.Rooted [] x :=
    ht.rooted_of_grows hg₁ hn₁ hs₁ hx
  have hlive {x : Handle} (hx : h₁.Rooted [] x) : g₁.isLive x = true := by
    rw [Heap.isLive, contains, hget₁ x hx]
    exact hx.isLive
  obtain ⟨hd, he⟩ : g₁.dimSymbol = h₁.dimSymbol ∧ g₁.namesSymbol = h₁.namesSymbol :=
    Prod.mk.inj (congrArg (fun v ↦ v.2.2.2) hg₁.values)
  refine ⟨ht.toLabelled.of_eq hg₁.values hg₂.values ?_ ?_, hg₁.sound hn₁ ht.left,
    hg₂.sound hn₂ ht.right, hd ▸ hg₁.keeps.mem_core ht.dim_mem,
    he ▸ hg₁.keeps.mem_core ht.names_mem, fun x hx ↦ ?_, fun x hx y hy ↦ ?_, fun x hx ↦ ?_⟩
  · rw [hs₁, hs₂, ht.symbols]
  · rw [hg₁.toContinues.roots_eq, hg₂.toContinues.roots_eq, ht.roots]
  · rw [rootHandles_eq_of_grows hg₁ hs₁] at hx
    exact hlive (ht.rooted_of_mem_roots hx)
  · rw [linksOf, hget₁ x (hrooted hx)] at hy
    exact hlive (.link (hrooted hx) hy (ht.closed x (hrooted hx) y hy))
  · rw [hget₁ x (hrooted hx), hget₂ (σ x) (ht.rooted (hrooted hx))]
    exact ht.get?_eq x (hrooted hx)

theorem pair (ht : Twin A σ [] h₁ h₂) (x₂ : Handle) (hx₁ : h₁.arena.get? x₁ = some r)
    (hx₂ : h₂.arena.get? x₂ = some (r.rename σ)) (hl : ∀ y ∈ r.links, h₁.Rooted [] y)
    (hiff : ∀ y, h₁.Rooted [] y → (y = x₁ ↔ σ y = x₂)) :
    ∃ σ' : Equiv.Perm Handle,
      (∀ y, h₁.Rooted [] y → σ' y = σ y) ∧ σ' x₁ = x₂ ∧ Twin A σ' [x₁] h₁ h₂ := by
  let σ' : Equiv.Perm Handle := σ.trans (Equiv.swap (σ x₁) x₂)
  have hagree : ∀ y, h₁.Rooted [] y → σ' y = σ y := by
    intro y hy
    change Equiv.swap (σ x₁) x₂ (σ y) = σ y
    by_cases hyx : y = x₁
    · rw [← hyx, (hiff y hy).mp hyx, Equiv.swap_self]
      rfl
    · exact Equiv.swap_apply_of_ne_of_ne (fun he ↦ hyx (σ.injective he))
        fun he ↦ hyx ((hiff y hy).mpr he)
  have hx : σ' x₁ = x₂ := Equiv.swap_apply_left _ _
  have ht' := ht.congr hagree
  have hcases {y : Handle} (hy : h₁.Rooted [x₁] y) : y = x₁ ∨ h₁.Rooted [] y := by
    induction hy with
    | root hy hl =>
      rw [rootHandles_eq, List.mem_append, List.mem_singleton] at hy
      exact hy.symm.imp_right (ht.rooted_of_mem_roots ·)
    | link _ hz hlz ih =>
      rcases ih with rfl | ih
      · exact .inr (hl _ (linksOf_of_get? hx₁ ▸ hz))
      · exact .inr (.link ih hz hlz)
  refine ⟨σ', hagree, hx, ht'.toLabelled, ht.left, ht.right, ht.dim_mem, ht.names_mem,
    fun y hy ↦ ?_, fun y hy z hz ↦ ?_, fun y hy ↦ ?_⟩
  · rw [rootHandles_eq, List.mem_append, List.mem_singleton] at hy
    rcases hy with hy | rfl
    · exact ht.live y hy
    · exact contains_of_get? hx₁
  · rcases hcases hy with rfl | hy
    · exact (hl z (linksOf_of_get? hx₁ ▸ hz)).isLive
    · exact ht.closed y hy z hz
  · rcases hcases hy with rfl | hy
    · rw [hx, hx₁, hx₂, Option.map_some, Record.rename_congr fun z hz ↦ (hagree z (hl z hz)).symm]
    · exact ht'.get?_eq y hy

theorem rooted_nil (ht : Twin A σ P h₁ h₂) : h₁.Rooted P h₁.nil :=
  ht.rooted_of_mem_roots List.mem_cons_self

theorem rooted_core (ht : Twin A σ P h₁ h₂) (hx : x ∈ h₁.core) : h₁.Rooted P x :=
  ht.rooted_of_mem_roots (mem_rootHandles_of_mem_core hx)

theorem rooted_missingString (ht : Twin A σ P h₁ h₂) : h₁.Rooted P h₁.missingString :=
  ht.rooted_core (List.mem_cons_of_mem _ List.mem_cons_self)

theorem rooted_unbound (ht : Twin A σ P h₁ h₂) : h₁.Rooted P h₁.unbound :=
  ht.rooted_core (List.mem_cons_of_mem _ (List.mem_cons_of_mem _ List.mem_cons_self))

theorem eq_missing_iff (ht : Twin A σ P h₁ h₂) : σ x = h₂.missingString ↔ x = h₁.missingString := by
  rw [ht.missingString, σ.injective.eq_iff]

theorem eq_nil_iff (ht : Twin A σ P h₁ h₂) : σ x = h₂.nil ↔ x = h₁.nil := by
  rw [ht.nil, σ.injective.eq_iff]

theorem spells_iff (ht : Twin A σ P h₁ h₂) (hx : h₁.Rooted P x) :
    h₂.Spells (σ x) bytes ↔ h₁.Spells x bytes := by
  unfold Spells
  rw [ht.get?_eq x hx]
  cases h₁.arena.get? x with
  | none => simp
  | some r => simp [Record.rename, Payload.char_rename_iff]

end Twin

/-- The renaming stays as it is for what the roots led to, and still lead to. -/
structure Advances (σ : Equiv.Perm Handle) (h : Heap) (σ' : Equiv.Perm Handle) (g : Heap) :
    Prop where
  rooted : ∀ x, h.Rooted [] x → g.Rooted [] x
  agree : ∀ x, h.Rooted [] x → σ' x = σ x

theorem Advances.trans {σ'' : Equiv.Perm Handle} {k : Heap} (hab : Advances σ h σ' g)
    (hbc : Advances σ' g σ'' k) : Advances σ h σ'' k where
  rooted x hx := hbc.rooted x (hab.rooted x hx)
  agree x hx := (hbc.agree x (hab.rooted x hx)).trans (hab.agree x hx)

/-- Two heaps that were twins have brought forth a pair of handles, and are twins together with
these. -/
def Pairs (A : Set (Handle × Handle)) (σ : Equiv.Perm Handle) (h₁ : Heap)
    (p₁ p₂ : Handle × Heap) : Prop :=
  ∃ σ', Advances σ h₁ σ' p₁.2 ∧ σ' p₁.1 = p₂.1 ∧ Twin A σ' [p₁.1] p₁.2 p₂.2

/-- The roots lead to the text that attributes are expected on, in either heap. -/
def Retains (A : Set (Handle × Handle)) (σ : Equiv.Perm Handle) (h : Heap) : Prop :=
  ∀ p ∈ A, h.Rooted [] p.1 ∧ σ p.1 = p.2

theorem Advances.retains (ha : Advances σ h σ' g) (hk : Retains A σ h) : Retains A σ' g :=
  fun p hp ↦ ⟨ha.rooted p.1 (hk p hp).1, (ha.agree p.1 (hk p hp).1).trans (hk p hp).2⟩

theorem symbols_settle (h : Heap) (pending : List Handle) :
    (h.settle pending).symbols = h.symbols := by
  unfold settle
  split <;> rfl

theorem symbols_alloc (h : Heap) (tag : TypeTag) (payload : Payload) :
    (h.alloc tag payload).2.symbols = h.symbols := by
  rw [alloc_eq]
  exact h.symbols_settle _

theorem symbols_intern (h : Heap) (bytes : List UInt8) :
    (h.intern bytes).2.symbols = h.symbols := by
  unfold intern
  split
  · rfl
  · exact h.symbols_alloc .char (.char bytes)

theorem Sound.get?_of_mem_chars (hs : Sound K h) (hx : (bytes, x) ∈ h.chars) (hK : x ∉ K) :
    h.arena.get? x = some (.new .char h.nil (.char bytes)) := by
  obtain ⟨r, hr, hp⟩ := hs.interned.spells bytes x hx
  have htag := hs.proper.wellFormed.get? hr
  rw [Record.WellFormed, hp] at htag
  have ha := hs.bare x r bytes hr hp (hs.interned.ne_missing bytes x hx) hK
  have hm := hs.proper.unmarked.get? hr
  obtain ⟨t, m, attributes, p⟩ := r
  rw [hr, Record.new, Option.some_inj, Record.mk.injEq]
  exact ⟨eq_of_beq htag, hm, ha, hp⟩

namespace Twin

variable {tag : TypeTag} {payload' : Payload}

theorem alloc (ht : Twin A σ [] h₁ h₂) (payload : Payload) (hpay : payload' = payload.rename σ)
    (hf : payload.fits tag = true) (htag : tag ≠ .char)
    (hc : ∀ y ∈ payload.children, h₁.Rooted [] y)
    (hn₁ : Numbered (h₁.alloc tag payload).2.arena)
    (hn₂ : Numbered (h₂.alloc tag payload').2.arena) :
    Pairs A σ h₁ (h₁.alloc tag payload) (h₂.alloc tag payload') := by
  subst hpay
  have hg₁ := h₁.grows_alloc tag payload hf htag
  have hg₂ := h₂.grows_alloc tag (payload.rename σ) ((payload.fits_rename σ tag).trans hf) htag
  have hg := ht.grow hg₁ hg₂ hn₁ hn₂ (symbols_alloc ..) (symbols_alloc ..)
  have hrooted (y : Handle) (hy : h₁.Rooted [] y) : (h₁.alloc tag payload).2.Rooted [] y :=
    hg₁.reach ht.left.proper hn₁ hy
  have hne {h : Heap} {payload : Payload} (hp : Proper h.arena)
      (hn : Numbered (h.alloc tag payload).2.arena) {y : Handle} (hy : h.Rooted [] y) :
      y ≠ (h.alloc tag payload).1 := by
    have hs : Numbered (h.settle payload.children).arena := by
      rw [alloc_eq] at hn
      exact (size_slots_insert _ _).1.trans hn
    exact ne_alloc_of_isLive hp hn ((h.grows_settle _).reach hp hs hy).contains
  obtain ⟨σ', hagree, hx, ht'⟩ := hg.pair (h₂.alloc tag (payload.rename σ)).1
    (h₁.get?_alloc ht.left.proper hn₁)
    (by rw [h₂.get?_alloc ht.right.proper hn₂, ht.nil]; rfl)
    (List.forall_mem_cons.mpr ⟨hrooted _ ht.rooted_nil, fun y hy ↦ hrooted y (hc y hy)⟩)
    fun y hy ↦ by
      have hy := ht.rooted_of_grows hg₁ hn₁ (symbols_alloc ..) hy
      exact iff_of_false (hne ht.left.proper hn₁ hy) (hne ht.right.proper hn₂ (ht.rooted hy))
  exact ⟨σ', ⟨hrooted, fun y hy ↦ hagree y (hrooted y hy)⟩, hx, ht'⟩

/-- One of the heaps may know the text, and the other one have forgotten it. Then the text has no
attributes, because the heaps hold on to text that has. -/
theorem intern (ht : Twin A σ [] h₁ h₂) (hk : Retains A σ h₁) (bytes : List UInt8)
    (hn₁ : Numbered (h₁.intern bytes).2.arena) (hn₂ : Numbered (h₂.intern bytes).2.arena) :
    Pairs A σ h₁ (h₁.intern bytes) (h₂.intern bytes) := by
  have hg₁ := h₁.grows_intern bytes
  have hg₂ := h₂.grows_intern bytes
  have hg := ht.grow hg₁ hg₂ hn₁ hn₂ (symbols_intern ..) (symbols_intern ..)
  have hm₁ := (ht.left.interned.intern ht.left.proper bytes hn₁).2
  have hm₂ := (ht.right.interned.intern ht.right.proper bytes hn₂).2
  have hi₁ := hg.left.interned
  have hi₂ := hg.right.interned
  have hrooted (y : Handle) (hy : h₁.Rooted [] y) : (h₁.intern bytes).2.Rooted [] y :=
    hg₁.reach ht.left.proper hn₁ hy
  have hiff (y : Handle) (hy : (h₁.intern bytes).2.Rooted [] y) :
      y = (h₁.intern bytes).1 ↔ σ y = (h₂.intern bytes).1 := by
    constructor
    · rintro rfl
      refine hi₂.eq_of_spells ((hg.spells_iff hy).mpr (hi₁.spells _ _ hm₁))
        (hi₂.spells _ _ hm₂) ?_ (hi₂.ne_missing _ _ hm₂)
      exact fun he ↦ hi₁.ne_missing _ _ hm₁ (hg.eq_missing_iff.mp he)
    · intro he
      have hs := hi₂.spells _ _ hm₂
      have hne := hi₂.ne_missing _ _ hm₂
      rw [← he] at hs hne
      exact hi₁.eq_of_spells ((hg.spells_iff hy).mp hs) (hi₁.spells _ _ hm₁)
        (fun he' ↦ hne (hg.eq_missing_iff.mpr he')) (hi₁.ne_missing _ _ hm₁)
  have hrecord : ∃ r, (h₁.intern bytes).2.arena.get? (h₁.intern bytes).1 = some r ∧
      (h₂.intern bytes).2.arena.get? (h₂.intern bytes).1 = some (r.rename σ) ∧
      ∀ y ∈ r.links, (h₁.intern bytes).2.Rooted [] y := by
    by_cases hx : (h₁.intern bytes).2.Rooted [] (h₁.intern bytes).1
    · obtain ⟨r, hr, hr₂, hl⟩ := hg.exists_records hx
      exact ⟨r, hr, (hiff _ hx).mp rfl ▸ hr₂, hl⟩
    · have hx₁ : (h₁.intern bytes).1 ∉ Prod.fst '' A := by
        rintro ⟨p, hp, he⟩
        exact hx (he ▸ hrooted p.1 (hk p hp).1)
      have hx₂ : (h₂.intern bytes).1 ∉ Prod.snd '' A := by
        rintro ⟨p, hp, he⟩
        have hp₁ := hrooted p.1 (hk p hp).1
        exact hx ((hiff p.1 hp₁).mpr ((hk p hp).2.trans he) ▸ hp₁)
      refine ⟨_, hg.left.get?_of_mem_chars hm₁ hx₁, ?_,
        List.forall_mem_cons.mpr ⟨hg.rooted_nil, nofun⟩⟩
      rw [hg.right.get?_of_mem_chars hm₂ hx₂, hg.nil]
      rfl
  obtain ⟨r, hr₁, hr₂, hl⟩ := hrecord
  obtain ⟨σ', hagree, hx, ht'⟩ := hg.pair (h₂.intern bytes).1 hr₁ hr₂ hl hiff
  exact ⟨σ', ⟨hrooted, fun y hy ↦ hagree y (hrooted y hy)⟩, hx, ht'⟩

theorem rewrite (ht : Twin A σ P h₁ h₂) (hx : h₁.Rooted P x) (hr : h₁.arena.get? x = some r)
    (hl : ∀ y ∈ r'.links, h₁.Rooted P y)
    (hrep : Replaces (Expects A σ h₁ x) r r') :
    Twin A σ P { h₁ with arena := h₁.arena.modify x fun _ ↦ r' }
      { h₂ with arena := h₂.arena.modify (σ x) fun _ ↦ r'.rename σ } := by
  have hr₂ : h₂.arena.get? (σ x) = some (r.rename σ) := by
    rw [ht.get?_eq x hx, hr, Option.map_some]
  have hrep₁ : Replaces (x = h₁.missingString ∨ x ∈ Prod.fst '' A) r r' :=
    hrep.mono (Or.imp_right fun hx ↦ ⟨_, hx, rfl⟩)
  have hrep₂ : Replaces (σ x = h₂.missingString ∨ σ x ∈ Prod.snd '' A) (r.rename σ)
      (r'.rename σ) :=
    (hrep.rename σ).mono (Or.imp ht.eq_missing_iff.mpr fun hx ↦ ⟨_, hx, rfl⟩)
  have hrooted {y : Handle}
      (hy : Rooted { h₁ with arena := h₁.arena.modify x fun _ ↦ r' } P y) : h₁.Rooted P y := by
    induction hy with
    | root hy _ => exact ht.rooted_of_mem_roots hy
    | @link z y _ hy _ ih =>
      simp only [linksOf, get?_modify] at hy
      by_cases hxz : x = z
      · subst hxz
        rw [if_pos rfl, hr] at hy
        exact hl y hy
      · rw [if_neg hxz] at hy
        exact .link ih hy (ht.closed z ih y hy)
  refine ⟨ht.toLabelled.of_eq rfl rfl ht.symbols ht.roots, ht.left.rewrite hr hrep₁,
    ht.right.rewrite hr₂ hrep₂, ht.dim_mem, ht.names_mem,
    fun y hy ↦ (contains_modify _).trans (ht.live y hy), fun y hy z hz ↦ ?_, fun y hy ↦ ?_⟩
  · have hy := hrooted hy
    refine (contains_modify _).trans ?_
    simp only [linksOf, get?_modify] at hz
    by_cases hxy : x = y
    · subst hxy
      rw [if_pos rfl, hr] at hz
      exact (hl z hz).isLive
    · rw [if_neg hxy] at hz
      exact ht.closed y hy z hz
  · have hy := hrooted hy
    simp only [get?_modify]
    by_cases hxy : x = y
    · subst hxy
      rw [if_pos rfl, if_pos rfl, hr, hr₂]
      rfl
    · rw [if_neg hxy, if_neg fun he ↦ hxy (σ.injective he)]
      exact ht.get?_eq y hy

end Twin

end Heap

end TaggedHeap
