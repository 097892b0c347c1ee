import TaggedHeap.Proofs.Composition

namespace TaggedHeap.Heap

open Arena TaggedHeap.Action

variable {a b g h h' : Heap} {x : Handle} {ds log since : List Deed} {ordinal threshold : Nat}

theorem Keeps.missingString (hk : Keeps a b) : b.missingString = a.missingString :=
  congrArg (fun v ↦ v.2.1) hk.values

theorem keeps_runAll (program : List Action) (h : Heap) : Keeps h (runAll h program) := by
  induction program generalizing h with
  | nil => exact keeps_of_eq rfl rfl rfl
  | cons a program ih => exact (a.keeps h).trans (ih (a.run h).2)

theorem Carries.isText_missing (hc : Carries h ds h') (hm : h.IsText h.missingString) :
    h'.IsText h'.missingString := by
  have hcore : h.missingString ∈ h.core := List.mem_cons_of_mem _ List.mem_cons_self
  rw [hc.toKeeps.missingString]
  exact hc.isText hm (hc.live _ hcore hm.isLive)

theorem Moves.isText_missing (hm : Moves h since h') (hp : Proper h.arena)
    (hn : Numbered h'.arena) (ht : h.IsText h.missingString) : h'.IsText h'.missingString :=
  hm.preserve (I := fun _ g ↦ g.IsText g.missingString) [] hp hn ht
    fun _ _ _ _ hp hn ht hm ↦ (hm.carries hp hn).isText_missing ht

theorem kempt_bare (seed : UInt32) : Kempt (bare seed) where
  proper := (coherent_bare seed).proper
  interned := (sound_bare (K := ∅) seed).interned
  missing := by
    have hm := get?_bare seed (bare seed).missingString
    rw [if_pos rfl] at hm
    exact ⟨_, _, hm, rfl⟩

theorem exists_unbound (seed : UInt32) :
    ∃ g x, Builds (bare seed) g ∧ g.isLive x = true ∧ g.symbols = [] ∧
      (bare seed).addUnbound = { g with unbound := x } := by
  have hk := kempt_bare seed
  let p := (bare seed).internText ""
  let payload := Payload.symbol p.1 p.2.nil p.2.nil
  let a := p.2.alloc .symbol payload
  have hsize : (bare seed).addUnbound.arena.slots.size ≤ 4 := (coherent_addUnbound seed).2
  have hn : Numbered a.2.arena :=
    numbered_of_size_le (((size_slots_modify _).ge.trans hsize).trans (by decide))
  have hp : Kempt p.2 :=
    ((bare seed).grows_intern _).kempt hk ((p.2.continues_alloc .symbol payload rfl).numbered hn)
  have hnew := p.2.get?_alloc hp.proper hn
  have ha : Builds (bare seed) a.2 :=
    ((bare seed).builds_intern _).trans (p.2.builds_alloc .symbol payload rfl rfl)
  have hm := ha.trans (builds_rewrite (x := a.1)
    (g := fun r ↦ { r with payload := .symbol p.1 a.1 a.2.nil }) fun r hr ↦ by
      obtain rfl := Option.some.inj (hnew.symm.trans hr)
      exact ⟨⟨rfl, rfl, fun _ ↦ rfl, rfl, fun _ ↦ .inl⟩, rfl⟩)
  have hs : a.2.symbols = [] := (p.2.symbols_alloc .symbol payload).trans (symbols_intern _ _)
  exact ⟨_, a.1, hm, (contains_modify _).trans (contains_of_get? hnew), hs, rfl⟩

theorem Builds.isText_missing (hb : Builds a b) (hp : Proper a.arena) (hn : Numbered b.arena)
    (ht : a.IsText a.missingString) : b.IsText b.missingString := by
  obtain ⟨log, hl, -⟩ := hb
  exact hl.isText_missing hp hn ht

theorem kempt_addUnbound (seed : UInt32) : Kempt (bare seed).addUnbound := by
  obtain ⟨σ, ht⟩ := twin_addUnbound seed seed
  obtain ⟨g, x, hb, -, -, he⟩ := exists_unbound seed
  have hn : Numbered (bare seed).addUnbound.arena :=
    numbered_of_size_le ((coherent_addUnbound seed).2.trans (by decide))
  refine ⟨ht.left.proper, ht.left.interned, ?_⟩
  rw [he] at hn ⊢
  exact hb.isText_missing (kempt_bare seed).proper hn (kempt_bare seed).missing

theorem exists_created (ordinal threshold : Nat) :
    ∃ g dim names, Builds (bare (seedOf ordinal)).addUnbound g ∧ Numbered g.arena ∧
      create ordinal threshold =
        { g with dimSymbol := dim, namesSymbol := names, threshold := threshold } := by
  have hk := kempt_addUnbound (seedOf ordinal)
  have hsize := (coherent_addUnbound (seedOf ordinal)).2
  unfold create
  generalize (bare (seedOf ordinal)).addUnbound = h at hk hsize ⊢
  let p := h.install "dim"
  let q := p.2.install "names"
  have hps : p.2.arena.slots.size ≤ 6 := (h.size_slots_install_le _).trans (by omega)
  have hqs : q.2.arena.slots.size ≤ 8 := (p.2.size_slots_install_le _).trans (by omega)
  have hpn : Numbered p.2.arena := numbered_of_size_le (hps.trans (by decide))
  have hqn : Numbered q.2.arena := numbered_of_size_le hqs
  have hp := builds_install hk hpn
  have hq := builds_install ((h.grows_install "dim").kempt hk hpn) hqn
  exact ⟨q.2, p.1, q.1, hp.trans hq, hqn, rfl⟩

theorem create_induction {I : Heap → Prop} (hbare : ∀ seed, I (bare seed))
    (hcarries : ∀ g ds k, Proper g.arena → Numbered k.arena → Carries g ds k →
      (∀ x, .renamed x ∉ ds) → I g → I k)
    (hunbound : ∀ g x, g.isLive x = true → g.symbols = [] → I g → I { g with unbound := x })
    (hvalues : ∀ g dim names threshold, I g →
      I { g with dimSymbol := dim, namesSymbol := names, threshold := threshold })
    (ordinal threshold : Nat) : I (create ordinal threshold) := by
  have hbuilds {a b : Heap} (hb : Builds a b) (hp : Proper a.arena) (hn : Numbered b.arena)
      (ha : I a) : I b := by
    obtain ⟨log, hl, hd⟩ := hb
    have hrenamed (x : Handle) : .renamed x ∉ log := fun hx ↦ by
      obtain ⟨freed, hf⟩ := hd _ hx
      cases hf
    have hI := hl.preserve (I := fun log g ↦ (∀ x, .renamed x ∉ log) → I g) [] hp hn
      (fun _ ↦ ha) fun log g ds k hp hn hg hm hds ↦ ?_
    · exact hI (by simpa using hrenamed)
    · exact hcarries g ds k hp hn (hm.carries hp hn) (fun x hx ↦ hds x (List.mem_append_left _ hx))
        (hg fun x hx ↦ hds x (List.mem_append_right _ hx))
  obtain ⟨g, x, hg, hx, hs, he⟩ := exists_unbound (seedOf ordinal)
  obtain ⟨k, dim, names, hk, hn, hcreate⟩ := exists_created ordinal threshold
  have hkempt := kempt_addUnbound (seedOf ordinal)
  have hgn : Numbered (bare (seedOf ordinal)).addUnbound.arena :=
    numbered_of_size_le ((coherent_addUnbound (seedOf ordinal)).2.trans (by decide))
  rw [he] at hk hkempt hgn
  have hI := hbuilds hg (kempt_bare _).proper hgn (hbare _)
  rw [hcreate]
  exact hvalues k dim names threshold (hbuilds hk hkempt.proper hn (hunbound g x hx hs hI))

theorem kempt_create (ordinal threshold : Nat) : Kempt (create ordinal threshold) := by
  have hm : (create ordinal threshold).IsText (create ordinal threshold).missingString :=
    create_induction (I := fun g ↦ g.IsText g.missingString)
      (fun seed ↦ (kempt_bare seed).missing) (fun _ _ _ _ _ hc _ ht ↦ hc.isText_missing ht)
      (fun _ _ _ _ ht ↦ ht) (fun _ _ _ _ ht ↦ ht) ordinal threshold
  exact ⟨(coherent_create ordinal threshold).proper, interned_create ordinal threshold, hm⟩

def Done (h : Heap) (program : List Action) (d : Deed) : Prop :=
  ∃ before a after, program = before ++ a :: after ∧ a.Does (runAll h before) d

theorem moves_runAll (ha : Arises h) (hk : Kempt h) (program : List Action)
    (hn : Numbered (runAll h program).arena) :
    Kempt (runAll h program) ∧
      ∃ log, Moves h log (runAll h program) ∧ ∀ d ∈ log, Done h program d := by
  induction program generalizing h with
  | nil => exact ⟨hk, [], .refl, nofun⟩
  | cons a program ih =>
    have hb := a.arises ha
    have hbn : Numbered (a.run h).2.arena := (keeps_runAll program _).numbered hn
    obtain ⟨new, hm, hd⟩ := a.moves hk hbn
    have hbk : Kempt (a.run h).2 :=
      ⟨hb.proper, hb.interned hbn, hm.isText_missing hk.proper hbn hk.missing⟩
    obtain ⟨hk', log, hl, hd'⟩ := ih hb hbk hn
    refine ⟨hk', log ++ new, hm.trans hl, fun d hdl ↦ ?_⟩
    rcases List.mem_append.mp hdl with hdl | hdl
    · obtain ⟨before, b, after, rfl, hdoes⟩ := hd' d hdl
      exact ⟨a :: before, b, after, rfl, hdoes⟩
    · exact ⟨[], a, program, rfl, hd d hdl⟩

theorem exists_program (ha : Arises h) :
    ∃ ordinal threshold program, h = runAll (create ordinal threshold) program := by
  have hsnoc {g : Heap} (a : Action) :
      (∃ ordinal threshold program, g = runAll (create ordinal threshold) program) →
      ∃ ordinal threshold program, (a.run g).2 = runAll (create ordinal threshold) program := by
    rintro ⟨ordinal, threshold, program, rfl⟩
    exact ⟨ordinal, threshold, program ++ [a], by simp [Action.runAll]⟩
  induction ha with
  | create ordinal threshold => exact ⟨ordinal, threshold, [], rfl⟩
  | run r _ _ ih => exact hsnoc (.request r) ih
  | take x _ ih => exact hsnoc (.take x) ih
  | letGo x _ ih => exact hsnoc (.letGo x) ih
  | report e _ ih => exact hsnoc (.report e) ih
  | drain _ ih => exact hsnoc .drain ih

/-- What holds of the first two records of a heap and is preserved by moves holds of every heap that
arises, if the symbols that a heap has for its own use do not matter. -/
theorem Arises.induction {I : Heap → Prop} (ha : Arises h) (hn : Numbered h.arena)
    (hbare : ∀ seed, I (bare seed))
    (hcarries : ∀ g ds k, Proper g.arena → Numbered k.arena → Carries g ds k → I g → I k)
    (hvalues : ∀ g unbound dim names threshold, I g → I { g with
      unbound := unbound, dimSymbol := dim, namesSymbol := names, threshold := threshold }) :
    I h := by
  obtain ⟨ordinal, threshold, program, rfl⟩ := exists_program ha
  have hcreate : I (create ordinal threshold) := by
    apply create_induction hbare
    · intro g ds k hp hn hc _ hg
      exact hcarries g ds k hp hn hc hg
    · intro g x _ _ hg
      exact hvalues g x g.dimSymbol g.namesSymbol g.threshold hg
    · intro g dim names threshold hg
      exact hvalues g g.unbound dim names threshold hg
  have hk := kempt_create ordinal threshold
  obtain ⟨-, log, hl, -⟩ := moves_runAll (.create ordinal threshold) hk program hn
  exact hl.preserve (I := fun _ g ↦ I g) [] hk.proper hn hcreate
    fun _ g ds k hp hn hI hm ↦ hcarries g ds k hp hn (hm.carries hp hn) hI

/-- The deeds of a new heap: two records to begin with, and three symbols with their names. -/
def founding : List Deed :=
  List.replicate 6 (.allocated none) ++ List.replicate 2 .founded

/-- All deeds of a heap, which has come from a new one by moves. -/
def Chronicle (ordinal threshold : Nat) (log : List Deed) (h : Heap) : Prop :=
  ∃ since, Moves (create ordinal threshold) since h ∧ log = since ++ founding

theorem exists_chronicle (ordinal threshold : Nat) (program : List Action)
    (hn : Numbered (runAll (create ordinal threshold) program).arena) :
    ∃ since, Chronicle ordinal threshold (since ++ founding)
        (runAll (create ordinal threshold) program) ∧
      ∀ d ∈ since, Done (create ordinal threshold) program d := by
  have hk := kempt_create ordinal threshold
  obtain ⟨-, since, hl, hd⟩ := moves_runAll (.create ordinal threshold) hk program hn
  exact ⟨since, ⟨since, hl, rfl⟩, hd⟩

end TaggedHeap.Heap
