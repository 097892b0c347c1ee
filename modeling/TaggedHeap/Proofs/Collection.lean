import TaggedHeap.Proofs.Arising

namespace TaggedHeap.Heap

open Arena

variable {g h : Heap} {x y : Handle} {pending : List Handle}

/-- The heaps between the operations of programs, and in the middle of them. -/
def Underway (g : Heap) : Prop :=
  ∃ h, Arises h ∧ Evolves h.arena g.arena

theorem Arises.underway (ha : Arises h) : Underway h :=
  ⟨h, ha, .refl⟩

theorem Underway.continues {k : Nat} (hg : Underway g) (hc : Continues g k h) : Underway h := by
  obtain ⟨a, ha, he⟩ := hg
  exact ⟨a, ha, Relation.ReflTransGen.trans he hc.evolves⟩

theorem Underway.proper (hg : Underway g) : Proper g.arena := by
  obtain ⟨h, ha, he⟩ := hg
  exact he.proper ha.proper

/-- A read of one value hands out another. -/
inductive Reads (h : Heap) (x y : Handle) : Prop
  | attributes : h.attributesOf x = .ok y → Reads h x y
  | field (f : Field) : h.project x f = .ok y → Reads h x y
  | string (i : Nat) : h.getChar x i = .ok y → Reads h x y
  | value (i : Nat) : h.getValue x i = .ok y → Reads h x y

/-- The values that reads lead to from the roots and from what is about to be linked. -/
inductive Reach (h : Heap) (pending : List Handle) : Handle → Prop
  | root {x : Handle} :
      (x = h.nil ∨ x = h.missingString ∨ x = h.unbound ∨ x ∈ h.symbols.map Prod.snd ∨
        x ∈ h.roots.stack ∨ x ∈ h.roots.preserved ∨ x ∈ pending) →
      h.isLive x = true → Reach h pending x
  | read {x y : Handle} :
      Reach h pending x → h.Reads x y → h.isLive y = true → Reach h pending y

theorem reads_iff (hw : All Record.WellFormed h.arena) :
    h.Reads x y ↔ y ∈ h.arena.linksOf x := by
  by_cases hl : h.isLive x = true
  · obtain ⟨r, hx⟩ := get?_of_isLive hl
    have hr := hw.get? hx
    rw [linksOf_of_get? hx, Record.links, List.mem_cons, Payload.mem_children_iff]
    constructor
    · rintro (hy | ⟨f, hy⟩ | ⟨i, hy⟩ | ⟨i, hy⟩)
      · rw [attributesOf_of_get? hx, Except.ok.injEq] at hy
        exact .inl hy.symm
      · rw [project_of_get? hx hr, orRefuse_eq_ok_iff] at hy
        exact .inr (.inl ⟨f, hy⟩)
      · rw [getChar_of_get? hx hr, orRefuse_eq_ok_iff] at hy
        exact .inr (.inr (.inl ⟨i, hy⟩))
      · rw [getValue_of_get? hx hr, orRefuse_eq_ok_iff] at hy
        exact .inr (.inr (.inr ⟨i, hy⟩))
    · rintro (rfl | ⟨f, hy⟩ | ⟨i, hy⟩ | ⟨i, hy⟩)
      · exact .attributes (attributesOf_of_get? hx)
      · refine .field f ?_
        rw [project_of_get? hx hr, orRefuse_eq_ok_iff]
        exact hy
      · refine .string i ?_
        rw [getChar_of_get? hx hr, orRefuse_eq_ok_iff]
        exact hy
      · refine .value i ?_
        rw [getValue_of_get? hx hr, orRefuse_eq_ok_iff]
        exact hy
  · refine iff_of_false ?_ fun hy ↦ hl (contains_of_mem_linksOf hy)
    rintro (hy | ⟨f, hy⟩ | ⟨i, hy⟩ | ⟨i, hy⟩)
    · rw [attributesOf_of_not_isLive hl] at hy
      cases hy
    · rw [project_of_not_isLive hl] at hy
      cases hy
    · rw [getChar_of_not_isLive hl] at hy
      cases hy
    · rw [getValue_of_not_isLive hl] at hy
      cases hy

theorem reach_iff (hw : All Record.WellFormed h.arena) :
    h.Reach pending x ↔ Arena.Reach h.arena (h.rootHandles pending) x := by
  constructor
  · intro hx
    induction hx with
    | root hx hl => exact .root (mem_rootHandles.mpr hx) hl
    | read _ hy hl ih => exact .link ih ((reads_iff hw).mp hy) hl
  · intro hx
    induction hx with
    | root hx hl => exact .root (mem_rootHandles.mp hx) hl
    | link _ hy hl ih => exact .read ih ((reads_iff hw).mpr hy) hl

/-- What a collection makes of a heap, when it frees the given number of values. -/
structure Collects (g : Heap) (pending : List Handle) (freed : Nat) (g' : Heap) : Prop where
  isLive_iff : ∀ x, g'.isLive x = true ↔ g.Reach pending x
  get?_eq : ∀ x, g.Reach pending x → g'.arena.get? x = g.arena.get? x
  unmarked : Unmarked g'.arena
  finite : {x | g.Reach pending x}.Finite
  freed_add : freed + {x | g.Reach pending x}.ncard = g.arena.occupied
  liveCount_eq : Numbered g.arena →
    g.liveCount = freed + {x | g.Reach pending x}.ncard ∧
      g'.liveCount = {x | g.Reach pending x}.ncard
  values_eq : g'.values = g.values
  symbols_eq : g'.symbols = g.symbols
  roots_eq : g'.roots = g.roots
  threshold_eq : g'.threshold = g.threshold
  allocations_eq : g'.allocations = 0
  /-- The cache forgets the interned text that is freed. -/
  chars_eq : g'.chars = g.chars.filter fun entry ↦ g'.isLive entry.2
  stats_eq : g'.stats = g.stats.update {x | g.Reach pending x}.ncard freed g'.liveCount

theorem Underway.collectWith (hg : Underway g) (pending : List Handle) :
    Collects g pending (g.collectWith pending).1 (g.collectWith pending).2 := by
  have hp := hg.proper
  have hu := hp.unmarked
  have hreach : ∀ x, g.Reach pending x ↔ Arena.Reach g.arena (g.rootHandles pending) x :=
    fun x ↦ reach_iff hp.wellFormed
  have hm := marking_mark g.arena (g.rootHandles pending)
  have hcard : {x | g.Reach pending x}.ncard = (g.arena.mark (g.rootHandles pending)).1 := by
    rw [Set.ncard, Set.ext hreach, hm.encard_reach hu, ENat.toNat_natCast]
  have hfreed : (g.collectWith pending).1 + {x | g.Reach pending x}.ncard = g.arena.occupied := by
    rw [hcard, ← hu.count_isGarbage, ← hm.count_isGarbage, ← length_garbage]
    rfl
  have hfinite : {x | g.Reach pending x}.Finite := by
    rw [Set.ext hreach]
    exact Set.finite_of_encard_eq_coe (hm.encard_reach hu)
  refine ⟨fun x ↦ ?_, fun x hx ↦ ?_, Unmarked.sweep, hfinite, hfreed, ?_, rfl, rfl, rfl, rfl, rfl,
    rfl, ?_⟩
  · exact (contains_collect_iff hu).trans (hreach x).symm
  · exact get?_collect_of_reach hu ((hreach x).mp hx)
  · intro hn
    have hlive : g.liveCount = g.arena.occupied := (hp.accounted hn).live_eq
    refine ⟨hlive.trans hfreed.symm, ?_⟩
    change (g.arena.mark (g.rootHandles pending)).2.live - (g.collectWith pending).1 = _
    rw [hm.live_eq]
    change g.liveCount - _ = _
    omega
  · rw [hcard]
    rfl

theorem settle_of_isDue (hd : g.isDue = true) (pending : List Handle) :
    g.settle pending = (g.collectWith pending).2 :=
  if_pos hd

theorem settle_of_not_isDue (hd : g.isDue = false) (pending : List Handle) :
    g.settle pending = g :=
  if_neg (Bool.eq_false_iff.mp hd)

/-- When collections run, and what they do. -/
structure CollectsExactly (g : Heap) : Prop where
  collectWith : ∀ pending, Collects g pending (g.collectWith pending).1 (g.collectWith pending).2
  collect : Collects g [] g.collect.1 g.collect.2
  /-- A collection that is due runs before the new record is stored, and also spares what that one
  is going to link. -/
  alloc_of_isDue : ∀ tag payload, g.isDue = true → ∃ freed k,
    Collects g payload.children freed k ∧
      g.alloc tag payload = ((k.arena.insert (.new tag g.nil payload)).1,
        { k with
          arena := (k.arena.insert (.new tag g.nil payload)).2
          allocations := 1 })
  isLive_alloc_iff : ∀ tag payload x, g.isDue = true → x ≠ (g.alloc tag payload).1 →
    ((g.alloc tag payload).2.isLive x = true ↔ g.Reach payload.children x)
  get?_alloc_eq : ∀ tag payload x, g.isDue = true → x ≠ (g.alloc tag payload).1 →
    g.Reach payload.children x → (g.alloc tag payload).2.arena.get? x = g.arena.get? x
  alloc_of_not_isDue : ∀ tag payload, g.isDue = false →
    g.alloc tag payload = ((g.arena.insert (.new tag g.nil payload)).1,
      { g with
        arena := (g.arena.insert (.new tag g.nil payload)).2
        allocations := g.allocations + 1 })

theorem Underway.collects_exactly (hg : Underway g) : CollectsExactly g where
  collectWith := hg.collectWith
  collect := hg.collectWith []
  alloc_of_isDue tag payload hd := by
    refine ⟨_, _, hg.collectWith payload.children, ?_⟩
    rw [alloc_eq, settle_of_isDue hd]
    rfl
  isLive_alloc_iff tag payload x hd hx := by
    rw [← (hg.collectWith payload.children).isLive_iff x, isLive, isLive, contains_iff,
      contains_iff, get?_alloc_of_ne hx, settle_of_isDue hd]
  get?_alloc_eq tag payload x hd hx hreach := by
    rw [get?_alloc_of_ne hx, settle_of_isDue hd]
    exact (hg.collectWith payload.children).get?_eq x hreach
  alloc_of_not_isDue tag payload hd := by
    rw [alloc_eq, settle_of_not_isDue hd]

/-- A vector that nothing keeps is freed, unless a list is made of it. -/
theorem collects_lone_vector :
    let p := (create 0 1).newInteger [1]
    Underway p.2 ∧ CollectsExactly p.2 ∧ p.2.collect.1 = 1 ∧ p.2.isDue = true ∧
      (p.2.newInteger [2]).2.isLive p.1 = false ∧ (p.2.newList [p.1]).2.isLive p.1 = true := by
  have ha : Arises ((create 0 1).newInteger [1]).2 :=
    .run (.update (.newInteger [1])) (.create 0 1) trivial
  refine ⟨ha.underway, Underway.collects_exactly ha.underway, ?_⟩
  decide

end TaggedHeap.Heap
