import TaggedHeap.Proofs.Chronicle

namespace TaggedHeap

def records : List Deed → Nat
  | .founded :: log | .allocated _ :: log => records log + 1
  | _ :: log => records log
  | [] => 0

def collections : List Deed → List Nat
  | .allocated (some freed) :: log | .collected freed :: log => freed :: collections log
  | _ :: log => collections log
  | [] => []

/-- The number of allocations since the last collection, or of all if there has been none. -/
def sinceCollection : List Deed → Nat
  | .allocated none :: log => sinceCollection log + 1
  | .allocated (some _) :: _ => 1
  | .collected _ :: _ => 0
  | _ :: log => sinceCollection log
  | [] => 0

namespace Heap

open Arena TaggedHeap.Action

variable {g h h' : Heap} {ds log : List Deed} {T : Nat} {pending : List Handle} {tag : TypeTag}
  {payload : Payload}

/-- The counters of a heap agree with its log. -/
structure Balanced (log : List Deed) (h : Heap) : Prop where
  live_add : h.liveCount + h.stats.objectsFreed = records log
  collections_eq : h.stats.collections = (collections log).length
  objectsFreed_eq : h.stats.objectsFreed = (collections log).sum
  allocations_eq : h.allocations = sinceCollection log
  last : collections log ≠ [] → h.stats.lastMarked = h.stats.liveObjects ∧
    h.liveCount = h.stats.liveObjects + sinceCollection log

theorem freed_add_marked (hp : Proper h.arena) (pending : List Handle) :
    (h.collectWith pending).1 + (h.arena.mark (h.rootHandles pending)).1 = h.arena.occupied := by
  have hm := marking_mark h.arena (h.rootHandles pending)
  rw [← hp.unmarked.count_isGarbage, ← hm.count_isGarbage, ← length_garbage]
  rfl

theorem liveCount_eq_occupied (hp : Proper h.arena) (hn : Numbered h.arena) :
    h.liveCount = h.arena.occupied :=
  (hp.accounted hn).live_eq

theorem liveCount_collectWith (h : Heap) (pending : List Handle) :
    (h.collectWith pending).2.liveCount = h.liveCount - (h.collectWith pending).1 := by
  have hm := marking_mark h.arena (h.rootHandles pending)
  change (h.arena.mark (h.rootHandles pending)).2.live - _ = _
  rw [hm.live_eq]
  rfl

theorem Balanced.collectWith (hb : Balanced log h) (hp : Proper h.arena) (hn : Numbered h.arena)
    (pending : List Handle) :
    Balanced (.collected (h.collectWith pending).1 :: log) (h.collectWith pending).2 := by
  have hsum := freed_add_marked hp pending
  have hocc := liveCount_eq_occupied hp hn
  have hlive := h.liveCount_collectWith pending
  have hadd := hb.live_add
  refine ⟨?_, ?_, ?_, rfl, fun _ ↦ ⟨?_, rfl⟩⟩
  · change (h.collectWith pending).2.liveCount +
      (h.stats.objectsFreed + (h.collectWith pending).1) = records log
    omega
  · change h.stats.collections + 1 = _
    rw [hb.collections_eq, collections, List.length_cons]
  · change h.stats.objectsFreed + (h.collectWith pending).1 = _
    rw [hb.objectsFreed_eq, collections, List.sum_cons, Nat.add_comm]
  · change (h.arena.mark (h.rootHandles pending)).1 = (h.collectWith pending).2.liveCount
    omega

theorem live_insert (a : Arena) (r : Record) : (a.insert r).2.live = a.live + 1 := by
  unfold Arena.insert
  split <;> rfl

theorem Balanced.insert (hb : Balanced log h) (r : Record) :
    Balanced (.allocated none :: log)
      { h with arena := (h.arena.insert r).2, allocations := h.allocations + 1 } := by
  have hlive := live_insert h.arena r
  have hadd : h.arena.live + h.stats.objectsFreed = records log := hb.live_add
  refine ⟨?_, hb.collections_eq, hb.objectsFreed_eq, ?_, fun hne ↦ ⟨(hb.last hne).1, ?_⟩⟩
  · change (h.arena.insert r).2.live + h.stats.objectsFreed = records log + 1
    omega
  · exact congrArg (· + 1) hb.allocations_eq
  · have hlast : h.arena.live = h.stats.liveObjects + sinceCollection log := (hb.last hne).2
    change (h.arena.insert r).2.live = h.stats.liveObjects + (sinceCollection log + 1)
    omega

theorem Balanced.alloc (hb : Balanced log h) (hp : Proper h.arena) (hn : Numbered h.arena)
    (tag : TypeTag) (payload : Payload) :
    Balanced (.allocated (h.clears payload.children) :: log) (h.alloc tag payload).2 := by
  rw [alloc_eq]
  unfold settle clears
  split
  · have hc := (hb.collectWith hp hn payload.children).insert (.new tag h.nil payload)
    exact ⟨hc.live_add, hc.collections_eq, hc.objectsFreed_eq, hc.allocations_eq, hc.last⟩
  · exact hb.insert _

theorem Move.balanced (hm : Move h ds h') (hp : Proper h.arena) (hn : Numbered h'.arena)
    (hb : Balanced log h) : Balanced (ds ++ log) h' := by
  have hhn : Numbered h.arena := hm.keeps.numbered hn
  cases hm with
  | alloc _ _ => exact hb.alloc hp hhn _ _
  | @enter name p _ _ =>
    have ha := hb.alloc hp hhn .symbol (.symbol p h.unbound h.nil)
    exact ⟨ha.live_add, ha.collections_eq, ha.objectsFreed_eq, ha.allocations_eq, ha.last⟩
  | collect => exact hb.collectWith hp hhn []
  | rewrite _ | rename _ | retune _ | aside _ _ _ =>
    exact ⟨hb.live_add, hb.collections_eq, hb.objectsFreed_eq, hb.allocations_eq, hb.last⟩

/-- Eight records make a new heap, six of them allocations. -/
theorem balanced_create (ordinal threshold : Nat) :
    Balanced founding (create ordinal threshold) := by
  have hlive : (create ordinal threshold).liveCount = 8 := rfl
  have hstats : (create ordinal threshold).stats = .initial := rfl
  have hallocations : (create ordinal threshold).allocations = 6 := rfl
  refine ⟨?_, ?_, ?_, hallocations, fun hne ↦ absurd rfl hne⟩
  · rw [hlive, hstats]
    rfl
  · rw [hstats]
    rfl
  · rw [hstats]
    rfl

theorem Moves.balanced {since : List Deed} (hm : Moves h since h') (hp : Proper h.arena)
    (hn : Numbered h'.arena) (hb : Balanced log h) : Balanced (since ++ log) h' :=
  hm.preserve (I := Balanced) log hp hn hb fun _ _ _ _ hp hn hb hm ↦ hm.balanced hp hn hb

/-- Allocations after the creation of a heap have started with a collection when as many as the
threshold says had passed since the last one, and at no other time. -/
def Prompt (T : Nat) (log : List Deed) : Prop :=
  ∀ later ran earlier, log = later ++ .allocated ran :: earlier → founding <:+ earlier →
    (ran.isSome = true ↔ T ≤ sinceCollection earlier)

theorem Prompt.cons {d : Deed} (hp : Prompt T log)
    (hd : ∀ ran, d = .allocated ran → (ran.isSome = true ↔ T ≤ sinceCollection log)) :
    Prompt T (d :: log) := by
  intro later ran earlier he hf
  cases later with
  | nil =>
    obtain ⟨rfl, rfl⟩ := List.cons.inj he
    exact hd ran rfl
  | cons _ later =>
    obtain ⟨-, rfl⟩ := List.cons.inj he
    exact hp later ran earlier rfl hf

theorem prompt_founding (T : Nat) : Prompt T founding := by
  intro later ran earlier he hf
  have hlen := congrArg List.length he
  have hle := hf.length_le
  rw [List.length_append, List.length_cons] at hlen
  omega

structure Punctual (T : Nat) (log : List Deed) (h : Heap) : Prop where
  threshold_eq : h.threshold = T
  bounded : sinceCollection log ≤ max T 6
  prompt : Prompt T log

theorem isDue_iff (hT : 0 < h.threshold) : h.isDue = true ↔ h.threshold ≤ h.allocations := by
  simp [isDue, hT]

theorem isSome_clears (h : Heap) (pending : List Handle) :
    (h.clears pending).isSome = h.isDue := by
  unfold clears
  cases h.isDue <;> rfl

theorem Punctual.isDue_iff (hp : Punctual T log h) (hb : Balanced log h) (hT : 0 < T) :
    h.isDue = true ↔ T ≤ sinceCollection log := by
  rw [Heap.isDue_iff (hp.threshold_eq ▸ hT), hp.threshold_eq, hb.allocations_eq]

theorem Punctual.allocated (hp : Punctual T log h) (hb : Balanced log h) (hT : 0 < T)
    (pending : List Handle) (ht : h'.threshold = h.threshold) :
    Punctual T (.allocated (h.clears pending) :: log) h' := by
  have hdue := hp.isDue_iff hb hT
  refine ⟨ht.trans hp.threshold_eq, ?_, hp.prompt.cons fun ran he ↦ ?_⟩
  · cases hd : h.isDue with
    | true =>
      rw [clears, hd, if_pos rfl]
      change 1 ≤ max T 6
      omega
    | false =>
      rw [hd] at hdue
      have hlt : ¬ T ≤ sinceCollection log := fun hle ↦ Bool.false_ne_true (hdue.mpr hle)
      rw [clears, hd, if_neg Bool.false_ne_true]
      change sinceCollection log + 1 ≤ max T 6
      omega
  · rw [← Deed.allocated.inj he, isSome_clears]
    exact hdue

theorem Move.punctual (hm : Move h ds h') (hT : 0 < T) (hb : Balanced log h)
    (hk : ∀ t, .retuned t ∈ ds → t = T) (hp : Punctual T log h) : Punctual T (ds ++ log) h' := by
  cases hm with
  | alloc _ _ => exact hp.allocated hb hT _ (h.threshold_alloc _ _)
  | @enter _ p _ _ =>
    exact hp.allocated hb hT _ (h.threshold_alloc .symbol (.symbol p h.unbound h.nil))
  | rewrite _ | aside _ _ _ => exact ⟨hp.threshold_eq, hp.bounded, hp.prompt⟩
  | rename _ => exact ⟨hp.threshold_eq, hp.bounded, hp.prompt.cons nofun⟩
  | collect => exact ⟨hp.threshold_eq, Nat.zero_le _, hp.prompt.cons nofun⟩
  | retune t => exact ⟨hk t List.mem_cons_self, hp.bounded, hp.prompt.cons nofun⟩

theorem punctual_create (ordinal T : Nat) : Punctual T founding (create ordinal T) :=
  ⟨rfl, Nat.le_max_right T 6, prompt_founding T⟩

theorem Moves.punctual {since : List Deed} (hm : Moves h since h') (hp : Proper h.arena)
    (hn : Numbered h'.arena) (hT : 0 < T) (hb : Balanced log h) (hpunctual : Punctual T log h)
    (hk : ∀ t, .retuned t ∈ since ++ log → t = T) : Punctual T (since ++ log) h' := by
  have hI := hm.preserve (I := fun log h ↦ Balanced log h ∧
    ((∀ t, .retuned t ∈ log → t = T) → Punctual T log h)) log hp hn ⟨hb, fun _ ↦ hpunctual⟩
    fun log g ds k hp hn hg hm ↦ ⟨hm.balanced hp hn hg.1, fun hk ↦ ?_⟩
  · exact hI.2 hk
  · have hlog := hg.2 fun t ht ↦ hk t (List.mem_append_right _ ht)
    exact hm.punctual hT hg.1 (fun t ht ↦ hk t (List.mem_append_left _ ht)) hlog

/-- What the account of a heap says, given all its deeds. -/
structure Accounts (T : Nat) (log : List Deed) (h : Heap) : Prop where
  liveCount_add : h.liveCount + h.stats.objectsFreed = records log
  liveCount_eq : h.liveCount = h.arena.occupied
  collections_eq : h.stats.collections = (collections log).length
  objectsFreed_eq : h.stats.objectsFreed = (collections log).sum
  lastMarked_eq : collections log ≠ [] → h.stats.lastMarked = h.stats.liveObjects
  liveCount_eq_add : collections log ≠ [] →
    h.liveCount = h.stats.liveObjects + sinceCollection log
  /-- While the threshold is what it was at first, collections keep to it. -/
  bounded : 0 < T → (∀ t, .retuned t ∈ log → t = T) → sinceCollection log ≤ max T 6
  prompt : 0 < T → (∀ t, .retuned t ∈ log → t = T) → Prompt T log
  isDue_iff : 0 < T → (∀ t, .retuned t ∈ log → t = T) →
    (h.isDue = true ↔ T ≤ sinceCollection log)

/-- Whatever a program does, its deeds can be logged, and the account that the heap keeps agrees
with every log of its deeds. The slots must not outnumber the 32 bits of their numbers. -/
theorem accounts_of_chronicle (ordinal T : Nat) (program : List Action)
    (hn : Numbered (runAll (create ordinal T) program).arena) :
    (∃ since, Chronicle ordinal T (since ++ founding) (runAll (create ordinal T) program) ∧
        ∀ d ∈ since, Done (create ordinal T) program d) ∧
      ∀ log, Chronicle ordinal T log (runAll (create ordinal T) program) →
        Accounts T log (runAll (create ordinal T) program) := by
  refine ⟨exists_chronicle ordinal T program hn, ?_⟩
  rintro log ⟨since, hm, rfl⟩
  have hc := kempt_create ordinal T
  have hp := hm.keeps.evolves.proper hc.proper
  have hb := hm.balanced hc.proper hn (balanced_create ordinal T)
  have hpunctual (hT : 0 < T) (hk : ∀ t, .retuned t ∈ since ++ founding → t = T) :=
    hm.punctual hc.proper hn hT (balanced_create ordinal T) (punctual_create ordinal T) hk
  exact ⟨hb.live_add, liveCount_eq_occupied hp hn, hb.collections_eq, hb.objectsFreed_eq,
    fun hne ↦ (hb.last hne).1, fun hne ↦ (hb.last hne).2,
    fun hT hk ↦ (hpunctual hT hk).bounded, fun hT hk ↦ (hpunctual hT hk).prompt,
    fun hT hk ↦ (hpunctual hT hk).isDue_iff hb hT⟩

/-- Three vectors that nothing keeps. The first allocation finds that the records of the new heap
are more than the threshold; the third is due again, and frees what the others have stored. -/
theorem accounts_of_chronicle_of_newInteger :
    let program := List.replicate 3 (Action.request (.update (.newInteger [1])))
    let h := runAll (create 0 2) program
    Numbered h.arena ∧ ∃ log, Chronicle 0 2 log h ∧ Accounts 2 log h ∧ Prompt 2 log ∧
      sinceCollection log ≤ 6 ∧ (collections log).sum = 2 := by
  intro program h
  have hn : Numbered h.arena := by decide +kernel
  obtain ⟨⟨since, hc, hd⟩, hall⟩ := accounts_of_chronicle 0 2 program hn
  have ha := hall _ hc
  have hk (t : Nat) (ht : .retuned t ∈ since ++ founding) : t = 2 := by
    rcases List.mem_append.mp ht with ht | ht
    · obtain ⟨before, a, after, hp, u, rfl, hu⟩ := hd _ ht
      have hmem : .request (.update u) ∈ program := hp ▸ List.mem_append_right _ List.mem_cons_self
      have ha := List.eq_of_mem_replicate hmem
      rw [show u = .setThreshold t from hu] at ha
      cases ha
    · exact absurd ht (by simp [founding])
  have hfreed : h.stats.objectsFreed = 2 := by decide +kernel
  exact ⟨hn, _, hc, ha, ha.prompt Nat.two_pos hk, ha.bounded Nat.two_pos hk,
    ha.objectsFreed_eq.symm.trans hfreed⟩

end Heap

end TaggedHeap
