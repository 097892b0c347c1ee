import TaggedHeap.Proofs.Collection
import TaggedHeap.Proofs.Growth
import TaggedHeap.Proofs.Program

namespace TaggedHeap

open Relation Arena Heap

namespace Heap

variable {h : Heap} {x y : Handle} {pending : List Handle}

def LeadsTo (h : Heap) : Handle → Handle → Prop :=
  ReflTransGen fun x y ↦ h.Reads x y ∧ h.isLive y = true

theorem reach_iff_leadsTo :
    h.Reach pending y ↔
      ∃ x ∈ h.rootHandles pending, h.isLive x = true ∧ h.LeadsTo x y := by
  constructor
  · intro hy
    induction hy with
    | root hx hl => exact ⟨_, mem_rootHandles.mpr hx, hl, .refl⟩
    | read _ hr hl ih =>
      obtain ⟨x, hx, hxl, hxy⟩ := ih
      exact ⟨x, hx, hxl, hxy.tail ⟨hr, hl⟩⟩
  · rintro ⟨x, hx, hl, hxy⟩
    induction hxy with
    | refl => exact .root (mem_rootHandles.mp hx) hl
    | tail _ hr ih => exact .read ih hr.1 hr.2

theorem letGo_of_mem (hx : x ∈ h.roots.preserved) :
    h.letGo x = { h with
      roots := { h.roots with preserved := h.roots.preserved.erase x }
      journal := .released x :: h.journal } := by
  have hr : h.roots.release? x = some { h.roots with preserved := h.roots.preserved.erase x } :=
    if_pos hx
  rw [letGo, release, hr]
  rfl

theorem foldl_letGo {values rest : List Handle} (hp : h.roots.preserved.Perm (values ++ rest)) :
    (values.foldl letGo h).roots.preserved.Perm rest ∧
      (values.foldl letGo h).journal = (values.map .released).reverse ++ h.journal ∧
      (values.foldl letGo h).arena = h.arena := by
  induction values generalizing h with
  | nil => exact ⟨hp, rfl, rfl⟩
  | cons x values ih =>
    have hx : x ∈ h.roots.preserved := hp.mem_iff.mpr List.mem_cons_self
    rw [List.foldl_cons, letGo_of_mem hx]
    have he : (h.roots.preserved.erase x).Perm (values ++ rest) := by
      simpa using hp.erase x
    obtain ⟨hroots, hjournal, harena⟩ := ih (h := { h with
      roots := { h.roots with preserved := h.roots.preserved.erase x }
      journal := .released x :: h.journal }) he
    refine ⟨hroots, hjournal.trans ?_, harena⟩
    simp

end Heap

/-- A heap with the guards in force, and what was preserved without a guard. -/
structure Custody where
  guards : List Guard
  direct : List Handle
  heap : Heap

namespace Custody

/-- Guards and scopes begin, values join them, any of them ends; values are preserved directly; and
the heap does what it can be asked or told, but never releases a value directly. -/
inductive Step : Custody → Custody → Prop
  | guard (c : Custody) (x : Handle) :
      Step c ⟨(c.heap.guard x).1 :: c.guards, c.direct, (c.heap.guard x).2⟩
  | scope (c : Custody) : Step c { c with guards := .scope [] :: c.guards }
  | join (before after : List Guard) (g : Guard) (direct : List Handle) (h : Heap) (x : Handle) :
      Step ⟨before ++ g :: after, direct, h⟩
        ⟨before ++ (h.join x g).1 :: after, direct, (h.join x g).2⟩
  | drop (before after : List Guard) (g : Guard) (direct : List Handle) (h : Heap) :
      Step ⟨before ++ g :: after, direct, h⟩ ⟨before ++ after, direct, h.dropGuard g⟩
  | preserve (c : Custody) (x : Handle) :
      Step c { c with direct := x :: c.direct, heap := c.heap.preserve x }
  | query (c : Custody) (q : Query) : Step c { c with heap := (q.run c.heap).2 }
  | update (c : Custody) (u : Update) :
      u.Ordinary → Step c { c with heap := (u.run c.heap).2 }
  | report (c : Custody) (e : Event) : Step c { c with heap := c.heap.report e }
  | drain (c : Custody) : Step c { c with heap := c.heap.drain.2 }

def start (ordinal threshold : Nat) : Custody :=
  ⟨[], [], create ordinal threshold⟩

def held (c : Custody) : List Handle :=
  c.guards.flatMap Guard.values ++ c.direct

def Holds (c : Custody) (x : Handle) : Prop :=
  ∃ g ∈ c.guards, x ∈ g.values

variable {c c' : Custody} {x y : Handle}

/-- The steps in which a guard takes a value. -/
inductive Takes (x : Handle) : Custody → Custody → Prop
  | guard (c : Custody) :
      Takes x c ⟨(c.heap.guard x).1 :: c.guards, c.direct, (c.heap.guard x).2⟩
  | join (before after : List Guard) (held direct : List Handle) (h : Heap) :
      Takes x ⟨before ++ .scope held :: after, direct, h⟩
        ⟨before ++ (h.join x (.scope held)).1 :: after, direct, (h.join x (.scope held)).2⟩

inductive Drops (x : Handle) : Custody → Custody → Prop
  | drop (before after : List Guard) (g : Guard) (direct : List Handle) (h : Heap) :
      x ∈ g.values →
      Drops x ⟨before ++ g :: after, direct, h⟩ ⟨before ++ after, direct, h.dropGuard g⟩

theorem Takes.step (ht : Takes x c c') : Step c c' := by
  cases ht with
  | guard => exact .guard c x
  | join before after held direct h => exact .join before after (.scope held) direct h x

theorem Takes.holds (ht : Takes x c c') : c'.Holds x := by
  cases ht with
  | guard => exact ⟨.single x, List.mem_cons_self, List.mem_cons_self⟩
  | join before after held direct h =>
    exact ⟨.scope (x :: held), List.mem_append_right _ List.mem_cons_self, List.mem_cons_self⟩

theorem Takes.isLive (ht : Takes x c c') (hl : c.heap.isLive y = true) :
    c'.heap.isLive y = true := by
  cases ht with
  | guard | join => exact hl

theorem mem_values_join {h : Heap} {g : Guard} (hx : x ∈ g.values) :
    x ∈ (h.join y g).1.values := by
  cases g with
  | single value => exact hx
  | scope held => exact List.mem_cons_of_mem y hx

theorem Holds.step (hx : c.Holds x) (hs : Step c c') : c'.Holds x ∨ Drops x c c' := by
  obtain ⟨k, hk, hx⟩ := hx
  cases hs with
  | guard | scope => exact .inl ⟨k, List.mem_cons_of_mem _ hk, hx⟩
  | join before after g direct h y =>
    left
    rcases List.mem_cons.mp (List.perm_middle.mem_iff.mp hk) with rfl | hk
    · exact ⟨_, List.mem_append_right _ List.mem_cons_self, mem_values_join hx⟩
    · exact ⟨k, List.perm_middle.mem_iff.mpr (List.mem_cons_of_mem _ hk), hx⟩
  | drop before after g direct h =>
    rcases List.mem_cons.mp (List.perm_middle.mem_iff.mp hk) with rfl | hk
    · exact .inr (.drop before after k direct h hx)
    · exact .inl ⟨k, hk, hx⟩
  | preserve | query | update | report | drain => exact .inl ⟨k, hk, hx⟩

theorem Holds.mem_held (hx : c.Holds x) : x ∈ c.held := by
  obtain ⟨g, hg, hx⟩ := hx
  exact List.mem_append_left _ (List.mem_flatMap.mpr ⟨g, hg, hx⟩)

/-- The preserved handles are those held, and the heap is one that arises from a program. -/
structure Accurate (c : Custody) : Prop where
  arises : Arises c.heap
  perm : c.heap.roots.preserved.Perm c.held

theorem perm_held_middle (before after : List Guard) (g : Guard) (direct : List Handle) :
    ((before ++ g :: after).flatMap Guard.values ++ direct).Perm
      (g.values ++ ((before ++ after).flatMap Guard.values ++ direct)) := by
  simp only [List.flatMap_append, List.flatMap_cons, List.append_assoc]
  rw [← List.append_assoc, ← List.append_assoc g.values]
  exact List.perm_append_comm.append_right _

theorem arises_dropGuard {h : Heap} (ha : Arises h) (g : Guard) : Arises (h.dropGuard g) := by
  unfold dropGuard
  induction g.values generalizing h with
  | nil => exact ha
  | cons x values ih => exact ih (ha.letGo x)

theorem preserved_query (q : Query) (h : Heap) :
    (q.run h).2.roots = h.roots ∧ (q.run h).2.arena = h.arena := by
  rcases q.run_cases h with he | ⟨e, he⟩
  · rw [he]
    exact ⟨rfl, rfl⟩
  · rw [he]
    exact ⟨rfl, rfl⟩

theorem Step.accurate (hs : Step c c') (hc : Accurate c) : Accurate c' := by
  have hp := hc.perm
  cases hs with
  | guard _ x => exact ⟨hc.arises.take x, hp.cons x⟩
  | scope => exact ⟨hc.arises, hp⟩
  | join before after g direct h x =>
    cases g with
    | single value => exact ⟨hc.arises, hp⟩
    | scope held =>
      refine ⟨hc.arises.take x, ?_⟩
      have hm := (hp.trans (perm_held_middle before after (.scope held) direct)).cons x
      exact hm.trans (perm_held_middle before after (.scope (x :: held)) direct).symm
  | drop before after g direct h =>
    have hm := hp.trans (perm_held_middle before after g direct)
    exact ⟨arises_dropGuard hc.arises g, (foldl_letGo hm).1⟩
  | preserve _ x =>
    exact ⟨hc.arises.run (.update (.preserve x)) trivial, (hp.cons x).trans List.perm_middle.symm⟩
  | query _ q =>
    refine ⟨hc.arises.run (.query q) trivial, ?_⟩
    change (q.run c.heap).2.roots.preserved.Perm _
    rw [(preserved_query q c.heap).1]
    exact hp
  | update _ u hu =>
    refine ⟨hc.arises.run (.update u) trivial, ?_⟩
    change (u.run c.heap).2.roots.preserved.Perm _
    rw [(u.course c.heap hu).preserved]
    exact hp
  | report _ e => exact ⟨hc.arises.report e, hp⟩
  | drain => exact ⟨hc.arises.drain, hp⟩

theorem accurate_of_run {ordinal threshold : Nat}
    (hr : ReflTransGen Step (start ordinal threshold) c) : Accurate c := by
  induction hr with
  | refl => exact ⟨.create ordinal threshold, .refl []⟩
  | tail _ hs ih => exact hs.accurate ih

theorem Step.arena_eq_or_course (hs : Step c c') (hc : Accurate c) :
    c'.heap.arena = c.heap.arena ∨ Course c.heap c'.heap := by
  cases hs with
  | guard _ | scope | preserve _ | report _ | drain => exact .inl rfl
  | join _ _ g _ _ _ =>
    cases g with
    | single _ | scope _ => exact .inl rfl
  | drop before after g direct h =>
    exact .inl (foldl_letGo (hc.perm.trans (perm_held_middle before after g direct))).2.2
  | query _ q => exact .inl (preserved_query q c.heap).2
  | update _ u hu => exact .inr (u.course c.heap hu)

theorem Accurate.mem_rootHandles (hc : Accurate c) (hx : x ∈ c.held) :
    x ∈ c.heap.rootHandles [] := by
  rw [Heap.mem_rootHandles]
  exact .inr (.inr (.inr (.inr (.inr (.inl (hc.perm.mem_iff.mpr hx))))))

theorem Step.isLive (hs : Step c c') (hc : Accurate c) (hx : c.Holds x)
    (hl : c.heap.isLive x = true) : c'.heap.isLive x = true := by
  rcases hs.arena_eq_or_course hc with ha | hk
  · rwa [Heap.isLive, ha]
  · exact hk.isLive (hc.mem_rootHandles hx.mem_held) hl

theorem Step.isLive_of_leadsTo (hs : Step c c') (hc : Accurate c) (hn : Numbered c'.heap.arena)
    (hx : c.Holds x) (hl : c.heap.isLive x = true) (hy : c.heap.LeadsTo x y) :
    c'.heap.isLive y = true := by
  have hp := hc.arises.proper
  have hreach := (reach_iff hp.wellFormed).mp
    (reach_iff_leadsTo.mpr ⟨x, hc.mem_rootHandles hx.mem_held, hl, hy⟩)
  rcases hs.arena_eq_or_course hc with ha | hk
  · rw [Heap.isLive, ha]
    exact hreach.contains
  · exact hk.isLive_of_reach hp hn hreach

theorem Accurate.isLive_of_run (hc : Accurate c) (hx : c.Holds x) (hl : c.heap.isLive x = true)
    (hr : ReflTransGen (fun a b ↦ Step a b ∧ b.Holds x) c c') : c'.heap.isLive x = true := by
  suffices h : Accurate c' ∧ c'.Holds x ∧ c'.heap.isLive x = true from h.2.2
  induction hr with
  | refl => exact ⟨hc, hx, hl⟩
  | tail _ hs ih => exact ⟨hs.1.accurate ih.1, hs.2, hs.1.isLive ih.1 ih.2.1 ih.2.2⟩

/-- What guards promise, in whatever order they come and go. -/
structure Orderly (c : Custody) : Prop where
  /-- Preservations are counted: one for each time that a guard in force holds the value, and one
  for each direct preservation. -/
  count_eq : ∀ x, c.heap.roots.preserved.count x =
    (c.guards.map fun g ↦ g.values.count x).sum + c.direct.count x
  drop_journal : ∀ g ∈ c.guards, (c.heap.dropGuard g).journal =
    (g.values.map Event.released).reverse ++ c.heap.journal
  values_eq : ∀ x held, (c.heap.guard x).1.values = [x] ∧
    (c.heap.join x (.scope held)).1.values = x :: held
  holds_of_takes : ∀ x c', Takes x c c' → Step c c' ∧ c'.Holds x
  holds_or_drops : ∀ x c', c.Holds x → Step c c' → c'.Holds x ∨ Drops x c c'
  /-- A value that is there when a guard takes it stays until the last guard on it is dropped. -/
  stays_of_takes : ∀ x taken c', Takes x c taken → c.heap.isLive x = true →
    ReflTransGen (fun a b ↦ Step a b ∧ b.Holds x) taken c' → c'.heap.isLive x = true
  stays : ∀ x c', c.Holds x → c.heap.isLive x = true →
    ReflTransGen (fun a b ↦ Step a b ∧ b.Holds x) c c' → c'.heap.isLive x = true
  stays_along : ∀ x y c', c.Holds x → c.heap.isLive x = true → c.heap.LeadsTo x y → Step c c' →
    Numbered c'.heap.arena → c'.heap.isLive y = true
  /-- A collection frees everything else, as soon as the last guard on it is dropped. -/
  collect_iff : ∀ y, c.heap.collect.2.isLive y = true ↔
    ∃ x, (x ∈ c.heap.core ∨ x ∈ c.heap.roots.stack ∨ c.Holds x ∨ x ∈ c.direct) ∧
      c.heap.isLive x = true ∧ c.heap.LeadsTo x y

theorem Accurate.mem_rootHandles_iff (hc : Accurate c) :
    x ∈ c.heap.rootHandles [] ↔
      x ∈ c.heap.core ∨ x ∈ c.heap.roots.stack ∨ c.Holds x ∨ x ∈ c.direct := by
  rw [Heap.mem_rootHandles, hc.perm.mem_iff, held, List.mem_append, List.mem_flatMap, core, Holds]
  simp only [List.mem_cons, List.not_mem_nil, or_false, or_assoc]

theorem Accurate.orderly (hc : Accurate c) : Orderly c where
  count_eq x := by
    rw [hc.perm.count_eq, held, List.count_append, List.count_flatMap]
    rfl
  drop_journal g hg := by
    obtain ⟨before, after, he⟩ := List.append_of_mem hg
    have hm := hc.perm
    rw [held, he] at hm
    exact (foldl_letGo (hm.trans (perm_held_middle before after g c.direct))).2.1
  values_eq _ _ := ⟨rfl, rfl⟩
  holds_of_takes _ _ ht := ⟨ht.step, ht.holds⟩
  holds_or_drops _ _ hx hs := hx.step hs
  stays_of_takes _ _ _ ht hl hr :=
    (ht.step.accurate hc).isLive_of_run ht.holds (ht.isLive hl) hr
  stays _ _ hx hl hr := hc.isLive_of_run hx hl hr
  stays_along x y c' hx hl hy hs hn := hs.isLive_of_leadsTo hc hn hx hl hy
  collect_iff y := by
    have hp := hc.arises.proper
    have hcollect : c.heap.collect.2.isLive y = true ↔ c.heap.Reach [] y :=
      (contains_collect_iff hp.unmarked).trans (reach_iff hp.wellFormed).symm
    rw [hcollect, reach_iff_leadsTo]
    simp only [hc.mem_rootHandles_iff]

theorem orderly_of_run {ordinal threshold : Nat}
    (hr : ReflTransGen Step (start ordinal threshold) c) : Orderly c :=
  (accurate_of_run hr).orderly

theorem step_newInteger (h : Heap) (elements : List Int32) :
    Step ⟨[], [], h⟩ ⟨[], [], (h.newInteger elements).2⟩ :=
  .update _ (.newInteger elements) trivial

/-- A vector that a guard and a scope take stays when the guard is dropped before the scope. -/
theorem orderly_of_crossing_guards :
    let p := (create 0 0).newInteger [1]
    ∃ made collected, ReflTransGen Step (start 0 0) made ∧ made.heap = p.2 ∧
      ReflTransGen Step made collected ∧ collected.guards = [.scope [p.1]] ∧
      collected.heap.isLive p.1 = true ∧ Orderly collected := by
  have hmade := step_newInteger (create 0 0) [1]
  have hlive : ((create 0 0).newInteger [1]).2.isLive ((create 0 0).newInteger [1]).1 = true := by
    decide
  generalize (create 0 0).newInteger [1] = p at hmade hlive ⊢
  let made : Custody := ⟨[], [], p.2⟩
  let taken : Custody := ⟨[.single p.1], [], p.2.take p.1⟩
  let opened : Custody := { taken with guards := [.scope [], .single p.1] }
  let joined : Custody := ⟨[.scope [p.1], .single p.1], [], taken.heap.take p.1⟩
  let dropped : Custody := ⟨[.scope [p.1]], [], joined.heap.dropGuard (.single p.1)⟩
  let collected : Custody := { dropped with heap := dropped.heap.collect.2 }
  have htakes : Takes p.1 made taken := .guard made
  have hopened : Step taken opened := .scope taken
  have hjoins : Takes p.1 opened joined := .join [] [.single p.1] [] [] taken.heap
  have hdropped : Step joined dropped := .drop [.scope [p.1]] [] (.single p.1) [] joined.heap
  have hcollected : Step dropped collected := .update dropped .collect trivial
  have hsingle : opened.Holds p.1 :=
    ⟨.single p.1, List.mem_cons_of_mem _ List.mem_cons_self, List.mem_cons_self⟩
  have hscope (h : Heap) : Holds ⟨[.scope [p.1]], [], h⟩ p.1 :=
    ⟨.scope [p.1], List.mem_cons_self, List.mem_cons_self⟩
  have hrun : ReflTransGen (fun a b ↦ Step a b ∧ b.Holds p.1) taken collected :=
    .tail (.tail (.tail (.single ⟨hopened, hsingle⟩) ⟨hjoins.step, hjoins.holds⟩)
      ⟨hdropped, hscope _⟩) ⟨hcollected, hscope _⟩
  have hsteps : ReflTransGen Step made collected :=
    .head htakes.step (hrun.lift id fun _ _ hs ↦ hs.1)
  exact ⟨made, collected, .single hmade, rfl, hsteps, rfl,
    (orderly_of_run (.single hmade)).stays_of_takes p.1 taken collected htakes hlive hrun,
    orderly_of_run (.trans (.single hmade) hsteps)⟩

end Custody

end TaggedHeap
