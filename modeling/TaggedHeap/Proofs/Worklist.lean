import TaggedHeap.Heap.Basic
import TaggedHeap.Proofs.Marking

namespace TaggedHeap

def Slot.due (s : Slot) : Nat :=
  match s.record with
  | some r => if r.marked then 0 else r.links.length
  | none => 0

namespace Arena

variable {a b : Arena} {x y : Handle} {roots work done : List Handle} {n k : Nat}

/-- The number of links that marking could still add to the work. -/
def due (a : Arena) : Nat :=
  (a.slots.toList.map Slot.due).sum

theorem sum_map_modify {α : Type} (f : α → Nat) (g : α → α) {l : List α} {i : Nat} {s : α}
    (h : l[i]? = some s) : ((l.modify i g).map f).sum + f s = (l.map f).sum + f (g s) := by
  induction l generalizing i with
  | nil => simp at h
  | cons t l ih =>
    cases i with
    | zero =>
      simp only [List.getElem?_cons_zero, Option.some.injEq] at h
      subst h
      simp only [List.modify_zero_cons, List.map_cons, List.sum_cons]
      omega
    | succ i =>
      have hl := ih (by simpa only [List.getElem?_cons_succ] using h)
      simp only [List.modify_succ_cons, List.map_cons, List.sum_cons]
      omega

theorem due_mark (h : a.isUnmarked x = true) :
    (a.modify x Record.mark).due + (a.linksOf x).length = a.due := by
  obtain ⟨r, hr, hm⟩ := isUnmarked_iff.mp h
  obtain ⟨s, hs, hg, hq⟩ := get?_eq_some_iff.mp hr
  have hc := sum_map_modify Slot.due
    (fun s ↦
      if s.generation = x.generation then { s with record := s.record.map Record.mark } else s)
    (show a.slots.toList[x.slot.toNat]? = some s by rw [Array.getElem?_toList]; exact hs)
  simp only [if_pos hg, Slot.due, hq, hm, Option.map_some, Record.mark, if_true, if_false,
    Bool.false_eq_true, Nat.add_zero] at hc
  rw [linksOf_of_get? hr]
  simpa only [due, modify, Array.toList_modify] using hc

/-- The loop between two turns: the arena, the work and the number of marks set so far. -/
structure MarkState where
  arena : Arena
  work : List Handle
  count : Nat
deriving DecidableEq

namespace MarkState

variable {s t u : MarkState}

/-- A turn that takes the handle added last. At the end of the work nothing changes any more. -/
def turn (s : MarkState) : MarkState :=
  match s.work with
  | [] => s
  | x :: rest =>
    if s.arena.isUnmarked x then
      ⟨s.arena.modify x Record.mark, (s.arena.linksOf x).reverse ++ rest, s.count + 1⟩
    else ⟨s.arena, rest, s.count⟩

/-- A turn that takes any handle, and adds links in any order and anywhere. -/
inductive Turn : MarkState → MarkState → Prop
  | pass {a : Arena} {work rest : List Handle} {x : Handle} {n : Nat} :
      work.Perm (x :: rest) → a.isUnmarked x = false → Turn ⟨a, work, n⟩ ⟨a, rest, n⟩
  | mark {a : Arena} {work rest next : List Handle} {x : Handle} {n : Nat} :
      work.Perm (x :: rest) → a.isUnmarked x = true → next.Perm (a.linksOf x ++ rest) →
      Turn ⟨a, work, n⟩ ⟨a.modify x Record.mark, next, n + 1⟩

inductive Turns : Nat → MarkState → MarkState → Prop
  | zero (s : MarkState) : Turns 0 s s
  | succ {k : Nat} {s t u : MarkState} : Turn s t → Turns k t u → Turns (k + 1) s u

theorem turn_of_work_eq_nil (h : s.work = []) : s.turn = s := by
  rw [turn, h]

theorem turn_turn (h : s.work ≠ []) : Turn s s.turn := by
  obtain ⟨a, work, n⟩ := s
  cases work with
  | nil => exact absurd rfl h
  | cons x rest =>
    cases hx : a.isUnmarked x with
    | true =>
      have he : turn ⟨a, x :: rest, n⟩ =
          ⟨a.modify x Record.mark, (a.linksOf x).reverse ++ rest, n + 1⟩ := if_pos hx
      rw [he]
      exact .mark (.refl _) hx ((List.reverse_perm _).append_right rest)
    | false =>
      have he : turn ⟨a, x :: rest, n⟩ = ⟨a, rest, n⟩ := if_neg (Bool.eq_false_iff.mp hx)
      rw [he]
      exact .pass (.refl _) hx

theorem Turn.work_ne_nil (h : Turn s t) : s.work ≠ [] := by
  intro hs
  cases h with
  | pass hp _ =>
    subst hs
    exact List.cons_ne_nil _ _ hp.nil_eq.symm
  | mark hp _ _ =>
    subst hs
    exact List.cons_ne_nil _ _ hp.nil_eq.symm

theorem work_eq_nil_iff : s.work = [] ↔ ∀ t, ¬ Turn s t := by
  constructor
  · intro hs t ht
    exact ht.work_ne_nil hs
  · intro hs
    by_contra hne
    exact hs _ (turn_turn hne)

/-- The greatest number of turns that can follow. -/
def potential (s : MarkState) : Nat :=
  s.work.length + s.arena.due

theorem Turn.potential_add_one (h : Turn s t) : t.potential + 1 = s.potential := by
  cases h with
  | pass hp _ =>
    have hlength := hp.length_eq
    simp only [potential, List.length_cons] at hlength ⊢
    omega
  | mark hp hx hq =>
    have hlength := hp.length_eq
    have hnext := hq.length_eq
    have hdue := due_mark hx
    simp only [potential, List.length_cons, List.length_append] at hlength hnext ⊢
    omega

theorem Turns.potential_add (h : Turns k s t) : t.potential + k = s.potential := by
  induction h with
  | zero s => rfl
  | succ ht _ ih =>
    have hone := ht.potential_add_one
    omega

theorem exists_turns_iterate (k : Nat) (s : MarkState) (hk : s.potential ≤ k) :
    ∃ j, Turns j s (turn^[k] s) ∧ (turn^[k] s).work = [] := by
  induction k generalizing s with
  | zero =>
    have hwork : s.work.length = 0 := by
      unfold potential at hk
      omega
    exact ⟨0, .zero s, List.length_eq_zero_iff.mp hwork⟩
  | succ k ih =>
    rw [Function.iterate_succ_apply]
    by_cases hs : s.work = []
    · rw [turn_of_work_eq_nil hs, Function.iterate_fixed (turn_of_work_eq_nil hs)]
      exact ⟨0, .zero s, hs⟩
    · have ht := turn_turn hs
      have hone := ht.potential_add_one
      obtain ⟨j, hj, hend⟩ := ih s.turn (by omega)
      exact ⟨j + 1, .succ ht hj, hend⟩

theorem Turns.pass {passed rest : List Handle} (hp : ∀ y ∈ passed, a.isUnmarked y = false)
    (h : Turns k ⟨a, rest, n⟩ u) : Turns (passed.length + k) ⟨a, passed ++ rest, n⟩ u := by
  induction passed with
  | nil => rwa [List.length_nil, Nat.zero_add]
  | cons y passed ih =>
    obtain ⟨hy, hp⟩ := List.forall_mem_cons.mp hp
    rw [List.length_cons, Nat.add_right_comm]
    exact .succ (.pass (.refl _) hy) (ih hp)

end MarkState

open MarkState

/-- A mark phase is the loop with the links of a marked record put before the rest of the work. -/
theorem Marking.turns (h : Marking a work n b) (m : Nat) :
    ∃ k, Turns k ⟨a, work, m⟩ ⟨b, [], m + n⟩ := by
  induction h generalizing m with
  | @done a work hw =>
    have hpass : Turns (work.length + 0) ⟨a, work ++ [], m⟩ ⟨a, [], m⟩ :=
      .pass hw (.zero ⟨a, [], m⟩)
    rw [List.append_nil] at hpass
    exact ⟨_, hpass⟩
  | @mark a b passed rest x n hp hx _ ih =>
    obtain ⟨k, hk⟩ := ih (m + 1)
    rw [Nat.add_right_comm, Nat.add_assoc] at hk
    exact ⟨_, Turns.pass hp (.succ (.mark (.refl _) hx (.refl _)) hk)⟩

section MarkAll

def markAll (a : Arena) (done : List Handle) : Arena :=
  done.foldr (fun x b ↦ b.modify x Record.mark) a

theorem modify_mark_comm (a : Arena) (x y : Handle) :
    (a.modify x Record.mark).modify y Record.mark =
      (a.modify y Record.mark).modify x Record.mark := by
  let mark (z : Handle) (s : Slot) : Slot :=
    if s.generation = z.generation then { s with record := s.record.map Record.mark } else s
  have hcomm (s : Slot) : mark y (mark x s) = mark x (mark y s) := by
    simp only [mark]
    by_cases hx : s.generation = x.generation
    · by_cases hy : s.generation = y.generation
      · simp only [if_pos hx, if_pos hy]
      · simp only [if_pos hx, if_neg hy]
    · by_cases hy : s.generation = y.generation
      · simp only [if_neg hx, if_pos hy]
      · simp only [if_neg hx, if_neg hy]
  have hslots : (a.slots.modify x.slot.toNat (mark x)).modify y.slot.toNat (mark y) =
      (a.slots.modify y.slot.toNat (mark y)).modify x.slot.toNat (mark x) := by
    refine Array.ext_getElem? fun i ↦ ?_
    simp only [Array.getElem?_modify]
    cases a.slots[i]? with
    | none => simp
    | some s =>
      by_cases hx : x.slot.toNat = i
      · by_cases hy : y.slot.toNat = i
        · simp [hx, hy, hcomm]
        · simp [hx, hy]
      · simp [hx]
  exact congrArg (fun slots ↦ { a with slots := slots }) hslots

theorem markAll_eq_of_perm {done' : List Handle} (h : done.Perm done') :
    a.markAll done = a.markAll done' :=
  h.foldr_eq' (fun x _ y _ b ↦ modify_mark_comm b x y) a

theorem get?_markAll (a : Arena) (done : List Handle) (x : Handle) :
    (a.markAll done).get? x = if x ∈ done then (a.get? x).map Record.mark else a.get? x := by
  induction done with
  | nil => rfl
  | cons y done ih =>
    change ((a.markAll done).modify y Record.mark).get? x = _
    rw [get?_modify, ih]
    have hmark : Record.mark ∘ Record.mark = Record.mark := rfl
    by_cases hy : y = x
    · by_cases hx : x ∈ done
      · simp [hy, hx, hmark]
      · simp [hy, hx]
    · simp [hy, Ne.symm hy]

theorem alike_markAll (a : Arena) (done : List Handle) : Alike (a.markAll done) a := by
  intro x
  rw [get?_markAll]
  split
  · rw [Option.map_map]
    rfl
  · rfl

theorem isUnmarked_markAll (ha : Unmarked a) :
    (a.markAll done).isUnmarked x = true ↔ a.contains x = true ∧ x ∉ done := by
  rw [isUnmarked_iff, get?_markAll, contains_iff]
  by_cases hx : x ∈ done
  · rw [if_pos hx]
    refine iff_of_false ?_ fun h ↦ h.2 hx
    rintro ⟨r, hr, hm⟩
    obtain ⟨q, -, rfl⟩ := Option.map_eq_some_iff.mp hr
    cases hm
  · rw [if_neg hx]
    constructor
    · rintro ⟨r, hr, _⟩
      exact ⟨⟨r, hr⟩, hx⟩
    · rintro ⟨⟨r, hr⟩, _⟩
      exact ⟨r, hr, ha.get? hr⟩

end MarkAll

/-- The invariant of the loop, where `done` lists the handles of the records marked so far. -/
structure Progress (a : Arena) (roots done : List Handle) (s : MarkState) : Prop where
  arena_eq : s.arena = a.markAll done
  count_eq : s.count = done.length
  nodup : done.Nodup
  reached : ∀ x ∈ done, Reach a roots x
  sound : ∀ x ∈ s.work, a.contains x = true → Reach a roots x
  covered : ∀ y, a.contains y = true → (y ∈ roots ∨ ∃ x ∈ done, y ∈ a.linksOf x) →
    y ∈ done ∨ y ∈ s.work

variable {s t : MarkState}

theorem progress_start (a : Arena) (roots : List Handle) : Progress a roots [] ⟨a, roots, 0⟩ where
  arena_eq := rfl
  count_eq := rfl
  nodup := List.nodup_nil
  reached := nofun
  sound x hx hc := .root hx hc
  covered y _ hy := by
    rcases hy with hy | ⟨x, hx, _⟩
    · exact .inr hy
    · cases hx

theorem Progress.pass {rest : List Handle} (hp : Progress a roots done ⟨b, work, n⟩)
    (ha : Unmarked a) (hperm : work.Perm (x :: rest)) (hx : b.isUnmarked x = false) :
    Progress a roots done ⟨b, rest, n⟩ where
  arena_eq := hp.arena_eq
  count_eq := hp.count_eq
  nodup := hp.nodup
  reached := hp.reached
  sound := by
    intro y hy hc
    exact hp.sound y (hperm.mem_iff.mpr (List.mem_cons_of_mem x hy)) hc
  covered := by
    intro y hc hy
    have hseen : a.contains x = true → x ∈ done := by
      intro hc
      by_contra hn
      have hu := (isUnmarked_markAll ha).mpr ⟨hc, hn⟩
      rw [← hp.arena_eq, hx] at hu
      cases hu
    rcases hp.covered y hc hy with hy | hy
    · exact .inl hy
    · rcases List.mem_cons.mp (hperm.mem_iff.mp hy) with rfl | hy
      · exact .inl (hseen hc)
      · exact .inr hy

theorem Progress.mark {rest next : List Handle} (hp : Progress a roots done ⟨b, work, n⟩)
    (ha : Unmarked a) (hperm : work.Perm (x :: rest)) (hx : b.isUnmarked x = true)
    (hnext : next.Perm (b.linksOf x ++ rest)) :
    Progress a roots (x :: done) ⟨b.modify x Record.mark, next, n + 1⟩ := by
  have hb : b = a.markAll done := hp.arena_eq
  obtain ⟨hc, hn⟩ := (isUnmarked_markAll ha).mp (hb ▸ hx)
  have hreach : Reach a roots x := hp.sound x (hperm.mem_iff.mpr List.mem_cons_self) hc
  have hmem (y : Handle) : y ∈ next ↔ y ∈ a.linksOf x ∨ y ∈ rest := by
    rw [hnext.mem_iff, List.mem_append, hb, (alike_markAll a done).linksOf]
  refine ⟨by rw [hb]; rfl, congrArg (· + 1) hp.count_eq, List.nodup_cons.mpr ⟨hn, hp.nodup⟩,
    List.forall_mem_cons.mpr ⟨hreach, hp.reached⟩, ?_, ?_⟩
  · intro y hy hcy
    rcases (hmem y).mp hy with hy | hy
    · exact .link hreach hy hcy
    · exact hp.sound y (hperm.mem_iff.mpr (List.mem_cons_of_mem x hy)) hcy
  · intro y hcy hy
    have hold (hy : y ∈ roots ∨ ∃ z ∈ done, y ∈ a.linksOf z) : y ∈ x :: done ∨ y ∈ next := by
      rcases hp.covered y hcy hy with hy | hy
      · exact .inl (List.mem_cons_of_mem x hy)
      · rcases List.mem_cons.mp (hperm.mem_iff.mp hy) with rfl | hy
        · exact .inl List.mem_cons_self
        · exact .inr ((hmem y).mpr (.inr hy))
    rcases hy with hy | ⟨z, hz, hy⟩
    · exact hold (.inl hy)
    · rcases List.mem_cons.mp hz with rfl | hz
      · exact .inr ((hmem y).mpr (.inl hy))
      · exact hold (.inr ⟨z, hz, hy⟩)

theorem Progress.turns (hp : Progress a roots done s) (ha : Unmarked a) (ht : Turns k s t) :
    ∃ done, Progress a roots done t := by
  induction ht generalizing done with
  | zero s => exact ⟨done, hp⟩
  | succ ht _ ih =>
    cases ht with
    | pass hperm hx => exact ih (hp.pass ha hperm hx)
    | mark hperm hx hnext => exact ih (hp.mark ha hperm hx hnext)

theorem Progress.mem_done_iff (hp : Progress a roots done s) (hs : s.work = []) :
    x ∈ done ↔ Reach a roots x := by
  have hdone {y : Handle} (hc : a.contains y = true)
      (hy : y ∈ roots ∨ ∃ x ∈ done, y ∈ a.linksOf x) : y ∈ done := by
    refine (hp.covered y hc hy).resolve_right ?_
    rw [hs]
    exact List.not_mem_nil
  constructor
  · exact hp.reached x
  · intro hx
    induction hx with
    | root hx hc => exact hdone hc (.inl hx)
    | link _ hy hc ih => exact hdone hc (.inr ⟨_, ih, hy⟩)

theorem Progress.eq {roots' done' : List Handle} (hp : Progress a roots done s)
    (hq : Progress a roots' done' t) (hr : ∀ x, Reach a roots x ↔ Reach a roots' x)
    (hs : s.work = []) (ht : t.work = []) : s = t := by
  have hperm : done.Perm done' := (List.perm_ext_iff_of_nodup hp.nodup hq.nodup).mpr fun x ↦ by
    rw [hp.mem_done_iff hs, hr, hq.mem_done_iff ht]
  have harena : s.arena = t.arena := by
    rw [hp.arena_eq, hq.arena_eq, markAll_eq_of_perm hperm]
  have hcount : s.count = t.count := by
    rw [hp.count_eq, hq.count_eq, hperm.length_eq]
  obtain ⟨_, _, _⟩ := s
  obtain ⟨_, _, _⟩ := t
  exact MarkState.mk.injEq .. ▸ ⟨harena, hs.trans ht.symm, hcount⟩

/-- The lists differ only in the order of handles, in repetitions and in handles without records. -/
def SameRoots (a : Arena) (roots roots' : List Handle) : Prop :=
  ∀ x, a.contains x = true → (x ∈ roots ↔ x ∈ roots')

theorem SameRoots.reach_iff {roots' : List Handle} (h : SameRoots a roots roots') :
    Reach a roots x ↔ Reach a roots' x := by
  constructor
  · intro hx
    exact hx.trans fun y hy hc ↦ .root ((h y hc).mp hy) hc
  · intro hx
    exact hx.trans fun y hy hc ↦ .root ((h y hc).mpr hy) hc

def markEnd (a : Arena) (roots : List Handle) : MarkState :=
  ⟨(a.mark roots).2, [], (a.mark roots).1⟩

theorem turns_markEnd (a : Arena) (roots : List Handle) :
    ∃ k, Turns k ⟨a, roots, 0⟩ (a.markEnd roots) := by
  obtain ⟨k, hk⟩ := (marking_mark a roots).turns 0
  rw [Nat.zero_add] at hk
  exact ⟨k, hk⟩

theorem MarkState.Turns.eq_markEnd {roots' : List Handle} (ha : Unmarked a)
    (hr : SameRoots a roots' roots) (h : Turns k ⟨a, roots', 0⟩ s) (hs : s.work = []) :
    s = a.markEnd roots := by
  obtain ⟨_, hp⟩ := (progress_start a roots').turns ha h
  obtain ⟨_, hk⟩ := turns_markEnd a roots
  obtain ⟨_, hq⟩ := (progress_start a roots).turns ha hk
  exact hp.eq hq (fun _ ↦ hr.reach_iff) hs rfl

theorem mark_eq_of_sameRoots {roots' : List Handle} (ha : Unmarked a)
    (hr : SameRoots a roots' roots) : a.mark roots' = a.mark roots := by
  obtain ⟨k, hk⟩ := turns_markEnd a roots'
  have he := hk.eq_markEnd ha hr rfl
  exact Prod.ext (congrArg MarkState.count he) (congrArg MarkState.arena he)

/-- What marking from a list of roots promises, whatever the arena links to. -/
structure MarksWithoutOrder (a : Arena) (roots : List Handle) : Prop where
  bounded : ∀ k s, Turns k ⟨a, roots, 0⟩ s → k ≤ roots.length + a.due
  /-- Wherever it ends, and from whatever form of the roots, it has done the same. -/
  eq_markEnd : ∀ roots', SameRoots a roots' roots → ∀ k s, Turns k ⟨a, roots', 0⟩ s →
    (∀ t, ¬ Turn s t) → s = a.markEnd roots
  last_first : ∀ k, roots.length + a.due ≤ k →
    MarkState.turn^[k] ⟨a, roots.reverse, 0⟩ = a.markEnd roots
  mark_eq : ∀ roots', SameRoots a roots' roots → a.mark roots' = a.mark roots
  isMarked_iff : ∀ x, (a.mark roots).2.IsMarked x ↔ Reach a roots x
  count_eq : {x | (a.mark roots).2.IsMarked x}.encard = (a.mark roots).1

/-- In an arena without marks, marking ends and does not depend on the order of its roots. -/
theorem Unmarked.marksWithoutOrder (ha : Unmarked a) (roots : List Handle) :
    MarksWithoutOrder a roots := by
  have hmark := marking_mark a roots
  constructor
  · intro k s h
    have hpotential := h.potential_add
    simp only [potential] at hpotential
    omega
  · intro roots' hr k s h hs
    exact h.eq_markEnd ha hr (work_eq_nil_iff.mpr hs)
  · intro k hk
    have hr : SameRoots a roots.reverse roots := by
      intro x _
      exact List.mem_reverse
    have hpotential : potential ⟨a, roots.reverse, 0⟩ ≤ k := by
      simpa only [potential, List.length_reverse] using hk
    obtain ⟨j, hj, hend⟩ := exists_turns_iterate k ⟨a, roots.reverse, 0⟩ hpotential
    exact hj.eq_markEnd ha hr hend
  · intro roots' hr
    exact mark_eq_of_sameRoots ha hr
  · intro x
    exact hmark.isMarked_iff ha
  · rw [← hmark.encard_reach ha]
    exact congrArg Set.encard (Set.ext fun x ↦ hmark.isMarked_iff ha)

/-- Two lists that link to each other, one of them also to itself and to a slot that never was,
beside a list that nothing links to. -/
theorem marksWithoutOrder_of_cycle :
    let list (elements : List Handle) : Record := .new .list ⟨0, 0⟩ (.values elements.toArray)
    let a := ((empty 0).insert (list [⟨1, 0⟩, ⟨0, 0⟩, ⟨9, 0⟩])).2
    let b := ((a.insert (list [⟨0, 0⟩])).2.insert (list [])).2
    Unmarked b ∧ MarksWithoutOrder b [⟨1, 0⟩] ∧ (b.mark [⟨1, 0⟩]).1 = 2 ∧
      b.mark [⟨9, 0⟩, ⟨1, 0⟩, ⟨1, 0⟩] = b.mark [⟨1, 0⟩] := by
  intro list a b
  have hb : Unmarked b :=
    All.insert (All.insert (All.insert (All.empty 0) rfl) rfl) rfl
  have hm := Unmarked.marksWithoutOrder hb [⟨1, 0⟩]
  have hr : SameRoots b [⟨9, 0⟩, ⟨1, 0⟩, ⟨1, 0⟩] [⟨1, 0⟩] := by
    intro x hc
    have hx : x ≠ ⟨9, 0⟩ := by
      rintro rfl
      exact absurd hc (by decide)
    simp [hx]
  exact ⟨hb, hm, by decide, hm.mark_eq _ hr⟩

end Arena

namespace Heap

theorem collectWith_of_perm {h : Heap} {symbols : List (String × Handle)} {preserved : List Handle}
    (ha : Arena.Unmarked h.arena) (hs : symbols.Perm h.symbols)
    (hp : preserved.Perm h.roots.preserved) (pending : List Handle) :
    let g := { h with symbols := symbols, roots := { h.roots with preserved := preserved } }
    let q := h.collectWith pending
    g.collectWith pending = (q.1, { q.2 with symbols := g.symbols, roots := g.roots }) := by
  intro g q
  have hr : Arena.SameRoots h.arena (g.rootHandles pending) (h.rootHandles pending) := by
    intro x _
    simp only [g, rootHandles, Roots.toList, List.mem_cons, List.mem_append,
      (hs.map Prod.snd).mem_iff, hp.mem_iff]
  have hmark : g.arena.mark (g.rootHandles pending) = h.arena.mark (h.rootHandles pending) :=
    Arena.mark_eq_of_sameRoots ha hr
  simp only [q, collectWith, hmark]
  rfl

end Heap

end TaggedHeap
