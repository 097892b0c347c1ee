import TaggedHeap.Proofs.Lookup
import Mathlib.Data.Set.Card

namespace TaggedHeap

def Record.mark (r : Record) : Record :=
  { r with marked := true }

namespace Arena

variable {a b : Arena} {x y : Handle} {roots work : List Handle} {n : Nat}

/-- The handles of records that a list of roots leads to. -/
inductive Reach (a : Arena) (roots : List Handle) : Handle → Prop
  | root {x : Handle} : x ∈ roots → a.contains x = true → Reach a roots x
  | link {x y : Handle} :
      Reach a roots x → y ∈ a.linksOf x → a.contains y = true → Reach a roots y

theorem Reach.contains (h : Reach a roots x) : a.contains x = true := by
  cases h <;> assumption

theorem Reach.trans (h : Reach a work x)
    (hw : ∀ y ∈ work, a.contains y = true → Reach a roots y) : Reach a roots x := by
  induction h with
  | root hx hc => exact hw _ hx hc
  | link _ hy hc ih => exact .link ih hy hc

/-- Two arenas show the same records, which may differ in their marks. -/
def Alike (a b : Arena) : Prop :=
  ∀ x, (a.get? x).map Record.unmark = (b.get? x).map Record.unmark

theorem Alike.trans {c : Arena} (h : Alike a b) (h' : Alike b c) : Alike a c :=
  fun x ↦ (h x).trans (h' x)

theorem Alike.contains (h : Alike a b) (x : Handle) : a.contains x = b.contains x := by
  have hx := congrArg Option.isSome (h x)
  rw [Option.isSome_map, Option.isSome_map] at hx
  exact hx

theorem Alike.linksOf (h : Alike a b) (x : Handle) : a.linksOf x = b.linksOf x := by
  have hx := h x
  unfold Arena.linksOf
  cases ha : a.get? x with
  | none =>
    rw [ha, Option.map_none] at hx
    rw [Option.map_eq_none_iff.mp hx.symm]
  | some r =>
    rw [ha, Option.map_some] at hx
    obtain ⟨q, hq, he⟩ := Option.map_eq_some_iff.mp hx.symm
    rw [hq]
    exact (congrArg Record.links he).symm

theorem Alike.reach (h : Alike a b) (hr : Reach a roots x) : Reach b roots x := by
  induction hr with
  | root hx hc => exact .root hx (h.contains _ ▸ hc)
  | link _ hy hc ih => exact .link ih (h.linksOf _ ▸ hy) (h.contains _ ▸ hc)

theorem alike_mark (a : Arena) (x : Handle) : Alike (a.modify x Record.mark) a := by
  intro y
  rw [get?_modify]
  split
  · rw [Option.map_map]
    rfl
  · rfl

def IsMarked (a : Arena) (x : Handle) : Prop :=
  ∃ r, a.get? x = some r ∧ r.marked = true

theorem isMarked_or_isUnmarked (h : a.contains x = true) :
    a.IsMarked x ∨ a.isUnmarked x = true := by
  obtain ⟨r, hr⟩ := contains_iff.mp h
  cases hm : r.marked with
  | false => exact .inr (isUnmarked_iff.mpr ⟨r, hr, hm⟩)
  | true => exact .inl ⟨r, hr, hm⟩

theorem isMarked_of_isUnmarked_eq_false (h : a.isUnmarked x = false) (hc : a.contains x = true) :
    a.IsMarked x :=
  (isMarked_or_isUnmarked hc).resolve_right (Bool.eq_false_iff.mp h)

theorem not_isMarked_of_isUnmarked (h : a.isUnmarked x = true) : ¬ a.IsMarked x := by
  obtain ⟨r, hr, hm⟩ := isUnmarked_iff.mp h
  rintro ⟨q, hq, hm'⟩
  rw [hr, Option.some_inj] at hq
  rw [← hq, hm] at hm'
  cases hm'

theorem contains_of_isUnmarked (h : a.isUnmarked x = true) : a.contains x = true := by
  obtain ⟨r, hr, _⟩ := isUnmarked_iff.mp h
  exact contains_of_get? hr

theorem Unmarked.not_isMarked (h : Unmarked a) : ¬ a.IsMarked x := by
  rintro ⟨r, hr, hm⟩
  have hu := h.get? hr
  rw [hm] at hu
  cases hu

theorem isMarked_mark_iff (h : a.contains x = true) :
    (a.modify x Record.mark).IsMarked y ↔ y = x ∨ a.IsMarked y := by
  unfold IsMarked
  rw [get?_modify]
  by_cases hxy : x = y
  · subst hxy
    obtain ⟨r, hr⟩ := contains_iff.mp h
    simp [hr, Record.mark]
  · simp [hxy, Ne.symm hxy]

def count (a : Arena) (p : Slot → Bool) : Nat :=
  a.slots.toList.countP p

theorem countP_modify {α : Type} (p : α → Bool) (f : α → α) {l : List α} {i : Nat} {s : α}
    (h : l[i]? = some s) :
    (l.modify i f).countP p + (if p s then 1 else 0) =
      l.countP p + (if p (f s) then 1 else 0) := by
  induction l generalizing i with
  | nil => simp at h
  | cons t l ih =>
    cases i with
    | zero =>
      simp only [List.getElem?_cons_zero, Option.some.injEq] at h
      subst h
      simp only [List.modify_zero_cons, List.countP_cons]
      omega
    | succ i =>
      have hl := ih (by simpa only [List.getElem?_cons_succ] using h)
      simp only [List.modify_succ_cons, List.countP_cons]
      omega

theorem count_isGarbage_mark (h : a.isUnmarked x = true) :
    (a.modify x Record.mark).count Slot.isGarbage + 1 = a.count Slot.isGarbage := by
  obtain ⟨r, hr, hm⟩ := isUnmarked_iff.mp h
  obtain ⟨s, hs, hg, hq⟩ := get?_eq_some_iff.mp hr
  have hc := countP_modify Slot.isGarbage
    (fun s ↦
      if s.generation = x.generation then { s with record := s.record.map Record.mark } else s)
    (show a.slots.toList[x.slot.toNat]? = some s by rw [Array.getElem?_toList]; exact hs)
  simp only [if_pos hg, Slot.isGarbage, hq, hm, Option.map_some, Record.mark, Bool.not_false,
    Bool.not_true, if_true, if_false, Bool.false_eq_true, Nat.add_zero] at hc
  simpa only [count, modify, Array.toList_modify] using hc

theorem isUnmarked_of_count_eq_zero (h : a.count Slot.isGarbage = 0) :
    a.isUnmarked x = false := by
  by_contra hx
  have := count_isGarbage_mark (Bool.not_eq_false _ ▸ hx)
  omega

/-- The course of a mark phase with the given work, the number of its marks, and the arena that it
ends with. -/
inductive Marking : Arena → List Handle → Nat → Arena → Prop
  | done {a : Arena} {work : List Handle} :
      (∀ x ∈ work, a.isUnmarked x = false) → Marking a work 0 a
  | mark {a b : Arena} {passed rest : List Handle} {x : Handle} {n : Nat} :
      (∀ y ∈ passed, a.isUnmarked y = false) → a.isUnmarked x = true →
      Marking (a.modify x Record.mark) (a.linksOf x ++ rest) n b →
      Marking a (passed ++ x :: rest) (n + 1) b

theorem dropWhile_cases {α : Type} (p : α → Bool) (l : List α) :
    (l.dropWhile p = [] ∧ ∀ x ∈ l, p x = true) ∨
      ∃ passed x rest, l.dropWhile p = x :: rest ∧ l = passed ++ x :: rest ∧
        (∀ y ∈ passed, p y = true) ∧ p x = false := by
  induction l with
  | nil => exact .inl ⟨rfl, by simp⟩
  | cons z l ih =>
    cases hz : p z with
    | false =>
      exact .inr ⟨[], z, l, by rw [List.dropWhile_cons_of_neg (by simp [hz])], rfl, by simp, hz⟩
    | true =>
      rw [List.dropWhile_cons_of_pos hz]
      rcases ih with ⟨hd, hl⟩ | ⟨passed, x, rest, hd, hl, hp, hx⟩
      · exact .inl ⟨hd, List.forall_mem_cons.mpr ⟨hz, hl⟩⟩
      · exact .inr ⟨z :: passed, x, rest, hd, by rw [hl, List.cons_append],
          List.forall_mem_cons.mpr ⟨hz, hp⟩, hx⟩

theorem marking_markFrom (rounds : Nat) (a : Arena) (work : List Handle) (count : Nat)
    (h : a.count Slot.isGarbage ≤ rounds) :
    ∃ n, Marking a work n (markFrom rounds a work count).2 ∧
      (markFrom rounds a work count).1 = count + n := by
  induction rounds generalizing a work count with
  | zero =>
    refine ⟨0, .done fun x _ ↦ ?_, rfl⟩
    exact isUnmarked_of_count_eq_zero (by omega)
  | succ rounds ih =>
    rcases dropWhile_cases (fun x ↦ !a.isUnmarked x) work with
      ⟨hd, hw⟩ | ⟨passed, x, rest, hd, rfl, hp, hx⟩
    · have he : markFrom (rounds + 1) a work count = (count, a) := by
        rw [markFrom, hd]
      rw [he]
      exact ⟨0, .done fun x hx ↦ by simpa using hw x hx, rfl⟩
    · have hx : a.isUnmarked x = true := by simpa using hx
      have he : markFrom (rounds + 1) a (passed ++ x :: rest) count =
          markFrom rounds (a.modify x Record.mark) (a.linksOf x ++ rest) (count + 1) := by
        rw [markFrom, hd]
        rfl
      have hc := count_isGarbage_mark hx
      obtain ⟨n, hm, hn⟩ := ih (a.modify x Record.mark) (a.linksOf x ++ rest) (count + 1) (by omega)
      rw [he]
      exact ⟨n + 1, .mark (fun y hy ↦ by simpa using hp y hy) hx hm, by omega⟩

theorem marking_mark (a : Arena) (roots : List Handle) :
    Marking a roots (a.mark roots).1 (a.mark roots).2 := by
  have hc : a.count Slot.isGarbage ≤ a.slots.size := List.countP_le_length
  obtain ⟨n, hm, hn⟩ := marking_markFrom a.slots.size a roots 0 hc
  have he : (a.mark roots).1 = n := by rw [mark, hn, Nat.zero_add]
  rw [he]
  exact hm

theorem Marking.alike (h : Marking a work n b) : Alike b a := by
  induction h with
  | done => exact fun _ ↦ rfl
  | mark _ _ _ ih => exact ih.trans (alike_mark _ _)

theorem Marking.live_eq (h : Marking a work n b) : b.live = a.live := by
  induction h with
  | done => rfl
  | mark _ _ _ ih => exact ih

theorem Marking.sound (h : Marking a work n b) (hx : b.IsMarked x) :
    a.IsMarked x ∨ Reach a work x := by
  induction h with
  | done => exact .inl hx
  | @mark a b passed rest z n hp hz hm ih =>
    have hc := contains_of_isUnmarked hz
    have hroot : Reach a (passed ++ z :: rest) z := .root (by simp) hc
    rcases ih hx with hx | hx
    · rcases (isMarked_mark_iff hc).mp hx with rfl | hx
      · exact .inr hroot
      · exact .inl hx
    -- The links of the marked record stand before the rest of the work.
    · refine .inr (((alike_mark a z).reach hx).trans fun y hy hcy ↦ ?_)
      rcases List.mem_append.mp hy with hy | hy
      · exact .link hroot hy hcy
      · exact .root (by simp [hy]) hcy

/-- The invariant of marking: what a marked record links to is marked itself or still to be done. -/
def Pending (a : Arena) (work : List Handle) : Prop :=
  ∀ x y, a.IsMarked x → y ∈ a.linksOf x → a.contains y = true → a.IsMarked y ∨ y ∈ work

theorem Pending.mark {passed rest : List Handle} (h : Pending a (passed ++ x :: rest))
    (hp : ∀ y ∈ passed, a.isUnmarked y = false) (hx : a.isUnmarked x = true) :
    Pending (a.modify x Record.mark) (a.linksOf x ++ rest) := by
  intro y z hy hz hc
  have hcx := contains_of_isUnmarked hx
  rw [(alike_mark a x).linksOf] at hz
  rw [contains_modify] at hc
  rw [isMarked_mark_iff hcx, List.mem_append]
  rcases (isMarked_mark_iff hcx).mp hy with rfl | hy
  · exact .inr (.inl hz)
  · rcases h y z hy hz hc with hm | hm
    · exact .inl (.inr hm)
    · rcases List.mem_append.mp hm with hm | hm
      · exact .inl (.inr (isMarked_of_isUnmarked_eq_false (hp z hm) hc))
      · rcases List.mem_cons.mp hm with rfl | hm
        · exact .inl (.inl rfl)
        · exact .inr (.inr hm)

theorem Marking.keeps (h : Marking a work n b) (hx : a.IsMarked x) : b.IsMarked x := by
  induction h with
  | done => exact hx
  | mark _ hz _ ih => exact ih ((isMarked_mark_iff (contains_of_isUnmarked hz)).mpr (.inr hx))

theorem Marking.marks (h : Marking a work n b) (hx : x ∈ work) (hc : a.contains x = true) :
    b.IsMarked x := by
  induction h with
  | done hw => exact isMarked_of_isUnmarked_eq_false (hw x hx) hc
  | mark hp hz hm ih =>
    rcases List.mem_append.mp hx with hx | hx
    · exact (Marking.mark hp hz hm).keeps (isMarked_of_isUnmarked_eq_false (hp x hx) hc)
    · rcases List.mem_cons.mp hx with rfl | hx
      · exact hm.keeps ((isMarked_mark_iff hc).mpr (.inl rfl))
      · exact ih (List.mem_append_right _ hx) (by rw [contains_modify]; exact hc)

theorem Marking.closed (h : Marking a work n b) (ha : Pending a work) : Pending b [] := by
  induction h with
  | done hw =>
    intro x y hx hy hc
    rcases ha x y hx hy hc with hy | hy
    · exact .inl hy
    · exact .inl (isMarked_of_isUnmarked_eq_false (hw y hy) hc)
  | mark hp hz _ ih => exact ih (ha.mark hp hz)

theorem Marking.count_isGarbage (h : Marking a work n b) :
    b.count Slot.isGarbage + n = a.count Slot.isGarbage := by
  induction h with
  | done => rfl
  | mark _ hx _ ih =>
    have := count_isGarbage_mark hx
    omega

theorem Marking.encard (h : Marking a work n b) :
    {x | b.IsMarked x}.encard = {x | a.IsMarked x}.encard + n := by
  induction h with
  | done => simp
  | @mark a b passed rest x n _ hx _ ih =>
    have hs : {y | (a.modify x Record.mark).IsMarked y} = Insert.insert x {y | a.IsMarked y} := by
      ext y
      exact isMarked_mark_iff (contains_of_isUnmarked hx)
    have hn : x ∉ {y | a.IsMarked y} := not_isMarked_of_isUnmarked hx
    rw [ih, hs, Set.encard_insert_of_notMem hn, Nat.cast_add, Nat.cast_one, add_assoc, add_comm 1]

/-- Marking from scratch marks what the roots lead to, and nothing else. -/
theorem Marking.isMarked_iff (h : Marking a roots n b) (ha : Unmarked a) :
    b.IsMarked x ↔ Reach a roots x := by
  constructor
  · intro hx
    exact (h.sound hx).resolve_left ha.not_isMarked
  · intro hx
    have hclosed := h.closed fun x _ hx ↦ absurd hx ha.not_isMarked
    induction hx with
    | root hx hc => exact h.marks hx hc
    | link _ hy hc ih =>
      have hlink := hclosed _ _ ih (h.alike.linksOf _ ▸ hy) (h.alike.contains _ ▸ hc)
      exact hlink.resolve_right List.not_mem_nil

theorem Marking.encard_reach (h : Marking a roots n b) (ha : Unmarked a) :
    {x | Reach a roots x}.encard = n := by
  have hb : {x | Reach a roots x} = {x | b.IsMarked x} := by
    ext x
    exact (h.isMarked_iff ha).symm
  have he : {x | a.IsMarked x} = ∅ := by
    ext x
    exact iff_of_false ha.not_isMarked (Set.notMem_empty x)
  rw [hb, h.encard, he, Set.encard_empty, zero_add]

theorem get?_collect_of_reach (ha : Unmarked a) (hx : Reach a roots x) :
    (a.mark roots).2.sweep.2.get? x = a.get? x := by
  have hm := marking_mark a roots
  obtain ⟨q, hq, hmarked⟩ := (hm.isMarked_iff ha).mpr hx
  have hshown := hm.alike x
  rw [hq, Option.map_some] at hshown
  obtain ⟨r, hr, he⟩ := Option.map_eq_some_iff.mp hshown.symm
  have hu : r.unmark = r := by
    rw [Record.unmark, ← ha.get? hr]
  rw [get?_sweep, hq, Option.filter_some, if_pos hmarked, Option.map_some, hr, ← he, hu]

theorem get?_collect_of_not_reach (ha : Unmarked a) (hx : ¬ Reach a roots x) :
    (a.mark roots).2.sweep.2.get? x = none := by
  have hn : ¬ (a.mark roots).2.IsMarked x := fun hm ↦
    hx (((marking_mark a roots).isMarked_iff ha).mp hm)
  rw [get?_sweep, Option.map_eq_none_iff, Option.filter_eq_none_iff]
  exact fun r hr hm ↦ hn ⟨r, hr, hm⟩

theorem contains_collect_iff (ha : Unmarked a) :
    (a.mark roots).2.sweep.2.contains x = true ↔ Reach a roots x := by
  by_cases hx : Reach a roots x
  · rw [contains, get?_collect_of_reach ha hx]
    exact iff_of_true hx.contains hx
  · rw [contains, get?_collect_of_not_reach ha hx]
    exact iff_of_false Bool.false_ne_true hx

theorem linksOf_collect (ha : Unmarked a) (hx : Reach a roots x) :
    (a.mark roots).2.sweep.2.linksOf x = a.linksOf x := by
  rw [linksOf, get?_collect_of_reach ha hx, linksOf]

/-- A collection never frees a root, not even where marks are left from an earlier one. -/
theorem contains_collect_of_mem (hx : x ∈ roots) (hc : a.contains x = true) :
    (a.mark roots).2.sweep.2.contains x = true := by
  obtain ⟨r, hr, hm⟩ := (marking_mark a roots).marks hx hc
  rw [contains, get?_sweep, hr, Option.filter_some, if_pos hm]
  rfl

end Arena

end TaggedHeap
