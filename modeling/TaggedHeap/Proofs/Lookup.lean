import TaggedHeap.Collector
import Mathlib.Data.List.Basic

namespace TaggedHeap

/-- The record without its mark, which is what a heap shows of it. -/
def Record.unmark (r : Record) : Record :=
  { r with marked := false }

namespace Arena

variable {a b : Arena} {x y : Handle} {r r' : Record}

theorem get?_eq_some_iff :
    a.get? x = some r ↔
      ∃ s, a.slots[x.slot.toNat]? = some s ∧ s.generation = x.generation ∧ s.record = some r := by
  unfold get?
  cases a.slots[x.slot.toNat]? with
  | none => simp
  | some s =>
    by_cases hg : s.generation = x.generation
    · simp [hg]
    · simp [hg]

theorem contains_iff : a.contains x = true ↔ ∃ r, a.get? x = some r :=
  Option.isSome_iff_exists

theorem contains_of_get? (h : a.get? x = some r) : a.contains x = true :=
  contains_iff.mpr ⟨r, h⟩

theorem contains_modify (f : Record → Record) : (a.modify x f).contains y = a.contains y := by
  unfold contains
  rw [get?_modify]
  split
  · exact Option.isSome_map
  · rfl

/-- Storing a record takes no record away from a handle, even where it lands on a slot in use. -/
theorem contains_insert (r : Record) (h : a.contains x = true) :
    (a.insert r).2.contains x = true := by
  obtain ⟨q, hq⟩ := contains_iff.mp h
  obtain ⟨s, hs, hg, hr⟩ := get?_eq_some_iff.mp hq
  unfold insert
  split
  · refine contains_of_get? (get?_eq_some_iff.mpr ⟨s, ?_, hg, hr⟩)
    have hlt := (Array.getElem?_eq_some_iff.mp hs).1
    rw [Array.getElem?_push, if_neg (Nat.ne_of_lt hlt)]
    exact hs
  · next i rest _ =>
    by_cases hi : i.toNat = x.slot.toNat
    · refine contains_of_get? (r := r)
        (get?_eq_some_iff.mpr ⟨{ s with record := some r }, ?_, hg, rfl⟩)
      rw [Array.getElem?_modify, if_pos hi, hs]
      rfl
    · refine contains_of_get? (get?_eq_some_iff.mpr ⟨s, ?_, hg, hr⟩)
      rw [Array.getElem?_modify, if_neg hi]
      exact hs

theorem get?_insert_cases (h : (a.insert r).2.get? x = some r') : r' = r ∨ a.get? x = some r' := by
  obtain ⟨s, hs, hg, hr⟩ := get?_eq_some_iff.mp h
  unfold insert at hs
  split at hs
  · rw [Array.getElem?_push] at hs
    split at hs
    · cases hs
      exact .inl (Option.some.inj hr).symm
    · exact .inr (get?_eq_some_iff.mpr ⟨s, hs, hg, hr⟩)
  · rw [Array.getElem?_modify] at hs
    split at hs
    · obtain ⟨t, _, rfl⟩ := Option.map_eq_some_iff.mp hs
      exact .inl (Option.some.inj hr).symm
    · exact .inr (get?_eq_some_iff.mpr ⟨s, hs, hg, hr⟩)

theorem getElem?_slots_sweep (i : Nat) : a.sweep.2.slots[i]? = a.slots[i]?.map Slot.sweep := by
  simp [sweep]

theorem get?_sweep : a.sweep.2.get? x = ((a.get? x).filter Record.marked).map Record.unmark := by
  unfold get?
  rw [getElem?_slots_sweep]
  cases a.slots[x.slot.toNat]? with
  | none => rfl
  | some s =>
    cases s with
    | mk g q =>
      cases q with
      | none => simp [Slot.sweep]
      | some r =>
        cases hm : r.marked
        · by_cases hg : g = x.generation <;> simp [Slot.sweep, Option.filter_some, hm, hg]
        · by_cases hg : g = x.generation <;>
            simp [Slot.sweep, Option.filter_some, Record.unmark, hm, hg]

theorem linksOf_of_get? (h : a.get? x = some r) : a.linksOf x = r.links := by
  rw [linksOf, h]

theorem contains_of_mem_linksOf (h : y ∈ a.linksOf x) : a.contains x = true := by
  unfold linksOf at h
  split at h
  · next r hr => exact contains_of_get? hr
  · cases h

theorem isUnmarked_iff : a.isUnmarked x = true ↔ ∃ r, a.get? x = some r ∧ r.marked = false := by
  unfold isUnmarked
  cases a.get? x <;> simp

/-- A statement about all records of an arena, those included that no handle finds. -/
def All (P : Record → Prop) (a : Arena) : Prop :=
  ∀ (i : Nat) (s : Slot) (r : Record), a.slots[i]? = some s → s.record = some r → P r

variable {P Q : Record → Prop}

theorem All.get? (h : All P a) (hr : a.get? x = some r) : P r := by
  obtain ⟨s, hs, _, hq⟩ := get?_eq_some_iff.mp hr
  exact h _ s r hs hq

theorem All.empty (seed : UInt32) : All P (empty seed) := by
  intro i s r hs
  simp [Arena.empty] at hs

theorem All.insert (h : All P a) (hr : P r) : All P (a.insert r).2 := by
  intro i s q hs hq
  unfold Arena.insert at hs
  split at hs
  · rw [Array.getElem?_push] at hs
    split at hs
    · cases hs
      exact Option.some.inj hq ▸ hr
    · exact h i s q hs hq
  · rw [Array.getElem?_modify] at hs
    split at hs
    · obtain ⟨t, _, rfl⟩ := Option.map_eq_some_iff.mp hs
      exact Option.some.inj hq ▸ hr
    · exact h i s q hs hq

theorem All.modify {f : Record → Record} (h : All P a)
    (hf : ∀ r, a.get? x = some r → P r → P (f r)) : All P (a.modify x f) := by
  intro i s q hs hq
  simp only [Arena.modify, Array.getElem?_modify] at hs
  split at hs
  · next hi =>
    obtain ⟨t, ht, rfl⟩ := Option.map_eq_some_iff.mp hs
    by_cases hg : t.generation = x.generation
    · rw [if_pos hg] at hq
      obtain ⟨r, hr, rfl⟩ := Option.map_eq_some_iff.mp hq
      subst hi
      exact hf r (get?_eq_some_iff.mpr ⟨t, ht, hg, hr⟩) (h _ t r ht hr)
    · rw [if_neg hg] at hq
      exact h i t q ht hq
  · exact h i s q hs hq

theorem All.sweep (h : All P a) (hPQ : ∀ r, P r → Q r.unmark) : All Q a.sweep.2 := by
  intro i s q hs hq
  rw [getElem?_slots_sweep] at hs
  obtain ⟨t, ht, rfl⟩ := Option.map_eq_some_iff.mp hs
  unfold Slot.sweep at hq
  split at hq
  · next r hr =>
    split at hq
    · exact Option.some.inj hq ▸ hPQ r (h i t r ht hr)
    · cases hq
  · next hr =>
    rw [hr] at hq
    cases hq

/-- No collection is under way. -/
abbrev Unmarked (a : Arena) : Prop :=
  All (fun r ↦ r.marked = false) a

theorem Unmarked.sweep : Unmarked a.sweep.2 :=
  All.sweep (P := fun _ ↦ True) (fun _ _ _ _ _ ↦ trivial) fun _ _ ↦ rfl

end Arena

end TaggedHeap
