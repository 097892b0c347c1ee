import TaggedHeap.Proofs.History
import TaggedHeap.Heap.Attribute
import Mathlib.Data.List.Perm.Subperm

namespace TaggedHeap

open Arena

theorem Arena.length_le_size {a : Arena} {l : List Handle} (hl : l.Nodup)
    (hc : ∀ x ∈ l, a.contains x = true) : l.length ≤ a.slots.size := by
  have hslots : (l.map fun x ↦ x.slot.toNat).Nodup :=
    hl.map_on fun x hx y hy h ↦ eq_of_slot_eq (hc y hy) (hc x hx) (UInt32.toNat_inj.mp h)
  have hsub : (l.map fun x ↦ x.slot.toNat) ⊆ List.range a.slots.size := by
    intro i hi
    obtain ⟨x, hx, rfl⟩ := List.mem_map.mp hi
    obtain ⟨r, hr⟩ := contains_iff.mp (hc x hx)
    obtain ⟨s, hs, -⟩ := get?_eq_some_iff.mp hr
    exact List.mem_range.mpr (Array.getElem?_eq_some_iff.mp hs).1
  simpa only [List.length_map, List.length_range] using
    (List.subperm_of_subset hslots hsub).length_le

theorem Payload.cell?_eq_none_iff {p : Payload} :
    p.cell? = none ↔ ∀ head tail tag, p ≠ .cell head tail tag := by
  cases p <;> simp [cell?]

namespace Heap

variable {h : Heap} {name cell last tail tail' : Handle} {n m : Nat}

def Passes (h : Heap) (name cell tail : Handle) : Prop :=
  cell ≠ h.nil ∧ ∃ r head tag,
    h.arena.get? cell = some r ∧ r.payload = .cell head tail tag ∧ tag ≠ name

/-- From the cell on, the search passes so many cells and then ends. -/
inductive Ends (h : Heap) (name : Handle) : Nat → Handle → Prop
  | here {cell : Handle} : (∀ tail, ¬ h.Passes name cell tail) → Ends h name 0 cell
  | pass {n : Nat} {cell tail : Handle} :
      h.Passes name cell tail → Ends h name n tail → Ends h name (n + 1) cell

theorem Passes.isLive (hp : h.Passes name cell tail) : h.isLive cell = true := by
  obtain ⟨-, r, -, -, hr, -⟩ := hp
  exact contains_of_get? hr

theorem Passes.eq (hp : h.Passes name cell tail) (hp' : h.Passes name cell tail') :
    tail' = tail := by
  obtain ⟨-, r, head, tag, hr, hc, -⟩ := hp
  obtain ⟨-, r', head', tag', hr', hc', -⟩ := hp'
  rw [hr, Option.some_inj] at hr'
  subst hr'
  rw [hc, Payload.cell.injEq] at hc'
  exact hc'.2.1.symm

theorem Passes.searchFrom (hp : h.Passes name cell tail) (n : Nat) (last : Handle) :
    h.searchFrom name (n + 1) cell last = h.searchFrom name n tail cell := by
  obtain ⟨hne, r, head, tag, hr, hc, ht⟩ := hp
  rw [Heap.searchFrom, if_neg hne, hr, Option.map_some, hc]
  exact if_neg ht

theorem exists_searchFrom (hp : ∀ tail, ¬ h.Passes name cell tail) (last : Handle) :
    ∃ s, s ≠ .endless ∧ ∀ n, h.searchFrom name (n + 1) cell last = s := by
  by_cases hn : cell = h.nil
  · exact ⟨.absent last, nofun, fun n ↦ if_pos hn⟩
  · simp only [Heap.searchFrom, if_neg hn]
    split
    · next head tail tag heq =>
      by_cases ht : tag = name
      · exact ⟨.found cell, nofun, fun n ↦ if_pos ht⟩
      · obtain ⟨r, hr, hc⟩ := Option.map_eq_some_iff.mp heq
        exact absurd ⟨hn, r, head, tag, hr, hc, ht⟩ (hp tail)
    · exact ⟨.broken cell, nofun, fun _ ↦ rfl⟩

theorem searchFrom_cases (h : Heap) (name : Handle) (n : Nat) (cell last : Handle) :
    (∃ tail, h.Passes name cell tail ∧
        h.searchFrom name (n + 1) cell last = h.searchFrom name n tail cell) ∨
      h.searchFrom name (n + 1) cell last = .absent last ∨
      h.searchFrom name (n + 1) cell last = .found cell ∨
      (cell ≠ h.nil ∧ ∀ r, h.arena.get? cell = some r → r.payload.cell? = none) ∧
        h.searchFrom name (n + 1) cell last = .broken cell := by
  by_cases hp : ∃ tail, h.Passes name cell tail
  · obtain ⟨tail, hp⟩ := hp
    exact .inl ⟨tail, hp, hp.searchFrom n last⟩
  · refine .inr ?_
    rw [searchFrom]
    split
    · exact .inl rfl
    · next hn =>
      split
      · next head tail tag heq =>
        split
        · exact .inr (.inl rfl)
        · next ht =>
          obtain ⟨r, hr, hc⟩ := Option.map_eq_some_iff.mp heq
          exact absurd ⟨tail, hn, r, head, tag, hr, hc, ht⟩ hp
      · next hc =>
        refine .inr (.inr ⟨⟨hn, fun r hr ↦ ?_⟩, rfl⟩)
        refine Payload.cell?_eq_none_iff.mpr fun head tail tag hpay ↦ hc head tail tag ?_
        rw [hr, Option.map_some, hpay]

theorem searchFrom_succ (hs : h.searchFrom name n cell last ≠ .endless) :
    h.searchFrom name (n + 1) cell last = h.searchFrom name n cell last := by
  induction n generalizing cell last with
  | zero =>
    by_cases hn : cell = h.nil
    · rw [searchFrom, if_pos hn, searchFrom, if_pos hn]
    · rw [searchFrom, if_neg hn] at hs
      exact absurd rfl hs
  | succ n ih =>
    by_cases hp : ∃ tail, h.Passes name cell tail
    · obtain ⟨tail, hp⟩ := hp
      rw [hp.searchFrom] at hs
      rw [hp.searchFrom, hp.searchFrom, ih hs]
    · obtain ⟨s, -, hs⟩ := exists_searchFrom (not_exists.mp hp) last
      rw [hs, hs]

theorem searchFrom_eq_of_le (hs : h.searchFrom name n cell last ≠ .endless) (hnm : n ≤ m) :
    h.searchFrom name m cell last = h.searchFrom name n cell last := by
  induction hnm with
  | refl => rfl
  | step _ ih => rw [searchFrom_succ (ih ▸ hs), ih]

theorem Ends.searchFrom_ne (he : Ends h name n cell) (last : Handle) :
    h.searchFrom name (n + 1) cell last ≠ .endless := by
  induction he generalizing last with
  | here hp =>
    obtain ⟨s, hne, hs⟩ := exists_searchFrom hp last
    exact hs 0 ▸ hne
  | pass hp _ ih =>
    rw [hp.searchFrom]
    exact ih _

theorem exists_ends (hs : h.searchFrom name n cell last ≠ .endless) : ∃ m, Ends h name m cell := by
  induction n generalizing cell last with
  | zero =>
    rw [searchFrom] at hs
    split_ifs at hs with hn
    · exact ⟨0, .here fun tail hp ↦ hp.1 hn⟩
    · exact absurd rfl hs
  | succ n ih =>
    by_cases hp : ∃ tail, h.Passes name cell tail
    · obtain ⟨tail, hp⟩ := hp
      rw [hp.searchFrom] at hs
      obtain ⟨m, hm⟩ := ih hs
      exact ⟨m + 1, .pass hp hm⟩
    · exact ⟨0, .here (not_exists.mp hp)⟩

theorem Ends.eq (hn : Ends h name n cell) (hm : Ends h name m cell) : n = m := by
  induction hn generalizing m with
  | here hp =>
    cases hm with
    | here _ => rfl
    | pass hp' _ => exact absurd hp' (hp _)
  | pass hp _ ih =>
    cases hm with
    | here hp' => exact absurd hp (hp' _)
    | pass hp' hm => rw [ih (hp.eq hp' ▸ hm)]

/-- The cells that a search passes are all different, for from each it is another way to go. -/
theorem Ends.cells (he : Ends h name n cell) :
    ∃ l : List Handle, l.length = n ∧ l.Nodup ∧
      ∀ y ∈ l, h.isLive y = true ∧ ∃ k, 0 < k ∧ k ≤ n ∧ Ends h name k y := by
  induction he with
  | here _ => exact ⟨[], rfl, List.nodup_nil, nofun⟩
  | @pass n cell tail hp he ih =>
    obtain ⟨l, hlen, hnodup, hl⟩ := ih
    have hcell : Ends h name (n + 1) cell := .pass hp he
    refine ⟨cell :: l, congrArg _ hlen, List.nodup_cons.mpr ⟨fun hmem ↦ ?_, hnodup⟩, ?_⟩
    · obtain ⟨-, k, -, hk, hek⟩ := hl cell hmem
      have := hcell.eq hek
      omega
    · refine List.forall_mem_cons.mpr
        ⟨⟨hp.isLive, n + 1, Nat.succ_pos n, le_rfl, hcell⟩, fun y hy ↦ ?_⟩
      obtain ⟨hlive, k, hpos, hk, hek⟩ := hl y hy
      exact ⟨hlive, k, hpos, by omega, hek⟩

theorem Ends.le_size (he : Ends h name n cell) : n ≤ h.arena.slots.size := by
  obtain ⟨l, rfl, hnodup, hl⟩ := he.cells
  exact length_le_size hnodup fun y hy ↦ (hl y hy).1

/-- As many steps as there are slots, and one more, are as good as any number of steps. -/
theorem search_eq (hs : h.searchFrom name n cell h.nil ≠ .endless) :
    h.search name cell = h.searchFrom name n cell h.nil := by
  obtain ⟨m, hm⟩ := exists_ends hs
  have hend := hm.searchFrom_ne h.nil
  have hmn := searchFrom_eq_of_le hend (le_max_left (m + 1) n)
  rw [search, searchFrom_eq_of_le hend (Nat.succ_le_succ hm.le_size), ← hmn,
    searchFrom_eq_of_le hs (le_max_right (m + 1) n)]

theorem search_eq_endless_iff :
    h.search name cell = .endless ↔ ∀ n, h.searchFrom name n cell h.nil = .endless := by
  refine ⟨fun hs n ↦ ?_, fun hs ↦ hs _⟩
  by_contra hn
  exact hn ((search_eq hn).symm.trans hs)

end Heap

end TaggedHeap
