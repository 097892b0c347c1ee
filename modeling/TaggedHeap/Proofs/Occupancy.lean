import TaggedHeap.Proofs.Marking

namespace TaggedHeap.Arena

variable {a b : Arena} {x : Handle} {roots : List Handle} {n : Nat}

def occupied (a : Arena) : Nat :=
  a.count fun s ↦ s.record.isSome

/-- Every slot has a number of its own. -/
def Numbered (a : Arena) : Prop :=
  a.slots.size ≤ UInt32.size

instance : Decidable (Numbered a) :=
  inferInstanceAs (Decidable (a.slots.size ≤ UInt32.size))

theorem Numbered.all {P : Record → Prop} (ha : Numbered a)
    (hP : ∀ x r, a.get? x = some r → P r) : All P a := by
  intro i s r hs hr
  have hlt : i < UInt32.size := lt_of_lt_of_le (Array.getElem?_eq_some_iff.mp hs).1 ha
  refine hP ⟨UInt32.ofNat i, s.generation⟩ r (get?_eq_some_iff.mpr ⟨s, ?_, rfl, hr⟩)
  rwa [UInt32.toNat_ofNat_of_lt' hlt]

theorem size_slots_modify (f : Record → Record) : (a.modify x f).slots.size = a.slots.size :=
  Array.size_modify

theorem numbered_modify_iff {f : Record → Record} : Numbered (a.modify x f) ↔ Numbered a := by
  rw [Numbered, size_slots_modify, Numbered]

def isFree (a : Arena) (i : UInt32) : Bool :=
  a.slots[i.toNat]?.any fun s ↦ s.record.isNone

/-- The free list holds every empty slot once and nothing else, and the live count is the number of
slots in use. -/
structure Accounted (a : Arena) : Prop where
  live_eq : a.live = a.occupied
  nodup_free : a.free.Nodup
  mem_free_iff : ∀ i, i ∈ a.free ↔ a.isFree i = true

theorem countP_range_getElem? {α : Type} (p : α → Bool) (l : List α) :
    (List.range l.length).countP (fun i ↦ l[i]?.any p) = l.countP p := by
  induction l with
  | nil => rfl
  | cons s l ih =>
    rw [List.length_cons, List.range_succ_eq_map, List.countP_cons, List.countP_cons,
      List.countP_map, ← ih]
    rfl

theorem length_garbage (a : Arena) : a.garbage.length = a.count Slot.isGarbage := by
  have hsome (i : Nat) : (if a.slots[i]?.any Slot.isGarbage then some (UInt32.ofNat i)
      else none).isSome = a.slots.toList[i]?.any Slot.isGarbage := by
    rw [Array.getElem?_toList]
    cases a.slots[i]?.any Slot.isGarbage <;> rfl
  rw [garbage, List.length_filterMap_eq_countP, count,
    ← countP_range_getElem? Slot.isGarbage a.slots.toList, Array.length_toList]
  simp only [hsome]

theorem mem_garbage_iff (ha : Numbered a) (i : UInt32) :
    i ∈ a.garbage ↔ a.slots[i.toNat]?.any Slot.isGarbage = true := by
  unfold garbage
  rw [List.mem_filterMap]
  constructor
  · rintro ⟨j, hj, hi⟩
    have hlt : j < UInt32.size := lt_of_lt_of_le (List.mem_range.mp hj) ha
    split at hi
    · next hg =>
      cases hi
      rwa [UInt32.toNat_ofNat_of_lt' hlt]
    · cases hi
  · intro hg
    obtain ⟨s, hs, _⟩ := (Option.any_eq_true _ _).mp hg
    have hlt := (Array.getElem?_eq_some_iff.mp hs).1
    exact ⟨i.toNat, List.mem_range.mpr hlt, by rw [if_pos hg, UInt32.ofNat_toNat]⟩

theorem nodup_garbage (ha : Numbered a) : a.garbage.Nodup := by
  refine List.Nodup.filterMap ?_ List.nodup_range
  have hlt (j : Nat) (h : a.slots[j]?.any Slot.isGarbage = true) : j < UInt32.size := by
    obtain ⟨s, hs, _⟩ := (Option.any_eq_true _ _).mp h
    exact lt_of_lt_of_le (Array.getElem?_eq_some_iff.mp hs).1 ha
  intro j k i hj hk
  rw [Option.mem_def] at hj hk
  split at hj
  · next hgj =>
    split at hk
    · next hgk =>
      have he := congrArg UInt32.toNat (Option.some.inj (hj.trans hk.symm))
      rwa [UInt32.toNat_ofNat_of_lt' (hlt j hgj), UInt32.toNat_ofNat_of_lt' (hlt k hgk)] at he
    · cases hk
  · cases hj

theorem occupied_sweep (a : Arena) :
    a.sweep.2.occupied + a.count Slot.isGarbage = a.occupied := by
  have hl : a.sweep.2.slots.toList = a.slots.toList.map Slot.sweep := by simp [sweep]
  unfold occupied count
  rw [hl]
  induction a.slots.toList with
  | nil => rfl
  | cons s l ih =>
    have hs : (if s.sweep.record.isSome then 1 else 0) + (if s.isGarbage then 1 else 0) =
        if s.record.isSome then 1 else 0 := by
      unfold Slot.sweep Slot.isGarbage
      cases hr : s.record with
      | none => simp [hr]
      | some r => cases hm : r.marked <;> simp [hm]
    simp only [List.map_cons, List.countP_cons]
    omega

theorem Unmarked.count_isGarbage (h : Unmarked a) : a.count Slot.isGarbage = a.occupied := by
  unfold count occupied count
  refine List.countP_congr fun s hs ↦ ?_
  obtain ⟨i, hi⟩ := List.mem_iff_getElem?.mp hs
  rw [Array.getElem?_toList] at hi
  unfold Slot.isGarbage
  cases hr : s.record with
  | none => simp
  | some r => simp [h i s r hi hr]

theorem getElem?_slots_modify (x : Handle) (f : Record → Record) (i : Nat) :
    ∃ g : Slot → Slot, (∀ s, (g s).generation = s.generation ∧
        (g s).record.isSome = s.record.isSome) ∧ (a.modify x f).slots[i]? = a.slots[i]?.map g := by
  refine ⟨fun s ↦ if x.slot.toNat = i ∧ s.generation = x.generation then
    { s with record := s.record.map f } else s, fun s ↦ ?_, ?_⟩
  · dsimp only
    split
    · exact ⟨rfl, Option.isSome_map⟩
    · exact ⟨rfl, rfl⟩
  · simp only [modify, Array.getElem?_modify]
    by_cases hi : x.slot.toNat = i
    · simp only [hi, if_true, true_and]
    · simp [hi]

theorem Marking.getElem?_slots {work : List Handle} (h : Marking a work n b) {i : Nat} {s : Slot}
    (hs : a.slots[i]? = some s) :
    ∃ t, b.slots[i]? = some t ∧ t.generation = s.generation ∧
      t.record.isSome = s.record.isSome := by
  induction h generalizing s with
  | done => exact ⟨s, hs, rfl, rfl⟩
  | @mark a b passed rest x n _ _ _ ih =>
    obtain ⟨g, hg, he⟩ := getElem?_slots_modify (a := a) x Record.mark i
    rw [hs, Option.map_some] at he
    obtain ⟨t, ht, htg, htr⟩ := ih he
    exact ⟨t, ht, htg.trans (hg s).1, htr.trans (hg s).2⟩

theorem occupied_modify (x : Handle) (f : Record → Record) :
    (a.modify x f).occupied = a.occupied := by
  unfold occupied count modify
  rw [Array.toList_modify]
  cases hs : a.slots.toList[x.slot.toNat]? with
  | none =>
    rw [List.modify_eq_set_getElem?, hs]
    rfl
  | some s =>
    have hc := countP_modify (fun s ↦ s.record.isSome)
      (fun s ↦ if s.generation = x.generation then { s with record := s.record.map f } else s) hs
    have hsome : (if s.generation = x.generation then { s with record := s.record.map f }
        else s : Slot).record.isSome = s.record.isSome := by
      split
      · exact Option.isSome_map
      · rfl
    rw [hsome] at hc
    omega

theorem isFree_modify (x : Handle) (f : Record → Record) (i : UInt32) :
    (a.modify x f).isFree i = a.isFree i := by
  obtain ⟨g, hg, he⟩ := getElem?_slots_modify (a := a) x f i.toNat
  unfold isFree
  rw [he]
  cases a.slots[i.toNat]? with
  | none => rfl
  | some s =>
    have hs := (hg s).2
    simp only [Option.map_some, Option.any_some]
    cases hq : s.record <;> cases hq' : (g s).record <;> simp_all

theorem Accounted.modify (h : Accounted a) (x : Handle) (f : Record → Record) :
    Accounted (a.modify x f) where
  live_eq := h.live_eq.trans (occupied_modify x f).symm
  nodup_free := h.nodup_free
  mem_free_iff i := (h.mem_free_iff i).trans (by rw [isFree_modify])

theorem Accounted.empty (seed : UInt32) : Accounted (empty seed) where
  live_eq := rfl
  nodup_free := List.nodup_nil
  mem_free_iff i := by simp [Arena.empty, isFree]

theorem Accounted.insert (h : Accounted a) (r : Record) : Accounted (a.insert r).2 := by
  unfold Arena.insert
  split
  · next hfree =>
    refine ⟨?_, List.nodup_iff_pairwise_ne.mpr (hfree ▸ List.Pairwise.nil), fun i ↦ ?_⟩
    · have hl := h.live_eq
      simp only [occupied, count, Array.toList_push, List.countP_append, List.countP_singleton,
        Option.isSome_some, if_true] at hl ⊢
      omega
    · have hi := h.mem_free_iff i
      simp only [hfree, List.not_mem_nil, false_iff, Bool.not_eq_true, isFree] at hi ⊢
      rw [Array.getElem?_push]
      split
      · rfl
      · exact hi
  · next i rest hfree =>
    have hnodup := h.nodup_free
    rw [hfree] at hnodup
    obtain ⟨hi, hrest⟩ := List.nodup_cons.mp hnodup
    obtain ⟨s, hs, hn⟩ := (Option.any_eq_true _ _).mp
      ((h.mem_free_iff i).mp (hfree ▸ List.mem_cons_self))
    refine ⟨?_, hrest, fun j ↦ ?_⟩
    · have hc := countP_modify (fun s ↦ s.record.isSome)
        (fun s ↦ ({ s with record := some r } : Slot))
        (show a.slots.toList[i.toNat]? = some s by rw [Array.getElem?_toList]; exact hs)
      have hl := h.live_eq
      rw [Option.isNone_iff_eq_none] at hn
      simp only [hn, Option.isSome_none, Option.isSome_some, if_true, if_false,
        Bool.false_eq_true] at hc
      simp only [occupied, count, Array.toList_modify] at hl ⊢
      omega
    · have hj := h.mem_free_iff j
      rw [hfree, List.mem_cons] at hj
      simp only [isFree, Array.getElem?_modify] at hj ⊢
      by_cases hij : i = j
      · subst hij
        simp [hi, hs]
      · have hij' : i.toNat ≠ j.toNat := fun he ↦ hij (UInt32.toNat_inj.mp he)
        rw [if_neg hij', ← hj]
        simp [Ne.symm hij]

/-- Slots that a sweep empties come to the free list. With more slots than numbers, a wrong slot
would come there, one that is still in use. -/
theorem Accounted.sweep (h : Accounted a) (ha : Numbered a) : Accounted a.sweep.2 := by
  have hfree (i : UInt32) : a.sweep.2.isFree i = true ↔
      a.slots[i.toNat]?.any Slot.isGarbage = true ∨ a.isFree i = true := by
    unfold isFree
    rw [getElem?_slots_sweep]
    cases a.slots[i.toNat]? with
    | none => simp
    | some s =>
      unfold Slot.isGarbage
      cases hr : s.record with
      | none => simp [Slot.sweep, hr]
      | some r => cases hm : r.marked <;> simp [Slot.sweep, hr, hm]
  refine ⟨?_, ?_, fun i ↦ ?_⟩
  · have hs := occupied_sweep a
    have hl := h.live_eq
    have hg := length_garbage a
    simp only [Arena.sweep] at hs ⊢
    omega
  · refine List.nodup_append.mpr ⟨List.nodup_reverse.mpr (nodup_garbage ha), h.nodup_free, ?_⟩
    rintro i hi j hj rfl
    rw [List.mem_reverse, mem_garbage_iff ha] at hi
    obtain ⟨s, hs, hg⟩ := (Option.any_eq_true _ _).mp hi
    obtain ⟨t, ht, hn⟩ := (Option.any_eq_true _ _).mp ((h.mem_free_iff i).mp hj)
    rw [hs, Option.some_inj] at ht
    subst ht
    rw [Option.isNone_iff_eq_none] at hn
    simp [Slot.isGarbage, hn] at hg
  · rw [hfree]
    simp only [Arena.sweep, List.mem_append, List.mem_reverse]
    rw [mem_garbage_iff ha, h.mem_free_iff]

theorem Marking.accounted {work : List Handle} (h : Marking a work n b) (ha : Accounted a) :
    Accounted b := by
  induction h with
  | done => exact ha
  | mark _ _ _ ih => exact ih (ha.modify _ _)

theorem Marking.size_slots {work : List Handle} (h : Marking a work n b) :
    b.slots.size = a.slots.size := by
  induction h with
  | done => rfl
  | mark _ _ _ ih => rw [ih, size_slots_modify]

theorem size_slots_insert (a : Arena) (r : Record) :
    a.slots.size ≤ (a.insert r).2.slots.size ∧
      (a.insert r).2.slots.size ≤ a.slots.size + 1 := by
  unfold insert
  split
  · simp only [Array.size_push]
    omega
  · simp only [Array.size_modify]
    omega

theorem size_slots_sweep (a : Arena) : a.sweep.2.slots.size = a.slots.size := by
  simp [sweep]

theorem Accounted.get?_insert (h : Accounted a) (r : Record) (hn : Numbered (a.insert r).2) :
    (a.insert r).2.get? (a.insert r).1 = some r := by
  rw [get?_eq_some_iff]
  unfold Arena.insert at hn ⊢
  split
  · next hfree =>
    have hlt : a.slots.size < UInt32.size := by
      simpa only [Numbered, hfree, Array.size_push, Nat.succ_le_iff] using hn
    refine ⟨⟨a.seed, some r⟩, ?_, rfl, rfl⟩
    rw [UInt32.toNat_ofNat_of_lt' hlt, Array.getElem?_push_size]
  · next i rest hfree =>
    obtain ⟨s, hs, _⟩ := (Option.any_eq_true _ _).mp
      ((h.mem_free_iff i).mp (hfree ▸ List.mem_cons_self))
    refine ⟨{ s with record := some r }, ?_, ?_, rfl⟩
    · simp only [Array.getElem?_modify, if_true, hs, Option.map_some]
    · simp only [hs, Option.map_some, Option.getD_some]

theorem Accounted.get?_fst_insert (h : Accounted a) (r : Record)
    (hn : Numbered (a.insert r).2) : a.get? (a.insert r).1 = none := by
  unfold Arena.insert get? at *
  cases hfree : a.free with
  | nil =>
    have hlt : a.slots.size < UInt32.size := by
      simpa only [Numbered, hfree, Array.size_push, Nat.succ_le_iff] using hn
    simp only [UInt32.toNat_ofNat_of_lt' hlt, Array.getElem?_size]
  | cons i rest =>
    obtain ⟨s, hs, hr⟩ := (Option.any_eq_true _ _).mp
      ((h.mem_free_iff i).mp (hfree ▸ List.mem_cons_self))
    simp only [hs, Option.isNone_iff_eq_none.mp hr, ite_self]

theorem Accounted.get?_insert_of_get? (h : Accounted a) (r : Record) {q : Record}
    (hx : a.get? x = some q) : (a.insert r).2.get? x = some q := by
  obtain ⟨s, hs, hg, hq⟩ := get?_eq_some_iff.mp hx
  refine get?_eq_some_iff.mpr ⟨s, ?_, hg, hq⟩
  unfold Arena.insert
  split
  · have hlt := (Array.getElem?_eq_some_iff.mp hs).1
    rw [Array.getElem?_push, if_neg (Nat.ne_of_lt hlt)]
    exact hs
  · next i rest hfree =>
    have hi := (h.mem_free_iff i).mp (hfree ▸ List.mem_cons_self)
    rw [Array.getElem?_modify, if_neg]
    · exact hs
    · intro he
      simp [isFree, he, hs, hq] at hi

theorem get?_insert_of_ne {r : Record} (hx : x ≠ (a.insert r).1) :
    (a.insert r).2.get? x = a.get? x := by
  obtain ⟨i, g⟩ := x
  unfold Arena.insert get? at *
  cases hfree : a.free with
  | nil =>
    simp only [hfree, ne_eq, Handle.mk.injEq, not_and] at hx ⊢
    rw [Array.getElem?_push]
    by_cases hi : i.toNat = a.slots.size
    · have hg : ¬ a.seed = g := fun he ↦ hx (by rw [← hi, UInt32.ofNat_toNat]) he.symm
      simp [hi, hg]
    · rw [if_neg hi]
  | cons j rest =>
    simp only [hfree, ne_eq, Handle.mk.injEq, not_and] at hx ⊢
    rw [Array.getElem?_modify]
    by_cases hi : j.toNat = i.toNat
    · cases hs : a.slots[i.toNat]? with
      | none => simp
      | some s =>
        have hg : ¬ s.generation = g := fun he ↦
          hx (UInt32.toNat_inj.mp hi.symm) (by simp [hi, hs, he])
        simp [hi, hg]
    · rw [if_neg hi]

end TaggedHeap.Arena
