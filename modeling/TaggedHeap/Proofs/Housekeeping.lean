import TaggedHeap.Proofs.History

namespace TaggedHeap

def Record.setMark (b : Bool) (r : Record) : Record :=
  { r with marked := b }

namespace Arena

variable {a : Arena} {x : Handle} {i : Nat}

inductive Operation
  | insert (r : Record)
  | setMark (x : Handle) (b : Bool)
  | sweep

namespace Operation

def run (a : Arena) : Operation → Arena
  | insert r => (a.insert r).2
  | setMark x b => a.modify x (Record.setMark b)
  | sweep => a.sweep.2

def runAll (a : Arena) (ops : List Operation) : Arena :=
  ops.foldl run a

theorem size_slots_le_run (a : Arena) (op : Operation) :
    a.slots.size ≤ (run a op).slots.size := by
  cases op with
  | insert r => exact (size_slots_insert a r).1
  | setMark x b => exact (size_slots_modify _).ge
  | sweep => exact (size_slots_sweep a).ge

theorem size_slots_le_runAll (a : Arena) (ops : List Operation) :
    a.slots.size ≤ (runAll a ops).slots.size := by
  induction ops generalizing a with
  | nil => exact le_rfl
  | cons op ops ih => exact (size_slots_le_run a op).trans (ih (run a op))

theorem accounted_run (ha : Accounted a) (hn : Numbered a) (op : Operation) :
    Accounted (run a op) := by
  cases op with
  | insert r => exact ha.insert r
  | setMark x b => exact ha.modify x (Record.setMark b)
  | sweep => exact ha.sweep hn

theorem accounted_runAll (ha : Accounted a) (ops : List Operation)
    (hn : Numbered (runAll a ops)) : Accounted (runAll a ops) := by
  induction ops generalizing a with
  | nil => exact ha
  | cons op ops ih =>
    have hnow : Numbered a := (size_slots_le_runAll a (op :: ops)).trans hn
    exact ih (accounted_run ha hnow op) hn

end Operation

section Counting

theorem lt_size_of_any {p : Slot → Bool} (h : a.slots[i]?.any p = true) : i < a.slots.size := by
  obtain ⟨s, hs, _⟩ := (Option.any_eq_true _ _).mp h
  exact (Array.getElem?_eq_some_iff.mp hs).1

theorem ncard_slots (a : Arena) (p : Slot → Bool) :
    {i : Nat | a.slots[i]?.any p = true}.ncard = a.count p := by
  let l := (List.range a.slots.toList.length).filter fun i ↦ a.slots.toList[i]?.any p
  have hl : {i : Nat | a.slots[i]?.any p = true} = (l.toFinset : Set Nat) := by
    ext i
    simp only [l, Set.mem_ofPred_eq, List.coe_toFinset, List.mem_filter, List.mem_range,
      Array.getElem?_toList, Array.length_toList]
    exact (and_iff_right_of_imp lt_size_of_any).symm
  rw [hl, Set.ncard_coe_finset, List.toFinset_card_of_nodup (List.nodup_range.filter _),
    ← List.countP_eq_length_filter, countP_range_getElem?, count]

theorem finite_slots (a : Arena) (p : Slot → Bool) :
    {i : Nat | a.slots[i]?.any p = true}.Finite :=
  (Set.finite_lt_nat a.slots.size).subset fun _ hi ↦ lt_size_of_any hi

theorem injOn_slot (q : Record → Bool) :
    Set.InjOn (fun x : Handle ↦ x.slot.toNat) {x | (a.get? x).any q = true} := by
  intro x hx y hy he
  obtain ⟨r, hr, _⟩ := (Option.any_eq_true _ _).mp hx
  obtain ⟨r', hr', _⟩ := (Option.any_eq_true _ _).mp hy
  have hslot : x.slot = y.slot := UInt32.toNat_inj.mp he
  exact eq_of_slot_eq (contains_of_get? hr') (contains_of_get? hr) hslot

theorem image_slot (hn : Numbered a) (q : Record → Bool) :
    (fun x : Handle ↦ x.slot.toNat) '' {x | (a.get? x).any q = true} =
      {i : Nat | a.slots[i]?.any (fun s ↦ s.record.any q) = true} := by
  ext i
  constructor
  · rintro ⟨x, hx, rfl⟩
    obtain ⟨r, hr, hq⟩ := (Option.any_eq_true _ _).mp hx
    obtain ⟨s, hs, -, hrec⟩ := get?_eq_some_iff.mp hr
    simp only [Set.mem_ofPred_eq, hs, Option.any_some, hrec, hq]
  · intro hi
    obtain ⟨s, hs, hq⟩ := (Option.any_eq_true _ _).mp hi
    obtain ⟨r, hrec, hq⟩ := (Option.any_eq_true _ _).mp hq
    have hlt : i < UInt32.size := lt_of_lt_of_le (Array.getElem?_eq_some_iff.mp hs).1 hn
    have hslot : (UInt32.ofNat i).toNat = i := UInt32.toNat_ofNat_of_lt' hlt
    have hr : a.get? ⟨UInt32.ofNat i, s.generation⟩ = some r :=
      get?_eq_some_iff.mpr ⟨s, by rwa [hslot], rfl, hrec⟩
    exact ⟨⟨UInt32.ofNat i, s.generation⟩, by simpa [hr] using hq, hslot⟩

theorem ncard_records (hn : Numbered a) (q : Record → Bool) :
    {x | (a.get? x).any q = true}.ncard = a.count fun s ↦ s.record.any q := by
  rw [← (injOn_slot q).ncard_image, image_slot hn, ncard_slots]

theorem finite_records (hn : Numbered a) (q : Record → Bool) :
    {x | (a.get? x).any q = true}.Finite := by
  refine Set.Finite.of_finite_image ?_ (injOn_slot q)
  rw [image_slot hn]
  exact a.finite_slots _

end Counting

structure Stores (a : Arena) (r : Record) (p : Handle × Arena) : Prop where
  fresh : a.get? p.1 = none
  get?_self : p.2.get? p.1 = some r
  get?_of_ne : ∀ x, x ≠ p.1 → p.2.get? x = a.get? x

structure Sweeps (a : Arena) (p : Nat × Arena) : Prop where
  kept : ∀ x r, a.get? x = some r → r.marked = true → p.2.get? x = some { r with marked := false }
  removed : ∀ x, (∀ r, a.get? x = some r → r.marked = false) → p.2.get? x = none
  size_eq : p.2.slots.size = a.slots.size
  generationAt_eq : ∀ i, p.2.generationAt i =
    a.generationAt i + if a.holds i = true ∧ p.2.holds i = false then 1 else 0
  freed_eq_records : p.1 = {x | a.contains x = true ∧ p.2.contains x = false}.ncard
  freed_eq_slots : p.1 = {i | a.holds i = true ∧ p.2.holds i = false}.ncard
  live_add : p.2.live + p.1 = a.live

/-- An arena is a finite map from handles to records. -/
structure FiniteMap (a : Arena) : Prop where
  finite : {x | a.contains x = true}.Finite
  eq_of_slot_eq : ∀ x y, a.contains x = true → a.contains y = true → x.slot = y.slot → x = y
  count_free : ∀ i : Nat, (a.free.map UInt32.toNat).count i =
    if i < a.slots.size ∧ a.holds i = false then 1 else 0
  live_eq_slots : a.live = {i | a.holds i = true}.ncard
  live_eq_records : a.live = {x | a.contains x = true}.ncard
  insert : ∀ r, Numbered (a.insert r).2 → Stores a r (a.insert r)
  get?_setMark : ∀ x b y, (Operation.run a (.setMark x b)).get? y =
    if y = x then (a.get? y).map (Record.setMark b) else a.get? y
  sweep : Sweeps a a.sweep

theorem Accounted.stores (ha : Accounted a) (r : Record) (hn : Numbered (a.insert r).2) :
    Stores a r (a.insert r) where
  fresh := ha.get?_fst_insert r hn
  get?_self := ha.get?_insert r hn
  get?_of_ne _ hx := get?_insert_of_ne hx

theorem mem_swept_iff_holds : i ∈ a.swept ↔ a.holds i = true ∧ a.sweep.2.holds i = false := by
  rw [mem_swept_iff, holds, holds, getElem?_slots_sweep]
  cases a.slots[i]? with
  | none => simp
  | some s =>
    cases hr : s.record with
    | none => simp [Slot.isGarbage, hr]
    | some r => cases hm : r.marked <;> simp [Slot.isGarbage, Slot.sweep, hr, hm]

theorem contains_sweep_iff : a.contains x = true ∧ a.sweep.2.contains x = false ↔
    (a.get? x).any (fun r ↦ !r.marked) = true := by
  rw [contains, contains, get?_sweep]
  cases a.get? x with
  | none => simp
  | some r => cases hm : r.marked <;> simp [Option.filter_some, hm]

theorem isGarbage_eq (s : Slot) : s.isGarbage = s.record.any fun r ↦ !r.marked := by
  unfold Slot.isGarbage
  cases s.record <;> rfl

theorem Accounted.sweeps (ha : Accounted a) (hn : Numbered a) : Sweeps a a.sweep := by
  have hfreed : a.sweep.1 = a.count Slot.isGarbage := length_garbage a
  constructor
  · intro x r hx hm
    rw [get?_sweep, hx, Option.filter_some, if_pos hm]
    rfl
  · intro x hx
    rw [get?_sweep, Option.map_eq_none_iff, Option.filter_eq_none_iff]
    intro r hr
    simp [hx r hr]
  · exact size_slots_sweep a
  · intro i
    simp only [generationAt_sweep, mem_swept_iff_holds]
  · simp only [contains_sweep_iff]
    rw [ncard_records hn, hfreed, funext isGarbage_eq]
  · simp only [← mem_swept_iff_holds, mem_swept_iff]
    rw [ncard_slots, hfreed]
  · have hs := occupied_sweep a
    have hl := ha.live_eq
    have hl' := (ha.sweep hn).live_eq
    omega

theorem Accounted.count_free (ha : Accounted a) (hn : Numbered a) (i : Nat) :
    (a.free.map UInt32.toNat).count i = if i < a.slots.size ∧ a.holds i = false then 1 else 0 := by
  by_cases hi : i < UInt32.size
  · obtain ⟨j, rfl⟩ : ∃ j : UInt32, j.toNat = i := ⟨UInt32.ofNat i, UInt32.toNat_ofNat_of_lt' hi⟩
    have hfree : j ∈ a.free ↔ j.toNat < a.slots.size ∧ a.holds j.toNat = false := by
      rw [ha.mem_free_iff, isFree, holds]
      by_cases hj : j.toNat < a.slots.size
      · simp [hj]
      · simp [hj]
    rw [List.count_map_of_injective _ _ fun _ _ ↦ UInt32.toNat_inj.mp, ha.nodup_free.count]
    simp only [hfree]
  -- Beyond the last number there is no slot, and nothing that could be free.
  · have hsize : ¬ i < a.slots.size := fun hlt ↦ hi (lt_of_lt_of_le hlt hn)
    rw [if_neg fun h ↦ hsize h.1, List.count_eq_zero]
    intro hmem
    obtain ⟨j, -, rfl⟩ := List.mem_map.mp hmem
    exact hi j.toNat_lt

theorem Accounted.finiteMap (ha : Accounted a) (hn : Numbered a) : FiniteMap a := by
  have hcontains : {x | a.contains x = true} = {x | (a.get? x).any (fun _ ↦ true) = true} := by
    ext x
    rw [Set.mem_ofPred_eq, Set.mem_ofPred_eq, contains]
    cases a.get? x <;> rfl
  have hoccupied : a.occupied = a.count fun s ↦ s.record.any fun _ ↦ true := by
    refine congrArg a.count (funext fun s ↦ ?_)
    cases s.record <;> rfl
  constructor
  · rw [hcontains]
    exact finite_records hn _
  · intro x y hx hy he
    exact (eq_of_slot_eq hx hy he.symm).symm
  · exact ha.count_free hn
  · rw [ha.live_eq, occupied, ← ncard_slots]
    rfl
  · rw [ha.live_eq, hcontains, ncard_records hn, hoccupied]
  · exact ha.stores
  · intro x b y
    simp only [Operation.run, get?_modify, eq_comm]
  · exact ha.sweeps hn

/-- Whatever is done to a new arena, it is a finite map, as long as 32 bits suffice to number its
slots. -/
theorem finiteMap_runAll (seed : UInt32) (ops : List Operation)
    (hn : Numbered (Operation.runAll (empty seed) ops)) :
    FiniteMap (Operation.runAll (empty seed) ops) :=
  (Operation.accounted_runAll (.empty seed) ops hn).finiteMap hn

/-- Of two records one is marked, and the other's slot is filled again after a sweep. -/
theorem finiteMap_of_refilled_slot :
    let r := Record.new .null ⟨0, 0⟩ .null
    let ops := [.insert r, .insert r, .setMark ⟨1, 5⟩ true, .sweep, .insert r]
    let a := Operation.runAll (empty 5) ops
    Numbered a ∧ FiniteMap a ∧ a.get? ⟨0, 5⟩ = none ∧ a.get? ⟨0, 6⟩ = some r ∧
      a.get? ⟨1, 5⟩ = some r := by
  intro r ops a
  have hn : Numbered a := by decide
  exact ⟨hn, finiteMap_runAll 5 ops hn, by decide, by decide, by decide⟩

end Arena

end TaggedHeap
