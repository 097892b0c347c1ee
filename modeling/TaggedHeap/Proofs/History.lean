import TaggedHeap.Proofs.Formation

namespace TaggedHeap.Arena

inductive Incident
  | stored (i : Nat) (x : Handle) (r : Record)
  | rewritten (x : Handle) (f : Record → Record)
  | collected (freed : List Nat)

namespace Incident

def frees (i : Nat) : Incident → Bool
  | collected freed => freed.contains i
  | _ => false

def rewrite (x : Handle) : Incident → Record → Record
  | rewritten y f, r => if y = x then f r else r
  | _, r => r

end Incident

/-- How many times a history, which has its latest incident first, empties a slot. -/
def frees (i : Nat) (log : List Incident) : Nat :=
  log.countP (Incident.frees i)

def rewrites (x : Handle) (log : List Incident) (r : Record) : Record :=
  log.foldr (Incident.rewrite x) r

def nextSlot (a : Arena) : Nat :=
  match a.free with
  | [] => a.slots.size
  | i :: _ => i.toNat

def swept (a : Arena) : List Nat :=
  (List.range a.slots.size).filter fun i ↦ a.slots[i]?.any Slot.isGarbage

inductive History (a : Arena) : List Incident → Arena → Prop
  | start : History a [] a
  | insert {log : List Incident} {b : Arena} {r : Record} :
      History a log b → r.marked = false → r.WellFormed →
      History a (.stored b.nextSlot (b.insert r).1 r :: log) (b.insert r).2
  | rewrite {log : List Incident} {b : Arena} {x : Handle} {f : Record → Record} :
      History a log b →
      (∀ r, b.get? x = some r → (f r).marked = r.marked ∧ (r.WellFormed → (f r).WellFormed)) →
      History a (.rewritten x f :: log) (b.modify x f)
  | collect {log : List Incident} {b : Arena} (roots : List Handle) :
      History a log b →
      History a (.collected (b.mark roots).2.swept :: log) (b.mark roots).2.sweep.2

variable {a b c : Arena} {log since before : List Incident} {i : Nat} {x y : Handle} {r : Record}

theorem History.evolves (h : History a log b) : Evolves a b := by
  induction h with
  | start => exact .refl
  | insert _ hm hw ih => exact ih.tail (.insert hm hw)
  | rewrite _ hf ih => exact ih.tail (.rewrite hf)
  | collect roots _ ih => exact ih.tail (.collect roots)

theorem Evolves.history (h : Evolves a b) : ∃ log, History a log b := by
  induction h with
  | refl => exact ⟨[], .start⟩
  | tail _ hc ih =>
    obtain ⟨log, hl⟩ := ih
    cases hc with
    | insert hm hw => exact ⟨_, .insert hl hm hw⟩
    | rewrite hf => exact ⟨_, .rewrite hl hf⟩
    | collect roots => exact ⟨_, .collect roots hl⟩

theorem History.trans (hab : History a before b) (hbc : History b since c) :
    History a (since ++ before) c := by
  induction hbc with
  | start => exact hab
  | insert _ hm hw ih => exact .insert ih hm hw
  | rewrite _ hf ih => exact .rewrite ih hf
  | collect roots _ ih => exact .collect roots ih

theorem History.split (h : History a (since ++ before) c) :
    ∃ b, History a before b ∧ History b since c := by
  induction since generalizing c with
  | nil => exact ⟨c, h, .start⟩
  | cons e since ih =>
    cases h with
    | insert h hm hw =>
      obtain ⟨b, hb, hc⟩ := ih h
      exact ⟨b, hb, .insert hc hm hw⟩
    | rewrite h hf =>
      obtain ⟨b, hb, hc⟩ := ih h
      exact ⟨b, hb, .rewrite hc hf⟩
    | collect roots h =>
      obtain ⟨b, hb, hc⟩ := ih h
      exact ⟨b, hb, .collect roots hc⟩

theorem History.split_stored (h : History a (since ++ .stored i x r :: before) c) :
    ∃ b, History a before b ∧ i = b.nextSlot ∧ x = (b.insert r).1 ∧
      Change b (b.insert r).2 ∧ History (b.insert r).2 since c := by
  obtain ⟨b', hb, hc⟩ := h.split
  cases hb with
  | insert hb hm hw => exact ⟨_, hb, rfl, rfl, .insert hm hw, hc⟩

section Generation

/-- The generation of a slot. One that is still to come has the seed for its generation. -/
def generationAt (a : Arena) (i : Nat) : UInt32 :=
  (a.slots[i]?.map Slot.generation).getD a.seed

def holds (a : Arena) (i : Nat) : Bool :=
  a.slots[i]?.any fun s ↦ s.record.isSome

theorem contains_iff_holds :
    a.contains x = true ↔
      a.holds x.slot.toNat = true ∧ a.generationAt x.slot.toNat = x.generation := by
  unfold contains get? holds generationAt
  cases a.slots[x.slot.toNat]? with
  | none => simp
  | some s =>
    by_cases hg : s.generation = x.generation
    · simp [hg]
    · simp [hg]

theorem eq_of_slot_eq (hx : a.contains x = true) (hy : a.contains y = true)
    (h : y.slot = x.slot) : y = x := by
  have hg := (contains_iff_holds.mp hy).2.symm
  rw [h, (contains_iff_holds.mp hx).2] at hg
  cases x
  cases y
  exact Handle.mk.injEq .. ▸ ⟨h, hg⟩

theorem slot_insert (a : Arena) (r : Record) : (a.insert r).1.slot = UInt32.ofNat a.nextSlot := by
  unfold insert nextSlot
  cases a.free with
  | nil => rfl
  | cons i rest => exact UInt32.ofNat_toNat.symm

theorem generation_insert (a : Arena) (r : Record) :
    (a.insert r).1.generation = a.generationAt a.nextSlot := by
  unfold insert nextSlot generationAt
  cases a.free with
  | nil => simp
  | cons i rest => rfl

theorem seed_insert (a : Arena) (r : Record) : (a.insert r).2.seed = a.seed := by
  unfold insert
  split <;> rfl

theorem generationAt_insert (a : Arena) (r : Record) (i : Nat) :
    (a.insert r).2.generationAt i = a.generationAt i := by
  unfold generationAt
  rw [seed_insert]
  unfold insert
  split
  · rw [Array.getElem?_push]
    split
    · next hi =>
      subst hi
      simp
    · rfl
  · next j rest _ =>
    rw [Array.getElem?_modify]
    split
    · next hi =>
      subst hi
      rw [Option.map_map]
      rfl
    · rfl

theorem generationAt_modify (a : Arena) (x : Handle) (f : Record → Record) (i : Nat) :
    (a.modify x f).generationAt i = a.generationAt i := by
  obtain ⟨g, hg, he⟩ := getElem?_slots_modify (a := a) x f i
  unfold generationAt
  rw [he, Option.map_map]
  have hgen : Slot.generation ∘ g = Slot.generation := funext fun s ↦ (hg s).1
  rw [hgen]
  rfl

theorem Marking.generationAt {work : List Handle} {n : Nat} (h : Marking a work n b) (i : Nat) :
    b.generationAt i = a.generationAt i := by
  induction h with
  | done => rfl
  | mark _ _ _ ih => exact ih.trans (generationAt_modify _ _ _ i)

theorem mem_swept_iff : i ∈ a.swept ↔ a.slots[i]?.any Slot.isGarbage = true := by
  rw [swept, List.mem_filter, List.mem_range]
  refine and_iff_right_of_imp fun hi ↦ ?_
  obtain ⟨s, hs, _⟩ := (Option.any_eq_true _ _).mp hi
  exact (Array.getElem?_eq_some_iff.mp hs).1

theorem generationAt_sweep (a : Arena) (i : Nat) :
    a.sweep.2.generationAt i = a.generationAt i + if i ∈ a.swept then 1 else 0 := by
  have hseed : a.sweep.2.seed = a.seed := rfl
  simp only [mem_swept_iff]
  unfold generationAt
  rw [getElem?_slots_sweep, hseed]
  cases a.slots[i]? with
  | none => simp
  | some s =>
    cases hr : s.record with
    | none => simp [Slot.sweep, Slot.isGarbage, hr]
    | some r => cases hm : r.marked <;> simp [Slot.sweep, Slot.isGarbage, hr, hm]

theorem History.generationAt (h : History a log b) (i : Nat) :
    b.generationAt i = a.generationAt i + UInt32.ofNat (frees i log) := by
  induction h with
  | start => simp [frees]
  | insert _ _ _ ih =>
    rw [generationAt_insert, ih]
    rfl
  | rewrite _ _ ih =>
    rw [generationAt_modify, ih]
    rfl
  | @collect log b roots _ ih =>
    rw [generationAt_sweep, (marking_mark b roots).generationAt, ih]
    by_cases hi : i ∈ (b.mark roots).2.swept
    · simp [frees, Incident.frees, hi, UInt32.ofNat_add, UInt32.add_assoc]
    · simp [frees, Incident.frees, hi]

end Generation

theorem get?_collect_of_not_mem_swept {roots : List Handle} (ha : Unmarked a)
    (hx : a.get? x = some r) (hs : x.slot.toNat ∉ (a.mark roots).2.swept) :
    (a.mark roots).2.sweep.2.get? x = some r := by
  have hshown := (marking_mark a roots).alike x
  rw [hx, Option.map_some] at hshown
  obtain ⟨q, hq, he⟩ := Option.map_eq_some_iff.mp hshown
  obtain ⟨s, hslot, _, hrec⟩ := get?_eq_some_iff.mp hq
  have hm : q.marked = true := by
    by_contra hn
    refine hs (mem_swept_iff.mpr ?_)
    simpa [hslot, Slot.isGarbage, hrec] using hn
  have hu : r.unmark = r := by
    rw [Record.unmark, ← ha.get? hx]
  rw [get?_sweep, hq, Option.filter_some, if_pos hm, Option.map_some, he, hu]

theorem History.get?_of_frees_eq_zero (h : History a log b) (ha : Proper a) (hb : Numbered b)
    (hx : a.get? x = some r) (hf : frees x.slot.toNat log = 0) :
    b.get? x = some (rewrites x log r) := by
  induction h with
  | start => exact hx
  | insert h _ _ ih =>
    have hn := (size_slots_insert _ _).1.trans hb
    exact ((h.evolves.proper ha).accounted hn).get?_insert_of_get? _ (ih hn hf)
  | @rewrite log b y f _ _ ih =>
    have hq := ih (numbered_modify_iff.mp hb) hf
    rw [get?_modify, hq]
    by_cases hy : y = x
    · simp [rewrites, Incident.rewrite, hy]
    · simp [rewrites, Incident.rewrite, hy]
  | @collect log b roots h ih =>
    have hn : Numbered b := by
      rwa [Numbered, size_slots_sweep, (marking_mark b roots).size_slots] at hb
    by_cases hs : x.slot.toNat ∈ (b.mark roots).2.swept
    · simp [frees, Incident.frees, hs] at hf
    · have hf : frees x.slot.toNat log = 0 := by
        simpa [frees, Incident.frees, hs] using hf
      exact get?_collect_of_not_mem_swept (h.evolves.proper ha).unmarked (ih hn hf) hs

/-- Every handle that finds a record in the end found one before, or a record was stored for it. -/
theorem History.issued (h : History a log b) (hx : b.contains x = true) :
    a.contains x = true ∨ ∃ i r, .stored i x r ∈ log := by
  induction h with
  | start => exact .inl hx
  | @insert log b r _ _ _ ih =>
    by_cases he : x = (b.insert r).1
    · exact .inr ⟨b.nextSlot, r, he ▸ List.mem_cons_self⟩
    · rw [contains, get?_insert_of_ne he] at hx
      rcases ih hx with hx | ⟨i, q, hi⟩
      · exact .inl hx
      · exact .inr ⟨i, q, List.mem_cons_of_mem _ hi⟩
  | rewrite _ _ ih =>
    rw [contains_modify] at hx
    rcases ih hx with hx | ⟨i, r, hi⟩
    · exact .inl hx
    · exact .inr ⟨i, r, List.mem_cons_of_mem _ hi⟩
  | @collect log b roots _ ih =>
    have hb : b.contains x = true := by
      rw [← (marking_mark b roots).alike.contains]
      obtain ⟨r, hr⟩ := contains_iff.mp hx
      rw [get?_sweep] at hr
      obtain ⟨q, hq, _⟩ := Option.map_eq_some_iff.mp hr
      exact contains_of_get? (Option.filter_eq_some_iff.mp hq).1
    rcases ih hb with hx | ⟨i, r, hi⟩
    · exact .inl hx
    · exact .inr ⟨i, r, List.mem_cons_of_mem _ hi⟩

theorem nextSlot_lt (hn : Numbered (a.insert r).2) : a.nextSlot < UInt32.size := by
  unfold nextSlot
  cases hfree : a.free with
  | nil => simpa only [Numbered, insert, hfree, Array.size_push, Nat.succ_le_iff] using hn
  | cons i rest => exact i.toNat_lt

theorem History.stored {seed : UInt32}
    (h : History (empty seed) (since ++ .stored i x r :: before) c) :
    x.slot = UInt32.ofNat i ∧ x.generation = seed + UInt32.ofNat (frees i before) := by
  obtain ⟨b, hb, rfl, rfl, _, _⟩ := h.split_stored
  rw [slot_insert, generation_insert, hb.generationAt]
  exact ⟨rfl, rfl⟩

end TaggedHeap.Arena
