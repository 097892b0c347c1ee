import TaggedHeap.Proofs.Answers
import TaggedHeap.Proofs.History
import TaggedHeap.Proofs.Program
import Mathlib.Data.Nat.ModEq

namespace TaggedHeap.Heap

open Arena TaggedHeap.Action

variable {h a b : Heap} {x : Handle} {log since before : List Incident} {r : Record}
  {ordinal threshold i k : Nat}

/-- What happened to the arena of a heap in the course of a program, from the first record on. -/
inductive Annals (ordinal : Nat) : List Incident → Heap → Prop
  | create {log : List Incident} (threshold : Nat) :
      History (empty (seedOf ordinal)) log (create ordinal threshold).arena →
      Annals ordinal log (create ordinal threshold)
  | act {log since : List Incident} {h : Heap} (action : Action) :
      Annals ordinal log h → History h.arena since (action.run h).2.arena →
      Annals ordinal (since ++ log) (action.run h).2

theorem Annals.history (ha : Annals ordinal log h) :
    History (empty (seedOf ordinal)) log h.arena := by
  induction ha with
  | create _ hh => exact hh
  | act _ _ hh ih => exact ih.trans hh

theorem Annals.arises (ha : Annals ordinal log h) : Arises h := by
  induction ha with
  | create threshold _ => exact .create ordinal threshold
  | act action _ _ ih => exact action.arises ih

theorem history_bare (seed : UInt32) :
    ∃ e r, History (empty seed) [e, .stored 0 (bare seed).nil r] (bare seed).arena := by
  let r := Record.new .null (empty seed).firstHandle .null
  let q := Record.new .char (empty seed).firstHandle (.char (Text.Utf8.encode missingText))
  have hr : History (empty seed) [.stored 0 (bare seed).nil r] ((empty seed).insert r).2 :=
    .insert .start rfl rfl
  exact ⟨_, r, .insert (r := q) hr rfl rfl⟩

theorem evolves_addUnbound (seed : UInt32) :
    Evolves (bare seed).arena (bare seed).addUnbound.arena := by
  have hb := coherent_bare seed
  have hsize := (coherent_addUnbound seed).2
  unfold addUnbound at hsize ⊢
  generalize bare seed = h at hb hsize ⊢
  let p := h.internText ""
  let x := p.2.alloc .symbol (.symbol p.1 p.2.nil p.2.nil)
  have hx : Evolves h.arena x.2.arena :=
    .trans (h.continues_internText "").evolves (p.2.evolves_alloc .symbol _ rfl)
  refine hx.tail (.rewrite fun r hr ↦ ⟨rfl, fun _ ↦ ?_⟩)
  have hn : Numbered x.2.arena :=
    numbered_of_size_le (((size_slots_modify _).ge.trans hsize).trans (by decide))
  have hnew := hr.symm.trans (p.2.get?_alloc (hb.intern _).proper hn)
  rw [Option.some.inj hnew]
  rfl

theorem history_create (ordinal threshold : Nat) :
    ∃ since r, History (empty (seedOf ordinal))
      (since ++ [.stored 0 (bare (seedOf ordinal)).nil r]) (create ordinal threshold).arena := by
  obtain ⟨e, r, hb⟩ := history_bare (seedOf ordinal)
  have hu := evolves_addUnbound (seedOf ordinal)
  unfold create
  generalize (bare (seedOf ordinal)).addUnbound = h at hu ⊢
  have hd := hu.trans (h.continues_install "dim").evolves
  have hn : Evolves _ _ := hd.trans ((h.install "dim").2.continues_install "names").evolves
  obtain ⟨since, hs⟩ := hn.history
  exact ⟨since ++ [e], r, by simpa using hb.trans hs⟩

theorem Annals.runAll (ha : Annals ordinal log h) (program : List Action) :
    ∃ since, Annals ordinal (since ++ log) (runAll h program) := by
  induction program generalizing h log with
  | nil => exact ⟨[], ha⟩
  | cons action program ih =>
    obtain ⟨new, hn⟩ := (action.keeps h).evolves.history
    obtain ⟨since, hs⟩ := ih (.act action ha hn)
    exact ⟨since ++ new, by rwa [List.append_assoc]⟩

theorem exists_annals (ordinal threshold : Nat) (program : List Action) :
    ∃ log, Annals ordinal log (runAll (create ordinal threshold) program) := by
  obtain ⟨_, _, hl⟩ := history_create ordinal threshold
  obtain ⟨since, hs⟩ := (Annals.create threshold hl).runAll program
  exact ⟨_, hs⟩

theorem Annals.issued (ha : Annals ordinal log h) (hx : h.isLive x = true) :
    ∃ i r, .stored i x r ∈ log := by
  rcases ha.history.issued hx with hx | hi
  · simp [contains, get?, empty] at hx
  · exact hi

structure Refuses (h : Heap) (x : Handle) : Prop where
  query : ∀ q : Query, q.subject? = some x → q.answer h = .error (.stale x)
  walk : ∀ limit, 0 < limit →
    (Walk.start x limit).trail h.nextCell = (⟨[], some (.stale x)⟩, (Walk.start x limit).finish) ∧
      (Walk.start x limit).trail h.nextEnclosing =
        (⟨[], some (.stale x)⟩, (Walk.start x limit).finish)

theorem Annals.refuses (ha : Annals ordinal log h) (hx : ¬ h.isLive x = true) : Refuses h x where
  query _ := answer_of_not_isLive hx
  walk limit hl := by
    have hnil : x ≠ h.nil := fun he ↦ hx (he ▸ ha.arises.isLive_nil)
    exact ⟨trail_of_error (nextCell_start_of_not_isLive hx hnil hl),
      trail_of_error (nextEnclosing_start_of_not_isLive hx limit)⟩

theorem ofNat_eq_zero_iff (n : Nat) : UInt32.ofNat n = 0 ↔ UInt32.size ∣ n := by
  rw [← UInt32.toNat_inj, UInt32.toNat_ofNat, Nat.dvd_iff_mod_eq_zero]
  rfl

/-- What becomes of a handle that is issued for a record, given what happens since. -/
structure Fate (h : Heap) (i : Nat) (x : Handle) (r : Record) (since : List Incident) : Prop where
  slot : x.slot.toNat = i
  found : frees i since = 0 → h.arena.get? x = some (rewrites x since r)
  sole : frees i since = 0 → ∀ y, y.slot = x.slot → h.isLive y = true → y = x
  isLive_iff : h.isLive x = true ↔ h.arena.holds i = true ∧ UInt32.size ∣ frees i since
  refused : 0 < frees i since → frees i since < UInt32.size → h.Refuses x

theorem Annals.fate (ha : Annals ordinal (since ++ .stored i x r :: before) h)
    (hn : Numbered h.arena) : Fate h i x r since := by
  obtain ⟨b, hb, rfl, rfl, hi, hc⟩ := ha.history.split_stored
  have hp := hi.proper (hb.evolves.proper (.empty _))
  have hbn : Numbered (b.insert r).2 := hc.evolves.size_slots_le.trans hn
  have hslot : (b.insert r).1.slot.toNat = b.nextSlot := by
    rw [slot_insert, UInt32.toNat_ofNat_of_lt' (nextSlot_lt hbn)]
  have hgen : h.arena.generationAt b.nextSlot =
      (b.insert r).1.generation + UInt32.ofNat (frees b.nextSlot since) := by
    rw [hc.generationAt, generationAt_insert, generation_insert]
  have hlive : h.isLive (b.insert r).1 = true ↔
      h.arena.holds b.nextSlot = true ∧ UInt32.size ∣ frees b.nextSlot since := by
    rw [isLive, contains_iff_holds, hslot, hgen, ← ofNat_eq_zero_iff]
    simp
  have hfound : frees b.nextSlot since = 0 →
      h.arena.get? (b.insert r).1 = some (rewrites (b.insert r).1 since r) := fun hf ↦
    hc.get?_of_frees_eq_zero hp hn ((hb.evolves.proper (.empty _)).accounted
      ((size_slots_insert _ _).1.trans hbn) |>.get?_insert r hbn) (hslot.symm ▸ hf)
  refine ⟨hslot, hfound, fun hf y hy hl ↦ ?_, hlive, fun hpos hlt ↦ ha.refuses fun hl ↦ ?_⟩
  · exact eq_of_slot_eq (contains_of_get? (hfound hf)) hl hy
  · exact absurd (Nat.le_of_dvd hpos (hlive.mp hl).2) (Nat.not_le.mpr hlt)

/-- A handle that was issued and freed is refused until its slot has been emptied `2 ^ 32` times,
no matter what is stored there meanwhile. -/
theorem freed_handle_stays_stale (ordinal threshold : Nat) (program : List Action)
    (hn : Numbered (runAll (create ordinal threshold) program).arena) :
    (∃ log, Annals ordinal log (runAll (create ordinal threshold) program)) ∧
      ∀ log, Annals ordinal log (runAll (create ordinal threshold) program) →
        (∀ x, (runAll (create ordinal threshold) program).isLive x = true →
          ∃ i r, .stored i x r ∈ log) ∧
        ∀ since i x r before, log = since ++ .stored i x r :: before →
          Fate (runAll (create ordinal threshold) program) i x r since := by
  refine ⟨exists_annals ordinal threshold program, fun log ha ↦ ⟨fun x ↦ ha.issued, ?_⟩⟩
  rintro since i x r before rfl
  exact ha.fate hn

theorem history_collect (h : Heap) :
    History h.arena [.collected (h.arena.mark (h.rootHandles [])).2.swept] h.collect.2.arena :=
  .collect _ .start

theorem history_newInteger (hd : h.isDue = false) (elements : List Int32) :
    History h.arena [.stored h.arena.nextSlot (h.newInteger elements).1
      (.new .integer h.nil (.integer elements.toArray))] (h.newInteger elements).2.arena := by
  rw [newInteger, alloc_eq, settle, hd]
  exact .insert .start rfl rfl

theorem freed_vector_stays_stale :
    let h := runAll (create 0 0)
      [.request (.update (.newInteger [1])), .request (.update .collect)]
    Numbered h.arena ∧ ∃ since i r before,
      Annals 0 (since ++ .stored i ((create 0 0).newInteger [1]).1 r :: before) h ∧
        frees i since = 1 ∧ h.Refuses ((create 0 0).newInteger [1]).1 := by
  intro h
  have hn : Numbered h.arena := by
    change h.arena.slots.size ≤ UInt32.size
    decide +kernel
  obtain ⟨_, _, hl⟩ := history_create 0 0
  have hs := history_newInteger (h := create 0 0) rfl [1]
  have hc := history_collect ((create 0 0).newInteger [1]).2
  have hf : frees (create 0 0).arena.nextSlot [.collected
      ((((create 0 0).newInteger [1]).2.arena.mark
        (((create 0 0).newInteger [1]).2.rootHandles [])).2.swept)] = 1 := by decide
  have ha := ((Annals.create 0 hl).act (.request (.update (.newInteger [1]))) hs).act
    (.request (.update .collect)) hc
  have hfate := ((freed_handle_stays_stale 0 0 _ hn).2 _ ha).2 _ _ _ _ _ rfl
  exact ⟨hn, _, _, _, _, ha, hf, hfate.refused (by rw [hf]; decide) (by rw [hf]; decide)⟩

/-- By how much the generations of the `j`-th arena are ahead of those of the `i`-th. -/
def lead (i j : Nat) : Nat :=
  (((j : Int) - i) * 0x9E3779B9 % 2 ^ 32).toNat

/-- The factor is odd, so that only a multiple of `2 ^ 32` takes a seed back to itself. -/
theorem lead_pos {i j : Nat} (h : ¬ i ≡ j [MOD 2 ^ 32]) : 0 < lead i j := by
  unfold lead
  by_contra hz
  have hnonneg := Int.emod_nonneg (((j : Int) - i) * 0x9E3779B9) (show (2 ^ 32 : Int) ≠ 0 by decide)
  have hdvd : (2 ^ 32 : Int) ∣ (j - i) * 0x9E3779B9 := Int.dvd_of_emod_eq_zero (by omega)
  have hd : ((2 ^ 32 : Nat) : Int) ∣ j - i := Int.dvd_of_dvd_mul_left_of_gcd_one hdvd (by decide)
  exact h (Nat.modEq_iff_dvd.mpr hd)

theorem seedOf_eq_ofInt (i : Nat) : seedOf i = UInt32.ofInt (i * 0x9E3779B9) := by
  have hi : UInt32.ofInt i = UInt32.ofNat i := UInt32.ofNat_mod_size
  rw [UInt32.ofInt_mul, hi]
  rfl

theorem seedOf_add_lead (i j : Nat) : seedOf i + UInt32.ofNat (lead i j) = seedOf j := by
  have hl : UInt32.ofNat (lead i j) = UInt32.ofInt ((j - i) * 0x9E3779B9) := rfl
  rw [hl, seedOf_eq_ofInt, seedOf_eq_ofInt, ← UInt32.ofInt_add, ← Int.add_mul]
  congr
  omega

theorem generations_meet_iff (i j m n : Nat) :
    seedOf j + UInt32.ofNat n = seedOf i + UInt32.ofNat m ↔ m ≡ n + lead i j [MOD 2 ^ 32] := by
  rw [← seedOf_add_lead i j, UInt32.add_assoc, UInt32.add_right_inj, ← UInt32.ofNat_add, eq_comm,
    Nat.add_comm n, ← UInt32.toNat_inj, UInt32.toNat_ofNat', UInt32.toNat_ofNat']
  rfl

/-- What a heap makes of a handle of another heap, which issued it after it had emptied the slot
`m` times. The heap itself has emptied that slot `n` times, and is ahead by `d` generations. -/
structure Foreign (h : Heap) (x : Handle) (m n d : Nat) : Prop where
  isLive_iff : h.isLive x = true ↔ h.arena.holds x.slot.toNat = true ∧ m ≡ n + d [MOD 2 ^ 32]
  refused : m < d → n < 2 ^ 32 - d → h.Refuses x

theorem Annals.foreign {i j : Nat} {lb : List Incident}
    (ha : Annals i (since ++ .stored k x r :: before) a) (hb : Annals j lb b) :
    Foreign b x (frees k before) (frees x.slot.toNat lb) (lead i j) := by
  have hgen : b.arena.generationAt x.slot.toNat = seedOf j + UInt32.ofNat (frees x.slot.toNat lb) :=
    hb.history.generationAt _
  have hlive : b.isLive x = true ↔ b.arena.holds x.slot.toNat = true ∧
      frees k before ≡ frees x.slot.toNat lb + lead i j [MOD 2 ^ 32] := by
    rw [isLive, contains_iff_holds, hgen, ha.history.stored.2, generations_meet_iff]
  refine ⟨hlive, fun hm hn ↦ hb.refuses fun hl ↦ ?_⟩
  have hmod := (hlive.mp hl).2
  rw [Nat.ModEq, Nat.mod_eq_of_lt (by omega), Nat.mod_eq_of_lt (by omega)] at hmod
  omega

/-- Whatever two heaps do, the one refuses the handles of the other until one of them has emptied
their slot very often. -/
theorem foreign_handle_is_stale {i j : Nat} (hij : ¬ i ≡ j [MOD 2 ^ 32]) (s t : Nat)
    (p q : List Action) :
    0 < lead i j ∧ (∃ la, Annals i la (runAll (create i s) p)) ∧
      (∃ lb, Annals j lb (runAll (create j t) q)) ∧
      ∀ la lb, Annals i la (runAll (create i s) p) → Annals j lb (runAll (create j t) q) →
        (∀ x, (runAll (create i s) p).isLive x = true → ∃ k r, .stored k x r ∈ la) ∧
        ∀ since k x r before, la = since ++ .stored k x r :: before →
          x.slot = UInt32.ofNat k ∧ Foreign (runAll (create j t) q) x (frees k before)
            (frees x.slot.toNat lb) (lead i j) := by
  refine ⟨lead_pos hij, exists_annals i s p, exists_annals j t q, fun la lb ha hb ↦ ?_⟩
  refine ⟨fun x ↦ ha.issued, ?_⟩
  rintro since k x r before rfl
  exact ⟨ha.history.stored.1, ha.foreign hb⟩

theorem foreign_nil_is_stale :
    ¬ 0 ≡ 1 [MOD 2 ^ 32] ∧ (create 1 0).Refuses (create 0 0).nil := by
  have hij : ¬ 0 ≡ 1 [MOD 2 ^ 32] := by decide
  obtain ⟨since, r, hs⟩ := history_create 0 0
  have ha : Annals 0 _ (create 0 0) := .create 0 hs
  obtain ⟨_, _, ⟨lb, hb⟩, hall⟩ := foreign_handle_is_stale hij 0 0 [] []
  have hforeign := ((hall _ lb ha hb).2 since 0 _ r [] rfl).2
  have hgen : seedOf 1 = seedOf 1 + UInt32.ofNat (frees 0 lb) := hb.history.generationAt 0
  refine ⟨hij, hb.refuses fun hl ↦ ?_⟩
  have hn : 2 ^ 32 ∣ frees 0 lb := by
    refine (ofNat_eq_zero_iff _).mp ?_
    rw [← UInt32.add_right_inj (seedOf 1), ← hgen, UInt32.add_zero]
  have hmod : 0 ≡ frees 0 lb + 0x9E3779B9 [MOD 2 ^ 32] := (hforeign.isLive_iff.mp hl).2
  rw [Nat.ModEq, Nat.add_mod, Nat.mod_eq_zero_of_dvd hn] at hmod
  cases hmod

end TaggedHeap.Heap
