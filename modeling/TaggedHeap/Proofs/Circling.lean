import TaggedHeap.Proofs.Answers
import TaggedHeap.Proofs.Blame

namespace TaggedHeap.Heap

open Arena

variable {h : Heap} {x name value cell b c : Handle} {i j n : Nat} {cause : Fault}

theorem Arrives.trans (hb : h.Arrives name i cell b) (hc : h.Arrives name j b c) :
    h.Arrives name (i + j) cell c := by
  induction hb with
  | here => exact (Nat.zero_add j).symm ▸ hc
  | @pass i _ _ _ hp _ ih =>
    rw [Nat.add_right_comm]
    exact .pass hp (ih hc)

theorem Arrives.rest (hb : h.Arrives name i cell b) (hc : h.Arrives name (i + j) cell c) :
    h.Arrives name j b c := by
  induction hb with
  | here => exact Nat.zero_add j ▸ hc
  | @pass i _ _ _ hp _ ih =>
    rw [Nat.add_right_comm] at hc
    cases hc with
    | pass hp' hc => exact ih (hp.eq hp' ▸ hc)

theorem ends_iff :
    Ends h name n cell ↔ ∃ c, h.Arrives name n cell c ∧ ∀ tail, ¬ h.Passes name c tail := by
  constructor
  · intro he
    induction he with
    | here hc => exact ⟨_, .here, hc⟩
    | pass hp _ ih =>
      obtain ⟨c, ha, hc⟩ := ih
      exact ⟨c, .pass hp ha, hc⟩
  · rintro ⟨c, ha, hc⟩
    induction ha with
    | here => exact .here hc
    | pass hp _ ih => exact .pass hp (ih hc)

/-- A search from the cell comes back to a cell that it has passed. -/
def Circles (h : Heap) (name cell : Handle) : Prop :=
  ∃ i j b, h.Arrives name i cell b ∧ h.Arrives name (j + 1) b b

theorem Circles.not_ends (hc : h.Circles name cell) : ¬ Ends h name n cell := by
  intro he
  obtain ⟨i, j, b, hb, hround⟩ := hc
  obtain ⟨c, ha, hlast⟩ := ends_iff.mp he
  have hends {m : Nat} (hm : h.Arrives name m cell c) : Ends h name m cell :=
    ends_iff.mpr ⟨c, hm, hlast⟩
  rcases Nat.lt_or_ge n i with hlt | hle
  · obtain ⟨k, rfl⟩ := Nat.exists_eq_add_of_lt hlt
    cases ha.rest (j := k + 1) hb with
    | pass hp _ => exact hlast _ hp
  · obtain ⟨k, rfl⟩ := Nat.exists_eq_add_of_le hle
    have hagain := hb.trans (hround.trans (hb.rest ha))
    have := he.eq (hends hagain)
    omega

theorem exists_arrives (hc : ∀ n, ¬ Ends h name n cell) (i : Nat) :
    ∃ b, h.Arrives name i cell b ∧ h.isLive b = true := by
  induction i generalizing cell with
  | zero =>
    by_contra hb
    refine hc 0 (.here fun tail hp ↦ hb ⟨cell, .here, hp.isLive⟩)
  | succ i ih =>
    obtain ⟨tail, hp⟩ : ∃ tail, h.Passes name cell tail := by
      by_contra hp
      exact hc 0 (.here (not_exists.mp hp))
    obtain ⟨b, hb, hl⟩ := ih fun n hn ↦ hc (n + 1) (.pass hp hn)
    exact ⟨b, .pass hp hb, hl⟩

/-- A search that does not end runs out of cells that it has not met before. -/
theorem circles_of_not_ends (hc : ∀ n, ¬ Ends h name n cell) : h.Circles name cell := by
  choose b hb hl using exists_arrives hc
  obtain ⟨i, j, hij, he⟩ : ∃ i j, i < j ∧ b i = b j := by
    by_contra hne
    have hinj : ∀ i ∈ List.range (h.arena.slots.size + 1),
        ∀ j ∈ List.range (h.arena.slots.size + 1), b i = b j → i = j := by
      intro i _ j _ he
      by_contra hij
      rcases Nat.lt_or_gt_of_ne hij with hlt | hgt
      · exact hne ⟨i, j, hlt, he⟩
      · exact hne ⟨j, i, hgt, he.symm⟩
    have hlen := length_le_size (List.nodup_range.map_on hinj) fun y hy ↦ by
      obtain ⟨i, -, rfl⟩ := List.mem_map.mp hy
      exact hl i
    rw [List.length_map, List.length_range] at hlen
    exact Nat.not_succ_le_self _ hlen
  obtain ⟨k, rfl⟩ := Nat.exists_eq_add_of_lt hij
  exact ⟨i, k, b i, hb i, he.symm ▸ (hb i).rest (j := k + 1) (hb (i + k + 1))⟩

theorem circles_iff : h.Circles name cell ↔ ∀ n, ¬ Ends h name n cell :=
  ⟨fun hc _ ↦ hc.not_ends, circles_of_not_ends⟩

theorem search_eq_endless_iff_circles : h.search name cell = .endless ↔ h.Circles name cell := by
  rw [search_eq_endless_iff, circles_iff]
  constructor
  · exact fun hs n he ↦ he.searchFrom_ne h.nil (hs (n + 1))
  · intro hc n
    by_contra hs
    obtain ⟨m, he⟩ := exists_ends hs
    exact hc m he

/-- Where a search leaves a list: at its end, at the name, or for want of a cell. -/
def Halts (h : Heap) (name c : Handle) : Prop :=
  c = h.nil ∨ (∃ head tail, h.readCell c = .ok (name, head, tail)) ∨
    ∃ failure, h.readCell c = .error failure

theorem passes_iff (hp : Proper h.arena) {tail : Handle} :
    h.Passes name c tail ↔
      c ≠ h.nil ∧ ∃ tag head, h.readCell c = .ok (tag, head, tail) ∧ tag ≠ name := by
  refine and_congr_right fun _ ↦ ?_
  simp only [readCell_eq_ok_iff hp.wellFormed]
  constructor
  · rintro ⟨r, head, tag, hr, hpay, hne⟩
    exact ⟨tag, head, ⟨r, hr, hpay⟩, hne⟩
  · rintro ⟨tag, head, ⟨r, hr, hpay⟩, hne⟩
    exact ⟨r, head, tag, hr, hpay, hne⟩

theorem halts_iff (hp : Proper h.arena) : h.Halts name c ↔ ∀ tail, ¬ h.Passes name c tail := by
  simp only [passes_iff hp, Halts]
  cases hc : h.readCell c with
  | error failure => simp
  | ok cell =>
    obtain ⟨tag, head, tail⟩ := cell
    by_cases ht : tag = name
    · simp [ht]
    · simp [ht]

/-- The attributes of a value lead a search for the name round for ever. -/
def CirclesAt (h : Heap) (x name : Handle) : Prop :=
  ∃ attributes, h.attributesOf x = .ok attributes ∧ h.Circles name attributes

theorem circlesAt_congr {g : Heap} (harena : g.arena = h.arena) (hnil : g.nil = h.nil) :
    g.CirclesAt x name ↔ h.CirclesAt x name := by
  have harrives (n : Nat) (cell b : Handle) :
      g.Arrives name n cell b ↔ h.Arrives name n cell b :=
    ⟨fun ha ↦ ha.of_eq harena.symm hnil.symm, fun ha ↦ ha.of_eq harena hnil⟩
  have hattributes : g.attributesOf x = h.attributesOf x := by
    rw [attributesOf, record, harena, attributesOf, record]
  simp only [CirclesAt, Circles, hattributes, harrives]

theorem setAttributeProtected_eq_fault_iff :
    (h.setAttributeProtected x name value).1 = .error (.fault cause) ↔
      cause = .endlessChain ∧ h.CirclesAt x name := by
  cases hx : h.record x with
  | error failure =>
    simp only [setAttributeProtected, CirclesAt, attributesOf, hx]
    refine iff_of_false (fun he ↦ ?_) ?_
    · exact h.answered_record x cause (hx.trans (congrArg Except.error (Except.error.inj he)))
    · rintro ⟨-, _, he, -⟩
      cases he
  | ok r =>
    have hr : h.attributesOf x = .ok r.attributes := attributesOf_of_get? (get?_of_record hx)
    have hat : h.CirclesAt x name ↔ h.search name r.attributes = .endless := by
      rw [search_eq_endless_iff_circles, CirclesAt, hr]
      simp
    rw [hat]
    cases hs : h.search name r.attributes with
    | found cell =>
      simp only [setAttributeProtected, hx, hs]
      exact iff_of_false (h.answered_setField cell .head value cause) (by simp)
    | broken cell => simp [setAttributeProtected, hx, hs, Failure.stale]
    | endless => simp [setAttributeProtected, hx, hs, eq_comm]
    | absent last =>
      simp only [setAttributeProtected, hx, hs]
      refine iff_of_false ?_ (by simp)
      split
      · exact answered_setAttributes _ x _ cause
      · exact answered_setField _ last .tail _ cause

theorem setAttribute_eq_fault_iff :
    (h.setAttribute x name value).1 = .error (.fault cause) ↔
      cause = .endlessChain ∧ h.CirclesAt x name := by
  have hq : ((h.protect x).protect value).CirclesAt x name ↔ h.CirclesAt x name :=
    circlesAt_congr rfl rfl
  rw [setAttribute, fst_unprotectAfter, setAttributeProtected_eq_fault_iff, hq]

theorem attach_eq_fault_iff (p : Handle × Heap) {symbol : Handle} :
    (unprotectAfter 1 ((p.2.protect p.1).setAttribute x symbol p.1)).1 = .error (.fault cause) ↔
      cause = .endlessChain ∧ p.2.CirclesAt x symbol := by
  rw [fst_unprotectAfter, setAttribute_eq_fault_iff]
  exact and_congr_right fun _ ↦ circlesAt_congr rfl rfl

theorem setDimensions_cases (hp : Proper h.arena) (x : Handle) (nrow ncol : Nat) :
    let p := h.newInteger [Int32.ofNat nrow, Int32.ofNat ncol]
    let fits := ∃ length, h.vectorLength x = .ok length ∧
      dimensionDefect? length nrow ncol = none
    (fits ∧ h.setDimensions x nrow ncol =
        unprotectAfter 1 ((p.2.protect p.1).setAttribute x p.2.dimSymbol p.1)) ∨
      ¬ fits ∧ ∃ refusal, h.setDimensions x nrow ncol = (.error (.denied refusal), h) := by
  intro p fits
  by_cases hl : h.isLive x = true
  · obtain ⟨r, hr⟩ := get?_of_isLive hl
    have hlength := vectorLength_of_get? hr (hp.wellFormed.get? hr)
    cases hn : r.payload.length? with
    | none =>
      rw [hn] at hlength
      refine .inr ⟨?_, _, by simp only [setDimensions, record_of_get? hr, hn]; rfl⟩
      rintro ⟨length, hlen, -⟩
      cases hlength.symm.trans hlen
    | some length =>
      rw [hn] at hlength
      cases hd : dimensionDefect? length nrow ncol with
      | none =>
        refine .inl ⟨⟨length, hlength, hd⟩, ?_⟩
        simp only [setDimensions, record_of_get? hr, hn, hd, p]
      | some defect =>
        refine .inr ⟨?_, _, by simp only [setDimensions, record_of_get? hr, hn, hd]; rfl⟩
        rintro ⟨length', hlen, hnone⟩
        cases hlength.symm.trans hlen
        cases hd.symm.trans hnone
  · refine .inr ⟨?_, _, by simp only [setDimensions, record_of_not_isLive hl]; rfl⟩
    rintro ⟨length, hlen, -⟩
    cases (vectorLength_of_not_isLive hl).symm.trans hlen

theorem setDimensions_eq_fault_iff {nrow ncol : Nat} (hp : Proper h.arena) :
    let p := h.newInteger [Int32.ofNat nrow, Int32.ofNat ncol]
    (h.setDimensions x nrow ncol).1 = .error (.fault cause) ↔
      cause = .endlessChain ∧
        (∃ length, h.vectorLength x = .ok length ∧ dimensionDefect? length nrow ncol = none) ∧
        p.2.CirclesAt x p.2.dimSymbol := by
  intro p
  rcases h.setDimensions_cases hp x nrow ncol with ⟨hfits, he⟩ | ⟨hfits, refusal, he⟩
  · rw [he, attach_eq_fault_iff, and_iff_right hfits]
  · rw [he]
    refine iff_of_false nofun fun hc ↦ hfits hc.2.1

structure Searches (h : Heap) : Prop where
  /-- A search leaves a list for one of three reasons, and within as many cells as there are
  slots. -/
  halts : ∀ name attributes, ¬ h.Circles name attributes →
    ∃ n c, n ≤ h.arena.slots.size ∧ h.Arrives name n attributes c ∧ h.Halts name c
  circles : ∀ name attributes, h.Circles name attributes →
    ∀ n c, h.Arrives name n attributes c → ¬ h.Halts name c
  setAttribute_iff : ∀ x name value cause,
    (h.setAttribute x name value).1 = .error (.fault cause) ↔
      cause = .endlessChain ∧ h.CirclesAt x name
  setDimensions_iff : ∀ x nrow ncol cause,
    let p := h.newInteger [Int32.ofNat nrow, Int32.ofNat ncol]
    (h.setDimensions x nrow ncol).1 = .error (.fault cause) ↔
      cause = .endlessChain ∧
        (∃ length, h.vectorLength x = .ok length ∧ dimensionDefect? length nrow ncol = none) ∧
        p.2.CirclesAt x p.2.dimSymbol
  setNames_iff : ∀ x names cause,
    let p := h.newString (names.map some)
    (h.setNames x names).1 = .error (.fault cause) ↔
      cause = .endlessChain ∧ p.2.CirclesAt x p.2.namesSymbol

/-- In every heap an update that searches a list of attributes comes back unless the list leads it
round, and fails in no other way than by a refusal. -/
theorem Arises.comes_back_iff (ha : Arises h) : Searches h where
  halts name attributes hc := by
    have hends : ∃ n, Ends h name n attributes := by
      by_contra hn
      exact hc (circles_of_not_ends (not_exists.mp hn))
    obtain ⟨n, hn⟩ := hends
    obtain ⟨c, harrives, hlast⟩ := ends_iff.mp hn
    exact ⟨n, c, hn.le_size, harrives, (halts_iff ha.proper).mpr hlast⟩
  circles name attributes hc n c harrives hhalts :=
    hc.not_ends (ends_iff.mpr ⟨c, harrives, (halts_iff ha.proper).mp hhalts⟩)
  setAttribute_iff x name value cause := setAttribute_eq_fault_iff
  setDimensions_iff x nrow ncol cause := setDimensions_eq_fault_iff ha.proper
  setNames_iff x names cause := attach_eq_fault_iff (h.newString (names.map some))

theorem comes_back_iff_of_cycle :
    let v := (create 0 0).newInteger [1]
    let c := v.2.cons v.1 v.2.nil
    let h := ((c.2.setField c.1 .tail c.1).2.setAttributes v.1 c.1).2
    Arises h ∧ Searches h ∧ h.CirclesAt v.1 h.dimSymbol := by
  intro v c h
  have hc : Arises c.2 := .run (.update (.cons v.1 v.2.nil))
    (.run (.update (.newInteger [1])) (.create 0 0) trivial) trivial
  have ha : Arises h := .run (.update (.setAttributes v.1 c.1))
    (.run (.update (.setField c.1 .tail c.1)) hc trivial) trivial
  have hpass : h.Passes h.dimSymbol c.1 c.1 :=
    ⟨by decide, ⟨.pairlist, false, h.nil, .cell v.1 c.1 h.nil⟩, v.1, h.nil, by decide, rfl,
      by decide⟩
  exact ⟨ha, Arises.comes_back_iff ha, c.1, rfl, 0, 0, c.1, .here, .pass hpass .here⟩

/-- The update never comes back, while a walk along the same cells gives up at its limit. -/
theorem setAttribute_goes_round :
    let v := (create 0 0).newInteger [1]
    let c := v.2.cons v.1 v.2.nil
    let h := ((c.2.setField c.1 .tail c.1).2.setAttributes v.1 c.1).2
    (h.setAttribute v.1 h.dimSymbol v.1).1 = .error (.fault .endlessChain) ∧
      (∀ n, h.searchFrom h.dimSymbol n c.1 h.nil = .endless) ∧
      ((Walk.start c.1 2).trail h.nextCell).1.failure = some (.denied (.traversalLimit 2)) := by
  intro v c h
  have hs : h.search h.dimSymbol c.1 = .endless := by decide
  exact ⟨by decide, search_eq_endless_iff.mp hs, by decide⟩

end Heap

end TaggedHeap
