import TaggedHeap.Proofs.Walking

namespace TaggedHeap.Heap

open Walk

variable {g h : Heap} {x c p : Handle} {k n L : ℕ} {failure : Failure}

/-- Why a value is no environment: it has no record, or a record of another tag. -/
def Unfit (h : Heap) (p : Handle) (failure : Failure) : Prop :=
  ¬ h.isLive p = true ∧ failure = .stale p ∨
    ∃ t, h.tagOf p = .ok t ∧ t ≠ .environment ∧ failure = .mismatch (.tag .environment) t

theorem environment_or_unfit (h : Heap) (p : Handle) :
    h.tagOf p = .ok .environment ∨ ∃ failure, h.Unfit p failure := by
  by_cases hl : h.isLive p = true
  · obtain ⟨r, hr⟩ := get?_of_isLive hl
    have ht := tagOf_of_get? hr
    by_cases he : r.tag = .environment
    · exact .inl (he ▸ ht)
    · exact .inr ⟨_, .inr ⟨r.tag, ht, he, rfl⟩⟩
  · exact .inr ⟨_, .inl ⟨hl, rfl⟩⟩

theorem Unfit.project (hu : h.Unfit p failure) : h.project p .enclosing = .error failure := by
  rcases hu with ⟨hl, rfl⟩ | ⟨t, ht, hne, rfl⟩
  · exact project_of_not_isLive hl .enclosing
  · exact project_of_unmet ht (beq_false_of_ne hne)

theorem tagOf_of_project (hp : h.project c .enclosing = .ok p) : h.tagOf c = .ok .environment := by
  rcases h.environment_or_unfit c with ht | ⟨failure, hu⟩
  · exact ht
  · cases hu.project.symm.trans hp

theorem Unfit.nextEnclosing {w : Walk} (hu : h.Unfit w.cursor failure)
    (hw : w.finished = false) : h.nextEnclosing w = (some (.error failure), w.finish) := by
  rw [Heap.nextEnclosing, hw, if_neg Bool.false_ne_true, hu.project]

theorem nextEnclosing_eq_ok_iff {w w' : Walk} :
    h.nextEnclosing w = (some (.ok p), w') ↔
      w.finished = false ∧ h.project w.cursor .enclosing = .ok p ∧ p ≠ h.nil ∧
        w.walked < w.limit ∧ w' = w.moveTo p := by
  constructor
  · intro hs
    unfold Heap.nextEnclosing at hs
    split at hs
    · cases hs
    · next hfin =>
      split at hs
      · next parent hparent =>
        split_ifs at hs with hnil hlimit
        · cases hs
        · cases hs
        · cases hs
          exact ⟨Bool.eq_false_iff.mpr hfin, hparent, hnil, Nat.not_le.mp hlimit, rfl⟩
      · cases hs
  · rintro ⟨hfin, hparent, hnil, hlimit, rfl⟩
    rw [Heap.nextEnclosing, hfin, if_neg Bool.false_ne_true, hparent]
    simp only [if_neg hnil, if_neg (Nat.not_le.mpr hlimit)]

theorem exists_along {f : Field} (hp : h.along f x n = .ok p) (hk : k ≤ n) :
    ∃ c, h.along f x k = .ok c := by
  induction hk generalizing p with
  | refl => exact ⟨p, hp⟩
  | step _ ih =>
    obtain ⟨c, hc, -⟩ := exists_of_bind_eq_ok hp
    exact ih hc

theorem after_eq_of_not_finished (hw : ((start x L).after h.nextEnclosing k).finished = false) :
    ∃ c, h.along .enclosing x k = .ok c ∧
      (start x L).after h.nextEnclosing k = ⟨c, k, L, false⟩ := by
  induction k with
  | zero => exact ⟨x, rfl, rfl⟩
  | succ k ih =>
    rw [after_succ] at hw ⊢
    have hfin : ((start x L).after h.nextEnclosing k).finished = false := by
      by_contra hfin
      rw [h.guarded_nextEnclosing.finished _ (Bool.eq_true_of_not_eq_false hfin)] at hw
      exact hfin hw
    obtain ⟨c, hc, hafter⟩ := ih hfin
    rw [hafter] at hw ⊢
    have hstep := h.guarded_nextEnclosing.steps ⟨c, k, L, false⟩
    generalize hs : h.nextEnclosing ⟨c, k, L, false⟩ = step at hstep hw ⊢
    cases hstep with
    | ends hend => cases hw.symm.trans hend
    | fails hend => cases hw.symm.trans hend
    | @moves a p hlt =>
      obtain ⟨-, hparent, -, -, he⟩ := nextEnclosing_eq_ok_iff.mp hs
      exact ⟨a, (along_succ hc).trans hparent, he⟩

theorem yield_eq_ok_iff (hnil : h.tagOf h.nil = .ok .null) :
    (start x L).yield h.nextEnclosing k = some (.ok p) ↔
      k < L ∧ h.along .enclosing x (k + 1) = .ok p ∧ p ≠ h.nil := by
  constructor
  · intro hy
    rw [yield] at hy
    have hs := nextEnclosing_eq_ok_iff.mp (Prod.ext hy rfl)
    obtain ⟨c, hc, hafter⟩ := after_eq_of_not_finished hs.1
    rw [hafter] at hs
    exact ⟨hs.2.2.2.1, (along_succ hc).trans hs.2.1, hs.2.2.1⟩
  · rintro ⟨hk, hp, hne⟩
    obtain ⟨c, hc, hafter⟩ : ∃ c, h.along .enclosing x k = .ok c ∧
        (start x L).after h.nextEnclosing k = ⟨c, k, L, false⟩ := by
      apply after_of_steps
      intro j hj c hc
      obtain ⟨c', hc'⟩ := exists_along hp (k := j + 1) (by omega)
      obtain ⟨q, hq⟩ := exists_along hp (k := j + 2) (by omega)
      have hparent : h.project c .enclosing = .ok c' := (along_succ hc).symm.trans hc'
      have ht : h.tagOf c' = .ok .environment := tagOf_of_project ((along_succ hc').symm.trans hq)
      have hne' : c' ≠ h.nil := ne_nil_of_tagOf hnil ht (by decide)
      have hnext := nextEnclosing_of_parent hparent hne' (hj.trans hk)
      exact ⟨c', hparent, congrArg Prod.snd hnext⟩
    rw [yield, hafter, nextEnclosing_of_parent ((along_succ hc).symm.trans hp) hne hk]

structure LooksBack (h : Heap) : Prop where
  /-- Whatever has happened to the heap since a parent was handed out, if the parent is no
  environment by the next step, then this step says why, and is the last. -/
  step : ∀ (w w' : Walk) p, h.nextEnclosing w = (some (.ok p), w') →
    h.tagOf w.cursor = .ok .environment ∧ ∀ (g : Heap) failure, g.Unfit p failure →
      g.nextEnclosing w' = (some (.error failure), w'.finish)
  /-- Which parents a walk hands out depends on `nil` and on its limit, not on their tags. -/
  yield_iff : ∀ (x : Handle) (L k : ℕ) p, (start x L).yield h.nextEnclosing k = some (.ok p) ↔
    k < L ∧ h.along .enclosing x (k + 1) = .ok p ∧ p ≠ h.nil
  environment : ∀ (x : Handle) (L k : ℕ) p,
    (start x L).yield h.nextEnclosing k = some (.ok p) →
      h.tagOf p = .ok .environment ∨ ∃ failure, h.Unfit p failure ∧
        (start x L).yield h.nextEnclosing (k + 1) = some (.error failure) ∧
        ∀ j, k + 1 < j → (start x L).yield h.nextEnclosing j = none

/-- In every heap walks outwards look back at what they leave. The slots must not outnumber the 32
bits of their numbers. -/
theorem Arises.looksBack (ha : Arises h) (hn : Arena.Numbered h.arena) : LooksBack h where
  step w w' p hs := by
    obtain ⟨hfin, hparent, -, -, rfl⟩ := nextEnclosing_eq_ok_iff.mp hs
    exact ⟨tagOf_of_project hparent, fun g failure hu ↦
      Unfit.nextEnclosing (w := w.moveTo p) hu hfin⟩
  yield_iff x L k p := yield_eq_ok_iff (ha.tagOf_nil hn)
  environment x L k p hy := by
    refine (h.environment_or_unfit p).imp id ?_
    rintro ⟨failure, hu⟩
    obtain ⟨hfin, -, -, -, he⟩ := nextEnclosing_eq_ok_iff.mp (Prod.ext hy rfl)
    have hafter : (start x L).after h.nextEnclosing (k + 1) =
        ((start x L).after h.nextEnclosing k).moveTo p := (after_succ _ _ _).trans he
    have hnext := Unfit.nextEnclosing
      (w := ((start x L).after h.nextEnclosing k).moveTo p) hu hfin
    refine ⟨failure, hu, ?_, fun j hj ↦ ?_⟩
    · rw [yield, hafter, hnext]
    · refine h.guarded_nextEnclosing.yield_eq_none (k := k + 2) ?_ hj
      rw [after_succ, hafter, hnext]
      rfl

theorem looksBack_of_vector :
    let p := (create 0 0).newInteger [1]
    let e := p.2.environment p.1
    Arises e.2 ∧ Arena.Numbered e.2.arena ∧ LooksBack e.2 ∧
      (start e.1 1).yield e.2.nextEnclosing 0 = some (.ok p.1) := by
  intro p e
  have ha : Arises e.2 := .run (.update (.environment p.1))
    (.run (.update (.newInteger [1])) (.create 0 0) trivial) trivial
  have hn : Arena.Numbered e.2.arena := by decide +kernel
  have hl := Arises.looksBack ha hn
  have hparent : e.2.along .enclosing e.1 1 = .ok p.1 := by decide +kernel
  have hne : p.1 ≠ e.2.nil := by decide +kernel
  exact ⟨ha, hn, hl, (hl.yield_iff e.1 1 0 p.1).mpr ⟨Nat.one_pos, hparent, hne⟩⟩

/-- The vector is handed out as an environment before the walk fails because of it. -/
theorem enclosing_yields_vector :
    let p := (create 0 0).newInteger [1]
    let e := p.2.environment p.1
    let w := start e.1 defaultLimit
    w.yield e.2.nextEnclosing 0 = some (.ok p.1) ∧ e.2.tagOf p.1 = .ok .integer ∧
      w.yield e.2.nextEnclosing 1 =
        some (.error (.mismatch (.tag .environment) .integer)) := by
  decide +kernel

end TaggedHeap.Heap
