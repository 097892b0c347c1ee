import TaggedHeap.Proofs.Answers
import TaggedHeap.Proofs.Honesty
import TaggedHeap.Proofs.Chronicle
import Mathlib.Data.ENat.Lattice

namespace TaggedHeap

namespace Walk

variable {α : Type} {next : Walk → Step α} {x : Handle} {k L : ℕ}

def after (next : Walk → Step α) (w : Walk) (k : ℕ) : Walk :=
  (fun w ↦ (next w).2)^[k] w

/-- What a walk yields when it has made so many steps before. -/
def yield (next : Walk → Step α) (w : Walk) (k : ℕ) : Option (Except Failure α) :=
  (next (w.after next k)).1

theorem after_succ (next : Walk → Step α) (w : Walk) (k : ℕ) :
    w.after next (k + 1) = (next (w.after next k)).2 :=
  Function.iterate_succ_apply' _ k w

/-- A step with a guard: the walk ends, fails and ends, or moves on below its limit. -/
inductive Steps (w : Walk) : Step α → Prop
  | ends {w' : Walk} : w'.finished = true → Steps w (none, w')
  | fails {failure : Failure} {w' : Walk} :
      w'.finished = true → Steps w (some (.error failure), w')
  | moves {a : α} {x : Handle} : w.walked < w.limit → Steps w (some (.ok a), w.moveTo x)

structure Guarded (next : Walk → Step α) : Prop where
  finished : ∀ w : Walk, w.finished = true → next w = (none, w)
  steps : ∀ w : Walk, Steps w (next w)

theorem Guarded.yield_eq_none (hg : Guarded next) {w : Walk}
    (hw : (w.after next k).finished = true) {j : ℕ} (hj : k ≤ j) : w.yield next j = none := by
  have hstays : w.after next j = w.after next k := by
    induction j, hj using Nat.le_induction with
    | base => rfl
    | succ j _ ih => rw [after_succ, ih, hg.finished _ hw]
  rw [yield, hstays, hg.finished _ hw]

theorem Guarded.counts (hg : Guarded next) (x : Handle) (L k : ℕ) :
    ((start x L).after next k).finished = true ∨ k ≤ L ∧
      ((start x L).after next k).walked = k ∧ ((start x L).after next k).limit = L := by
  induction k with
  | zero => exact .inr ⟨Nat.zero_le L, rfl, rfl⟩
  | succ k ih =>
    rw [after_succ]
    rcases ih with hfin | ⟨-, hwalked, hlimit⟩
    · rw [hg.finished _ hfin]
      exact .inl hfin
    · have hstep := hg.steps ((start x L).after next k)
      generalize next ((start x L).after next k) = step at hstep ⊢
      cases hstep with
      | ends hfin => exact .inl hfin
      | fails hfin => exact .inl hfin
      | moves hlt =>
        refine .inr ⟨?_, congrArg (· + 1) hwalked, hlimit⟩
        omega

theorem Guarded.ends (hg : Guarded next) (x : Handle) (hk : L < k) :
    (start x L).yield next k = none := by
  apply hg.yield_eq_none _ le_rfl
  rcases hg.counts x L k with hfin | ⟨hle, -⟩
  · exact hfin
  · omega

theorem Guarded.finished_trailFrom (hg : Guarded next) {steps : ℕ} {w : Walk}
    (items : List α) (hw : w.bound ≤ steps) : (trailFrom next steps w items).2.finished = true := by
  induction steps generalizing w items with
  | zero => exact absurd hw (Nat.not_succ_le_zero _)
  | succ steps ih =>
    have hstep := hg.steps w
    unfold trailFrom
    generalize next w = step at hstep ⊢
    cases hstep with
    | ends hfin => exact hfin
    | fails hfin => exact hfin
    | moves hlt =>
      apply ih
      simp only [bound, moveTo] at hw ⊢
      omega

theorem Guarded.finished_trail (hg : Guarded next) (w : Walk) :
    (w.trail next).2.finished = true :=
  hg.finished_trailFrom [] le_rfl

end Walk

namespace Heap

open Walk

variable {h : Heap} {x c : Handle} {t : TypeTag} {k L : ℕ} {m : ℕ∞}

/-- Where the projections of a field lead, one after the other. -/
def along (h : Heap) (f : Field) (x : Handle) : ℕ → Except Failure Handle
  | 0 => .ok x
  | k + 1 => h.along f x k >>= fun c ↦ h.project c f

theorem along_succ {f : Field} (hc : h.along f x k = .ok c) :
    h.along f x (k + 1) = h.project c f := by
  rw [along, hc, ok_bind]

theorem along_cons {f : Field} (hc : h.project x f = .ok c) (n : ℕ) :
    h.along f x (n + 1) = h.along f c n := by
  induction n with
  | zero => exact (along_succ rfl).trans hc
  | succ n ih => rw [along, ih, along]

/-- As long as a walk moves on where a projection leads, its cursor is where the projections have
led. -/
theorem after_of_steps {α : Type} {next : Walk → Step α} {f : Field} {n : ℕ}
    (hsteps : ∀ k < n, ∀ c, h.along f x k = .ok c →
      ∃ c', h.project c f = .ok c' ∧ (next ⟨c, k, L, false⟩).2 = ⟨c', k + 1, L, false⟩) :
    ∃ c, h.along f x n = .ok c ∧ (start x L).after next n = ⟨c, n, L, false⟩ := by
  induction n with
  | zero => exact ⟨x, rfl, rfl⟩
  | succ n ih =>
    obtain ⟨c, hc, hw⟩ := ih fun k hk ↦ hsteps k (Nat.lt_succ_of_lt hk)
    obtain ⟨c', hc', hnext⟩ := hsteps n n.lt_succ_self c hc
    refine ⟨c', (along_succ hc).trans hc', ?_⟩
    rw [after_succ, hw, hnext]

theorem readCell_eq (hp : Arena.Proper h.arena) (c : Handle) :
    h.readCell c = do
      let tag ← h.project c .tag
      let head ← h.project c .head
      let tail ← h.project c .tail
      return (tag, head, tail) := by
  by_cases hl : h.isLive c = true
  · obtain ⟨r, hr⟩ := get?_of_isLive hl
    have hw := hp.wellFormed.get? hr
    rw [readCell_of_get? hr hw, project_of_get? hr hw, project_of_get? hr hw, project_of_get? hr hw]
    cases r.payload <;> rfl
  · rw [readCell_of_not_isLive hl, project_of_not_isLive hl]
    rfl

theorem guarded_nextCell (h : Heap) : Guarded h.nextCell where
  finished w hw := (h.next_of_finished hw).1
  steps w := by
    unfold nextCell
    split_ifs with hfin hnil hlimit
    · exact .ends hfin
    · exact .ends rfl
    · exact .fails rfl
    · split
      · exact .moves (Nat.not_le.mp hlimit)
      · exact .fails rfl

theorem guarded_nextEnclosing (h : Heap) : Guarded h.nextEnclosing where
  finished w hw := (h.next_of_finished hw).2
  steps w := by
    unfold nextEnclosing
    by_cases hfin : w.finished = true
    · rw [if_pos hfin]
      exact .ends hfin
    · rw [if_neg hfin]
      split
      · split_ifs with hnil hlimit
        · exact .ends rfl
        · exact .fails rfl
        · exact .moves (Nat.not_le.mp hlimit)
      · exact .fails rfl

def IsCell (h : Heap) (c : Handle) : Prop :=
  ∃ t, h.tagOf c = .ok t ∧ t.isCell = true

def CellAt (h : Heap) (x : Handle) (k : ℕ) : Prop :=
  ∃ c, h.along .tail x k = .ok c ∧ h.IsCell c

/-- The number of cells that a chain begins with. A cycle of cells makes it infinite. -/
noncomputable def cells (h : Heap) (x : Handle) : ℕ∞ :=
  ⨅ (k : ℕ) (_ : ¬ h.CellAt x k), (k : ℕ∞)

theorem cellAt_of_lt_cells (hk : (k : ℕ∞) < h.cells x) : h.CellAt x k := by
  by_contra hc
  exact absurd hk (not_lt.mpr (iInf₂_le k hc))

theorem not_cellAt_of_cells_eq {n : ℕ} (hn : h.cells x = n) : ¬ h.CellAt x n := by
  intro hc
  have hle : ((n + 1 : ℕ) : ℕ∞) ≤ h.cells x := by
    apply le_iInf₂
    intro k hk
    have hnk : (n : ℕ∞) ≤ k := hn ▸ iInf₂_le k hk
    have hne : k ≠ n := fun he ↦ hk (he ▸ hc)
    rw [Nat.cast_le] at hnk ⊢
    omega
  rw [hn, Nat.cast_le] at hle
  omega

theorem Carries.tagOf_nil {g : Heap} {ds : List Deed} (hc : Carries g ds h)
    (hl : g.tagOf g.nil = .ok .null) : h.tagOf h.nil = .ok .null := by
  obtain ⟨r, hr, ht⟩ := exists_of_bind_eq_ok hl
  have hr := get?_of_record hr
  have hlive := hc.live _ g.nil_mem_core (Arena.contains_of_get? hr)
  obtain ⟨r', hr', hrev, -⟩ := hc.get? hr hlive
  rw [hc.toKeeps.nil, tagOf_of_get? hr', hrev.tag]
  exact ht

theorem tagOf_nil_bare (seed : UInt32) : (bare seed).tagOf (bare seed).nil = .ok .null := by
  have hne : (bare seed).nil ≠ (bare seed).missingString := nofun
  have hr := get?_bare seed (bare seed).nil
  rw [if_neg hne, if_pos rfl] at hr
  exact tagOf_of_get? hr

/-- In every heap `nil` is what it was at first. If two slots had one number, another record could
be stored in its place. -/
theorem Arises.tagOf_nil (ha : Arises h) (hn : Arena.Numbered h.arena) :
    h.tagOf h.nil = .ok .null :=
  ha.induction hn tagOf_nil_bare (fun _ _ _ _ _ hc hl ↦ hc.tagOf_nil hl) fun _ _ _ _ _ hl ↦ hl

theorem ne_nil_of_tagOf (hnil : h.tagOf h.nil = .ok .null) (ht : h.tagOf c = .ok t)
    (hne : t ≠ .null) : c ≠ h.nil := by
  rintro rfl
  exact hne (Except.ok.inj (ht.symm.trans hnil))

theorem IsCell.ne_nil (hc : h.IsCell c) (hnil : h.tagOf h.nil = .ok .null) : c ≠ h.nil := by
  obtain ⟨t, ht, hcell⟩ := hc
  apply ne_nil_of_tagOf hnil ht
  rintro rfl
  cases hcell

theorem readCell_of_isCell (hp : Arena.Proper h.arena) (hc : h.IsCell c) :
    ∃ tag head tail, h.readCell c = .ok (tag, head, tail) ∧ h.project c .tag = .ok tag ∧
      h.project c .head = .ok head ∧ h.project c .tail = .ok tail := by
  obtain ⟨t, ht, hcell⟩ := hc
  obtain ⟨r, hr, he⟩ := exists_of_bind_eq_ok ht
  have hr := get?_of_record hr
  have hw := hp.wellFormed.get? hr
  obtain rfl : r.tag = t := Except.ok.inj he
  obtain ⟨⟨tag, head, tail⟩, hread⟩ :=
    Option.isSome_iff_exists.mp ((Payload.isSome_cell?_of_fits hw).trans hcell)
  have hok : h.readCell c = .ok (tag, head, tail) := by
    rw [readCell_of_get? hr hw, hread]
    rfl
  refine ⟨tag, head, tail, hok, ?_⟩
  rw [readCell_eq hp] at hok
  obtain ⟨tag', htag, hok⟩ := exists_of_bind_eq_ok hok
  obtain ⟨head', hhead, hok⟩ := exists_of_bind_eq_ok hok
  obtain ⟨tail', htail, hok⟩ := exists_of_bind_eq_ok hok
  cases hok
  exact ⟨htag, hhead, htail⟩

theorem exists_cell (hp : Arena.Proper h.arena) (hnil : h.tagOf h.nil = .ok .null)
    (hk : (k : ℕ∞) < h.cells x) (hc : h.along .tail x k = .ok c) :
    c ≠ h.nil ∧ ∃ tag head tail, h.readCell c = .ok (tag, head, tail) ∧
      h.project c .tag = .ok tag ∧ h.project c .head = .ok head ∧ h.project c .tail = .ok tail := by
  obtain ⟨c', hc', hcell⟩ := cellAt_of_lt_cells hk
  obtain rfl : c = c' := Except.ok.inj (hc.symm.trans hc')
  exact ⟨hcell.ne_nil hnil, readCell_of_isCell hp hcell⟩

theorem nextCell_of_readCell {tag head tail : Handle} (hc : h.readCell c = .ok (tag, head, tail))
    (hne : c ≠ h.nil) (hk : k < L) :
    h.nextCell ⟨c, k, L, false⟩ = (some (.ok (tag, head)), ⟨tail, k + 1, L, false⟩) := by
  rw [nextCell, if_neg Bool.false_ne_true, if_neg hne, if_neg (Nat.not_le.mpr hk), hc]
  rfl

theorem nextCell_nil (h : Heap) (k L : ℕ) :
    h.nextCell ⟨h.nil, k, L, false⟩ = (none, ⟨h.nil, k, L, true⟩) := by
  rw [nextCell, if_neg Bool.false_ne_true, if_pos rfl]
  rfl

theorem nextCell_of_limit (hne : c ≠ h.nil) :
    h.nextCell ⟨c, L, L, false⟩ =
      (some (.error (.denied (.traversalLimit L))), ⟨c, L, L, true⟩) := by
  rw [nextCell, if_neg Bool.false_ne_true, if_neg hne, if_pos le_rfl]
  rfl

theorem project_of_not_isCell (hc : ¬ h.IsCell c) :
    ∃ failure, h.project c .tail = .error failure ∧ h.readCell c = .error failure ∧
      (¬ h.isLive c = true ∧ failure = .stale c ∨
        ∃ t, h.tagOf c = .ok t ∧ failure = .mismatch (.tag .pairlist) t) := by
  by_cases hl : h.isLive c = true
  · obtain ⟨r, hr⟩ := get?_of_isLive hl
    have ht := tagOf_of_get? hr
    have hcell : r.tag.isCell = false := Bool.eq_false_iff.mpr fun hcell ↦ hc ⟨_, ht, hcell⟩
    exact ⟨_, project_of_unmet ht hcell, readCell_of_unmet ht hcell, .inr ⟨_, ht, rfl⟩⟩
  · exact ⟨_, project_of_not_isLive hl .tail, readCell_of_not_isLive hl, .inl ⟨hl, rfl⟩⟩

theorem nextCell_of_error {failure : Failure} (hc : h.readCell c = .error failure)
    (hne : c ≠ h.nil) (hk : k < L) :
    h.nextCell ⟨c, k, L, false⟩ = (some (.error failure), ⟨c, k, L, true⟩) := by
  rw [nextCell, if_neg Bool.false_ne_true, if_neg hne, if_neg (Nat.not_le.mpr hk), hc]
  rfl

theorem exists_of_nextCell (hp : Arena.Proper h.arena) {w w' : Walk} {tag head : Handle}
    (hw : h.nextCell w = (some (.ok (tag, head)), w')) :
    w.walked < w.limit ∧ h.project w.cursor .tag = .ok tag ∧
      ∃ tail, h.project w.cursor .tail = .ok tail ∧ w' = w.moveTo tail := by
  unfold nextCell at hw
  split_ifs at hw with hfinished hnil hlimit
  · cases hw
  · cases hw
  · cases hw
  · split at hw
    · next tag' head' tail hread =>
      cases hw
      rw [readCell_eq hp] at hread
      obtain ⟨_, htag, hread⟩ := exists_of_bind_eq_ok hread
      obtain ⟨_, -, hread⟩ := exists_of_bind_eq_ok hread
      obtain ⟨_, htail, hread⟩ := exists_of_bind_eq_ok hread
      cases hread
      exact ⟨Nat.not_le.mp hlimit, htag, tail, htail, rfl⟩
    · cases hw

/-- The environments around the first number as many as given, infinitely many in a cycle; they
all have records, and `nil` comes after the last. -/
structure Encloses (h : Heap) (x : Handle) (m : ℕ∞) : Prop where
  environment : ∀ k : ℕ, (k : ℕ∞) ≤ m →
    ∃ e, h.along .enclosing x k = .ok e ∧ h.tagOf e = .ok .environment
  outermost : ∀ k : ℕ, m = k → h.along .enclosing x (k + 1) = .ok h.nil

theorem Encloses.exists_parent (hm : h.Encloses x m) (hnil : h.tagOf h.nil = .ok .null)
    (hk : (k : ℕ∞) < m) (hc : h.along .enclosing x k = .ok c) :
    ∃ p, h.project c .enclosing = .ok p ∧ p ≠ h.nil := by
  obtain ⟨p, hp, ht⟩ := hm.environment (k + 1) (Order.add_one_le_of_lt hk)
  rw [along_succ hc] at hp
  exact ⟨p, hp, ne_nil_of_tagOf hnil ht nofun⟩

theorem nextEnclosing_of_parent {p : Handle} (hc : h.project c .enclosing = .ok p)
    (hne : p ≠ h.nil) (hk : k < L) :
    h.nextEnclosing ⟨c, k, L, false⟩ = (some (.ok p), ⟨p, k + 1, L, false⟩) := by
  rw [nextEnclosing, if_neg Bool.false_ne_true, hc]
  simp only [if_neg hne, if_neg (Nat.not_le.mpr hk)]
  rfl

theorem nextEnclosing_of_nil (hc : h.project c .enclosing = .ok h.nil) :
    h.nextEnclosing ⟨c, k, L, false⟩ = (none, ⟨c, k, L, true⟩) := by
  rw [nextEnclosing, if_neg Bool.false_ne_true, hc]
  simp only [if_pos]
  rfl

theorem nextEnclosing_of_limit {p : Handle} (hc : h.project c .enclosing = .ok p)
    (hne : p ≠ h.nil) :
    h.nextEnclosing ⟨c, L, L, false⟩ =
      (some (.error (.denied (.traversalLimit L))), ⟨c, L, L, true⟩) := by
  rw [nextEnclosing, if_neg Bool.false_ne_true, hc]
  simp only [if_neg hne, if_pos le_rfl]
  rfl

/-- What walks yield, step by step, and where they end. -/
structure FollowsChains (h : Heap) : Prop where
  cell : ∀ (x : Handle) (L k : ℕ), (k : ℕ∞) < min (h.cells x) L →
    ∃ c tag head, h.along .tail x k = .ok c ∧ h.project c .tag = .ok tag ∧
      h.project c .head = .ok head ∧ (start x L).yield h.nextCell k = some (.ok (tag, head))
  cell_limit : ∀ (x : Handle) (L : ℕ), (L : ℕ∞) ≤ h.cells x →
    ∃ c, h.along .tail x L = .ok c ∧ (start x L).yield h.nextCell L =
      if c = h.nil then none else some (.error (.denied (.traversalLimit L)))
  cell_last : ∀ (x : Handle) (L n : ℕ), h.cells x = n → n < L →
    ∃ c failure, h.along .tail x n = .ok c ∧ h.project c .tail = .error failure ∧
      (¬ h.isLive c = true ∧ failure = .stale c ∨
        ∃ t, h.tagOf c = .ok t ∧ failure = .mismatch (.tag .pairlist) t) ∧
      (start x L).yield h.nextCell n = if c = h.nil then none else some (.error failure)
  cell_over : ∀ (x : Handle) (L k : ℕ), min (h.cells x) L < k →
    (start x L).yield h.nextCell k = none
  enclosing : ∀ (x : Handle) (m : ℕ∞) (L k : ℕ), h.Encloses x m → (k : ℕ∞) < min m L →
    ∃ e, h.along .enclosing x (k + 1) = .ok e ∧
      (start x L).yield h.nextEnclosing k = some (.ok e)
  enclosing_last : ∀ (x : Handle) (m : ℕ∞) (L : ℕ), h.Encloses x m → m ≤ L →
    ∀ k : ℕ, m ≤ k → (start x L).yield h.nextEnclosing k = none
  enclosing_limit : ∀ (x : Handle) (m : ℕ∞) (L : ℕ), h.Encloses x m → (L : ℕ∞) < m →
    (start x L).yield h.nextEnclosing L = some (.error (.denied (.traversalLimit L)))
  ends : ∀ (x : Handle) (L k : ℕ), L < k →
    (start x L).yield h.nextCell k = none ∧ (start x L).yield h.nextEnclosing k = none
  finished : ∀ w : Walk,
    (w.trail h.nextCell).2.finished = true ∧ (w.trail h.nextEnclosing).2.finished = true

/-- Where a walk along cells is, as long as it has neither met its limit nor the last cell. -/
theorem after_nextCell (hp : Arena.Proper h.arena) (hnil : h.tagOf h.nil = .ok .null) {n : ℕ}
    (hn : (n : ℕ∞) ≤ h.cells x) (hL : n ≤ L) :
    ∃ c, h.along .tail x n = .ok c ∧ (start x L).after h.nextCell n = ⟨c, n, L, false⟩ := by
  apply after_of_steps
  intro k hk c hc
  have hlt : (k : ℕ∞) < h.cells x := lt_of_lt_of_le (Nat.cast_lt.mpr hk) hn
  obtain ⟨hne, tag, head, tail, hread, -, -, htail⟩ := exists_cell hp hnil hlt hc
  have hnext := nextCell_of_readCell hread hne (hk.trans_le hL)
  exact ⟨tail, htail, congrArg Prod.snd hnext⟩

theorem after_nextEnclosing (hnil : h.tagOf h.nil = .ok .null) (hm : h.Encloses x m) {n : ℕ}
    (hn : (n : ℕ∞) ≤ m) (hL : n ≤ L) :
    ∃ e, h.along .enclosing x n = .ok e ∧
      (start x L).after h.nextEnclosing n = ⟨e, n, L, false⟩ := by
  apply after_of_steps
  intro k hk e he
  have hlt : (k : ℕ∞) < m := lt_of_lt_of_le (Nat.cast_lt.mpr hk) hn
  obtain ⟨p, hparent, hne⟩ := hm.exists_parent hnil hlt he
  have hnext := nextEnclosing_of_parent hparent hne (hk.trans_le hL)
  exact ⟨p, hparent, congrArg Prod.snd hnext⟩

theorem yield_of_cells_eq (hp : Arena.Proper h.arena) (hnil : h.tagOf h.nil = .ok .null) {n : ℕ}
    (hn : h.cells x = n) (hL : n < L) :
    ∃ c failure, h.along .tail x n = .ok c ∧ h.project c .tail = .error failure ∧
      (¬ h.isLive c = true ∧ failure = .stale c ∨
        ∃ t, h.tagOf c = .ok t ∧ failure = .mismatch (.tag .pairlist) t) ∧
      (start x L).yield h.nextCell n = (if c = h.nil then none else some (.error failure)) ∧
      ((start x L).after h.nextCell (n + 1)).finished = true := by
  obtain ⟨c, hc, hw⟩ := after_nextCell (x := x) hp hnil hn.ge hL.le
  have hcell : ¬ h.IsCell c := fun hcell ↦ not_cellAt_of_cells_eq hn ⟨c, hc, hcell⟩
  obtain ⟨failure, htail, hread, hwhy⟩ := project_of_not_isCell hcell
  refine ⟨c, failure, hc, htail, hwhy, ?_⟩
  rw [yield, after_succ, hw]
  by_cases hne : c = h.nil
  · rw [if_pos hne, hne, nextCell_nil]
    exact ⟨rfl, rfl⟩
  · rw [if_neg hne, nextCell_of_error hread hne hL]
    exact ⟨rfl, rfl⟩

/-- In every heap, and however a chain may go on, walks follow it as the projections do. The slots
must not outnumber the 32 bits of their numbers. -/
theorem Arises.followsChains (ha : Arises h) (hn : Arena.Numbered h.arena) : FollowsChains h where
  cell x L k hk := by
    obtain ⟨hcells, hL⟩ := lt_min_iff.mp hk
    have hL : k < L := Nat.cast_lt.mp hL
    obtain ⟨c, hc, hw⟩ := after_nextCell (x := x) ha.proper (ha.tagOf_nil hn) hcells.le hL.le
    obtain ⟨hne, tag, head, tail, hread, htag, hhead, -⟩ :=
      exists_cell ha.proper (ha.tagOf_nil hn) hcells hc
    refine ⟨c, tag, head, hc, htag, hhead, ?_⟩
    rw [yield, hw, nextCell_of_readCell hread hne hL]
  cell_limit x L hcells := by
    obtain ⟨c, hc, hw⟩ := after_nextCell (x := x) ha.proper (ha.tagOf_nil hn) hcells le_rfl
    refine ⟨c, hc, ?_⟩
    rw [yield, hw]
    split_ifs with hne
    · rw [hne, nextCell_nil]
    · rw [nextCell_of_limit hne]
  cell_last x L n hcells hL := by
    obtain ⟨c, failure, hc, htail, hwhy, hyield, -⟩ :=
      yield_of_cells_eq ha.proper (ha.tagOf_nil hn) hcells hL
    exact ⟨c, failure, hc, htail, hwhy, hyield⟩
  cell_over x L k hk := by
    rcases min_lt_iff.mp hk with hcells | hL
    · obtain ⟨n, hcells'⟩ := ENat.ne_top_iff_exists.mp hcells.ne_top
      rw [← hcells', Nat.cast_lt] at hcells
      rcases Nat.lt_or_ge L k with hL | hL
      · exact h.guarded_nextCell.ends x hL
      · obtain ⟨c, failure, -, -, -, -, hfin⟩ := yield_of_cells_eq (L := L) ha.proper
          (ha.tagOf_nil hn) hcells'.symm (hcells.trans_le hL)
        exact h.guarded_nextCell.yield_eq_none hfin hcells
    · exact h.guarded_nextCell.ends x (Nat.cast_lt.mp hL)
  enclosing x m L k hm hk := by
    obtain ⟨hkm, hL⟩ := lt_min_iff.mp hk
    have hL : k < L := Nat.cast_lt.mp hL
    obtain ⟨e, he, hw⟩ := after_nextEnclosing (ha.tagOf_nil hn) hm hkm.le hL.le
    obtain ⟨p, hparent, hne⟩ := hm.exists_parent (ha.tagOf_nil hn) hkm he
    refine ⟨p, (along_succ he).trans hparent, ?_⟩
    rw [yield, hw, nextEnclosing_of_parent hparent hne hL]
  enclosing_last x m L hm hL k hk := by
    obtain ⟨n, rfl⟩ := ENat.ne_top_iff_exists.mp (ne_top_of_le_ne_top (ENat.natCast_ne_top L) hL)
    obtain ⟨e, he, hw⟩ := after_nextEnclosing (ha.tagOf_nil hn) hm le_rfl (Nat.cast_le.mp hL)
    have hparent := hm.outermost n rfl
    rw [along_succ he] at hparent
    have hnext := congrArg h.nextEnclosing hw
    rw [nextEnclosing_of_nil hparent] at hnext
    rcases Nat.eq_or_lt_of_le (Nat.cast_le.mp hk) with rfl | hlt
    · rw [yield, hnext]
    · apply h.guarded_nextEnclosing.yield_eq_none _ hlt
      rw [after_succ, hnext]
  enclosing_limit x m L hm hL := by
    obtain ⟨e, he, hw⟩ := after_nextEnclosing (ha.tagOf_nil hn) hm hL.le le_rfl
    obtain ⟨p, hparent, hne⟩ := hm.exists_parent (ha.tagOf_nil hn) hL he
    rw [yield, hw, nextEnclosing_of_limit hparent hne]
  ends x L k hk := ⟨h.guarded_nextCell.ends x hk, h.guarded_nextEnclosing.ends x hk⟩
  finished w := ⟨h.guarded_nextCell.finished_trail w, h.guarded_nextEnclosing.finished_trail w⟩

theorem along_of_cycle {f : Field} (hx : h.project x f = .ok x) (k : ℕ) :
    h.along f x k = .ok x := by
  induction k with
  | zero => rfl
  | succ k ih => exact (along_succ ih).trans hx

theorem followsChains_of_cycle :
    let p := (create 0 0).cons (create 0 0).nil (create 0 0).nil
    let h := (p.2.setField p.1 .tail p.1).2
    Arises h ∧ Arena.Numbered h.arena ∧ h.cells p.1 = ⊤ ∧ FollowsChains h ∧
      (∃ cell, (start p.1 3).yield h.nextCell 2 = some (.ok cell)) ∧
      (start p.1 3).yield h.nextCell 3 = some (.error (.denied (.traversalLimit 3))) := by
  intro p h
  have hp : Arises p.2 := .run (.update (.cons (create 0 0).nil (create 0 0).nil))
    (.create 0 0) trivial
  have hh : Arises h := .run (.update (.setField p.1 .tail p.1)) hp trivial
  have hn : Arena.Numbered h.arena := by decide +kernel
  have htail : h.project p.1 .tail = .ok p.1 := by decide +kernel
  have hcell : h.IsCell p.1 := ⟨.pairlist, by decide +kernel, rfl⟩
  have htop : h.cells p.1 = ⊤ := by
    apply iInf₂_eq_top.mpr
    intro k hk
    exact absurd ⟨p.1, along_of_cycle htail k, hcell⟩ hk
  have hf := Arises.followsChains hh hn
  have hlt : ((2 : ℕ) : ℕ∞) < min (h.cells p.1) (3 : ℕ) :=
    lt_min_iff.mpr ⟨htop ▸ ENat.natCast_lt_top 2, Nat.cast_lt.mpr (by decide)⟩
  obtain ⟨_, tag, head, -, -, -, hcellYield⟩ := hf.cell p.1 3 2 hlt
  obtain ⟨c, hc, hlimit⟩ := hf.cell_limit p.1 3 (htop ▸ le_top)
  obtain rfl : p.1 = c := Except.ok.inj ((along_of_cycle htail 3).symm.trans hc)
  rw [if_neg (hcell.ne_nil (hh.tagOf_nil hn))] at hlimit
  exact ⟨hh, hn, htop, hf, ⟨_, hcellYield⟩, hlimit⟩

end Heap

end TaggedHeap
