import TaggedHeap.Proofs.History
import TaggedHeap.Proofs.Lockstep
import TaggedHeap.Proofs.Operands

namespace TaggedHeap.Heap

open Arena

variable {g h : Heap} {x y : Handle} {r : Record} {P Q : List Handle} {tag : TypeTag}
  {payload : Payload} {n : Nat}

/-- The record is freed, and the next record of its slot, if there is one, is not freed for now. -/
def Vacates (h : Heap) (pending : List Handle) (x : Handle) : Prop :=
  h.arena.generationAt x.slot.toNat = x.next.generation ∧
    (h.isLive x.next = true → h.Rooted pending x.next)

/-- The handle finds its record, or it finds none before the operation ends. -/
def Lasts (h : Heap) (pending : List Handle) (x : Handle) (r : Record) : Prop :=
  h.arena.get? x = some r ∨ h.Vacates pending x

theorem next_ne (x : Handle) : x.next ≠ x := fun he ↦ by
  have hg : x.generation + 1 = x.generation := congrArg Handle.generation he
  simp at hg

theorem Vacates.not_isLive (hx : h.Vacates P x) : ¬ h.isLive x = true := by
  intro hl
  have hg : x.next.generation = x.generation := hx.1.symm.trans (contains_iff_holds.mp hl).2
  exact next_ne x (congrArg (Handle.mk x.slot) hg)

theorem Lasts.get? (hx : h.Lasts P x r) (hl : h.isLive x = true) : h.arena.get? x = some r :=
  hx.resolve_right fun hv ↦ hv.not_isLive hl

section Roots

theorem Lasts.reroot (hx : h.Lasts P x r) (ha : g.arena = h.arena)
    (hr : ∀ y ∈ h.rootHandles P, h.isLive y = true → g.Rooted Q y) : g.Lasts Q x r := by
  refine hx.imp (fun hx ↦ ha ▸ hx) fun ⟨hgen, hnext⟩ ↦ ⟨ha ▸ hgen, fun hl ↦ ?_⟩
  rw [isLive, ha] at hl
  refine Arena.Reach.trans (ha ▸ hnext hl) fun y hy hc ↦ hr y hy ?_
  rwa [ha] at hc

theorem Lasts.mono (hx : h.Lasts P x r) (ha : g.arena = h.arena)
    (hr : h.rootHandles P ⊆ g.rootHandles Q) : g.Lasts Q x r :=
  hx.reroot ha fun _ hy hl ↦ .root (hr hy) (by rwa [ha])

theorem Lasts.pending (hx : h.Lasts [] x r) (P : List Handle) : h.Lasts P x r :=
  hx.mono rfl fun _ ↦ mem_rootHandles_of_mem

theorem Lasts.protect (hx : h.Lasts [y] x r) : (h.protect y).Lasts [] x r := by
  refine hx.mono rfl fun z hz ↦ ?_
  rw [rootHandles_eq, List.mem_append, List.mem_singleton] at hz
  rcases hz with hz | rfl
  · exact (h.continues_protect y).mem_rootHandles hz
  · exact h.mem_rootHandles_protect z

end Roots

section Collect

theorem holds_of_mem_swept {a : Arena} {i : Nat} (hi : i ∈ a.swept) : a.holds i = true := by
  obtain ⟨s, hs, hgarbage⟩ := (Option.any_eq_true _ _).mp (mem_swept_iff.mp hi)
  refine (Option.any_eq_true _ _).mpr ⟨s, hs, ?_⟩
  unfold Slot.isGarbage at hgarbage
  split at hgarbage
  · next he => rw [he, Option.isSome_some]
  · cases hgarbage

theorem Rooted.collectWith (hx : h.Rooted P x) (hp : Proper h.arena) :
    (h.collectWith P).2.Rooted P x := by
  induction hx with
  | root hx hl => exact .root hx ((contains_collect_iff hp.unmarked).mpr (.root hx hl))
  | link hx hy hl ih =>
    refine .link ih ?_ ((contains_collect_iff hp.unmarked).mpr (.link hx hy hl))
    exact (linksOf_collect hp.unmarked hx).symm ▸ hy

theorem Vacates.collectWith (hx : h.Vacates P x) (hp : Proper h.arena) :
    (h.collectWith P).2.Vacates P x := by
  obtain ⟨hgen, hnext⟩ := hx
  have hm := marking_mark h.arena (h.rootHandles P)
  by_cases hl : h.isLive x.next = true
  · have hr := (hnext hl).collectWith hp
    exact ⟨(contains_iff_holds.mp hr.isLive).2, fun _ ↦ hr⟩
  -- The slot is empty, and a collection leaves it so.
  · refine ⟨?_, fun hl' ↦ ?_⟩
    · have hs : x.slot.toNat ∉ (h.arena.mark (h.rootHandles P)).2.swept := fun hs ↦ by
        refine hl ((hm.alike.contains x.next).symm.trans (contains_iff_holds.mpr ⟨?_, ?_⟩))
        · exact holds_of_mem_swept hs
        · exact (hm.generationAt _).trans hgen
      have hsweep := generationAt_sweep (h.arena.mark (h.rootHandles P)).2 x.slot.toNat
      rw [if_neg hs, UInt32.add_zero, hm.generationAt] at hsweep
      exact hsweep.trans hgen
    · obtain ⟨q, hq⟩ := get?_of_isLive hl'
      exact absurd (contains_of_get? (get?_of_get?_collect hp.unmarked hq)) hl

theorem Lasts.collectWith (hx : h.Lasts P x r) (hp : Proper h.arena) :
    (h.collectWith P).2.Lasts P x r := by
  rcases hx with hx | hx
  · by_cases hs : x.slot.toNat ∈ (h.arena.mark (h.rootHandles P)).2.swept
    · refine .inr ⟨?_, fun hl ↦ ?_⟩
      · have hsweep := generationAt_sweep (h.arena.mark (h.rootHandles P)).2 x.slot.toNat
        rw [if_pos hs, (marking_mark _ _).generationAt,
          (contains_iff_holds.mp (contains_of_get? hx)).2] at hsweep
        exact hsweep
      · obtain ⟨q, hq⟩ := get?_of_isLive hl
        have hq := get?_of_get?_collect hp.unmarked hq
        exact absurd (eq_of_slot_eq (contains_of_get? hx) (contains_of_get? hq) rfl) (next_ne x)
    · exact .inl (get?_collect_of_not_mem_swept hp.unmarked hx hs)
  · exact .inr (hx.collectWith hp)

theorem Lasts.settle (hx : h.Lasts P x r) (hp : Proper h.arena) : (h.settle P).Lasts P x r := by
  unfold Heap.settle
  split
  · exact hx.collectWith hp
  · exact hx

end Collect

section Alloc

theorem generationAt_alloc (h : Heap) (tag : TypeTag) (payload : Payload) (i : Nat) :
    (h.alloc tag payload).2.arena.generationAt i =
      (h.settle payload.children).arena.generationAt i := by
  rw [alloc_eq]
  exact generationAt_insert _ _ i

theorem rooted_alloc_self (hp : Proper h.arena) (hn : Numbered (h.alloc tag payload).2.arena) :
    (h.alloc tag payload).2.Rooted [(h.alloc tag payload).1] (h.alloc tag payload).1 := by
  refine .root ?_ (isLive_alloc_self hp hn)
  rw [rootHandles_eq]
  exact List.mem_append_right _ List.mem_cons_self

theorem Rooted.alloc (hx : (h.settle payload.children).Rooted payload.children x)
    (hp : Proper h.arena) (hn : Numbered (h.alloc tag payload).2.arena) :
    (h.alloc tag payload).2.Rooted [(h.alloc tag payload).1] x := by
  induction hx with
  | @root y hy hl =>
    have hl : (h.alloc tag payload).2.isLive y = true := isLive_alloc_of_settle hl
    rw [rootHandles_eq, List.mem_append] at hy
    rcases hy with hy | hy
    · refine .root (mem_rootHandles_of_mem ?_) hl
      rwa [alloc_eq]
    · refine .link (rooted_alloc_self hp hn) ?_ hl
      rw [linksOf_of_get? (h.get?_alloc hp hn)]
      exact List.mem_cons_of_mem _ hy
  | link hx hy hl ih =>
    refine .link ih ?_ (isLive_alloc_of_settle hl)
    rw [linksOf, get?_alloc_of_ne (ne_alloc_of_isLive hp hn hx.contains)]
    exact hy

theorem Lasts.alloc (hx : h.Lasts [] x r) (hp : Proper h.arena)
    (hn : Numbered (h.alloc tag payload).2.arena) :
    (h.alloc tag payload).2.Lasts [(h.alloc tag payload).1] x r := by
  rcases (hx.pending payload.children).settle hp with hx | ⟨hgen, hnext⟩
  · refine .inl ?_
    rw [get?_alloc_of_ne (ne_alloc_of_isLive hp hn (contains_of_get? hx))]
    exact hx
  · refine .inr ⟨(h.generationAt_alloc ..).trans hgen, fun hl ↦ ?_⟩
    by_cases he : x.next = (h.alloc tag payload).1
    · exact he ▸ rooted_alloc_self hp hn
    · rw [isLive, contains, get?_alloc_of_ne he] at hl
      exact (hnext hl).alloc hp hn

theorem Lasts.ne_alloc (hx : h.Lasts [] x r) (hp : Proper h.arena)
    (hn : Numbered (h.alloc tag payload).2.arena) : x ≠ (h.alloc tag payload).1 := by
  rcases (hx.pending payload.children).settle hp with hs | ⟨hgen, -⟩
  · exact ne_alloc_of_isLive hp hn (contains_of_get? hs)
  · rintro rfl
    have hv : (h.alloc tag payload).2.arena.generationAt _ = _ :=
      (h.generationAt_alloc ..).trans hgen
    rw [(contains_iff_holds.mp (isLive_alloc_self hp hn)).2] at hv
    exact next_ne _ (congrArg (Handle.mk _) hv.symm)

end Alloc

section Operations

variable {bytes : List UInt8} {values : List (Option String)} {name : String}
  {label : Option String} {items : List (Option String × Handle)}

theorem mem_rootHandles_unprotect (n : Nat) (hy : y ∈ h.rootHandles P) :
    y ∈ (h.unprotect n).rootHandles P ∨ y ∈ h.roots.stack.take n := by
  by_cases hn : n ≤ h.roots.stack.length
  · have hroots : h.unprotect n = { h with
        roots := { h.roots with stack := h.roots.stack.drop n } } := by
      rw [unprotect, Roots.unprotect?, if_pos hn]
    rw [mem_rootHandles, ← List.take_append_drop n h.roots.stack, List.mem_append] at hy
    rw [hroots, mem_rootHandles]
    tauto
  · have hroots : (h.unprotect n).rootHandles P = h.rootHandles P := by
      rw [unprotect, Roots.unprotect?, if_neg hn]
      rfl
    exact .inl (hroots ▸ hy)

/-- A new record takes the place of its protected children. -/
theorem Lasts.unprotect (hx : h.Lasts [y] x r)
    (hy : ∀ z ∈ h.roots.stack.take n, h.isLive z = true → z ∈ h.arena.linksOf y) :
    (h.unprotect n).Lasts [y] x r := by
  refine hx.reroot (arena_unprotect ..) fun z hz hl ↦ ?_
  have ha := h.arena_unprotect n
  rcases mem_rootHandles_unprotect n hz with hz | hz
  · exact .root hz (by rwa [ha])
  · have hlink : z ∈ (h.unprotect n).arena.linksOf y := ha.symm ▸ hy z hz hl
    refine .link (.root ?_ ?_) hlink (by rwa [ha])
    · rw [rootHandles_eq]
      exact List.mem_append_right _ List.mem_cons_self
    · exact contains_of_mem_linksOf hlink

theorem Lasts.intern (hx : h.Lasts [] x r) (hp : Proper h.arena)
    (hn : Numbered (h.intern bytes).2.arena) :
    (h.intern bytes).2.Lasts [(h.intern bytes).1] x r := by
  unfold Heap.intern at hn ⊢
  split
  · exact hx.pending _
  · next he =>
    rw [he] at hn
    exact (hx.alloc hp hn).mono rfl fun _ hy ↦ hy

theorem Lasts.install (hx : h.Lasts [] x r) (hp : Proper h.arena)
    (hn : Numbered (h.install name).2.arena) : (h.install name).2.Lasts [] x r := by
  unfold Heap.install at hn ⊢
  split
  · exact hx
  · next he =>
    rw [he] at hn
    dsimp only at hn ⊢
    rw [arena_unprotect] at hn
    let p := h.internText name
    let q := p.2.protect p.1
    let s := q.alloc .symbol (.symbol p.1 q.unbound q.nil)
    have hc := q.continues_alloc .symbol (.symbol p.1 q.unbound q.nil) rfl
    have hpq : Proper q.arena := (h.continues_internText name).evolves.proper hp
    have hs : s.2.Lasts [s.1] x r :=
      (hx.intern hp (hc.numbered hn)).protect.alloc hpq hn
    -- The symbol, which comes into the table, leads to its print name.
    have hu : (s.2.unprotect 1).Lasts [s.1] x r := hs.unprotect fun z hz _ ↦ by
      rw [hc.roots_eq] at hz
      obtain rfl : z = p.1 := List.mem_singleton.mp hz
      rw [linksOf_of_get? (q.get?_alloc hpq hn)]
      exact List.mem_cons_of_mem _ List.mem_cons_self
    refine hu.mono rfl fun z hz ↦ ?_
    simp only [mem_rootHandles, List.map_cons, List.mem_cons, List.not_mem_nil, or_false] at hz ⊢
    tauto

theorem Lasts.installLabel (hx : h.Lasts [] x r) (hp : Proper h.arena)
    (hn : Numbered (h.installLabel label).2.arena) : (h.installLabel label).2.Lasts [] x r := by
  cases label with
  | none => exact hx
  | some name => exact hx.install hp hn

theorem continues_internElement (h : Heap) (value : Option String) :
    Continues h 0 (h.internElement value).2 := by
  cases value with
  | none => exact .refl h
  | some text => exact h.continues_internText text

theorem stack_internAll (values : List (Option String)) (h : Heap) :
    (internAll values h).2.roots.stack = (internAll values h).1.reverse ++ h.roots.stack := by
  induction values generalizing h with
  | nil => rfl
  | cons value values ih =>
    rw [internAll_cons]
    dsimp only
    rw [ih, List.reverse_cons, List.append_assoc, protect, Roots.protect,
      (h.continues_internElement value).roots_eq]
    rfl

theorem Lasts.internAll (hx : h.Lasts [] x r) (hp : Proper h.arena)
    (hn : Numbered (internAll values h).2.arena) : (internAll values h).2.Lasts [] x r := by
  induction values generalizing h with
  | nil => exact hx
  | cons value values ih =>
    rw [internAll_cons] at hn ⊢
    let p := h.internElement value
    have hnp : Numbered p.2.arena :=
      (grows_internAll values (p.2.protect p.1)).toContinues.numbered hn
    refine ih (Lasts.protect ?_) ((h.continues_internElement value).evolves.proper hp) hn
    cases value with
    | none => exact hx.pending _
    | some text => exact hx.intern hp hnp

theorem length_internAll (values : List (Option String)) (h : Heap) :
    (Heap.internAll values h).1.length = values.length := by
  induction values generalizing h with
  | nil => rfl
  | cons value values ih => rw [internAll_cons, List.length_cons, ih, List.length_cons]

theorem Lasts.newString (hx : h.Lasts [] x r) (hp : Proper h.arena)
    (hn : Numbered (h.newString values).2.arena) :
    (h.newString values).2.Lasts [(h.newString values).1] x r := by
  let p := Heap.internAll values h
  let s := p.2.alloc .string (.strings p.1.toArray)
  have hc := p.2.continues_alloc .string (.strings p.1.toArray) rfl
  have hns : Numbered s.2.arena := by
    unfold Heap.newString at hn
    rwa [arena_unprotect] at hn
  have hpp : Proper p.2.arena := (h.continues_internAll values).evolves.proper hp
  have hs : s.2.Lasts [s.1] x r := (hx.internAll hp (hc.numbered hns)).alloc hpp hns
  -- The vector leads to its texts.
  refine hs.unprotect fun z hz _ ↦ ?_
  rw [hc.roots_eq, stack_internAll, List.take_left' (by rw [List.length_reverse, length_internAll]),
    List.mem_reverse] at hz
  rw [linksOf_of_get? (p.2.get?_alloc hpp hns)]
  exact List.mem_cons_of_mem _ hz

theorem Lasts.foldl_protect {α : Type} (f : α → Handle) (items : List α) (hx : h.Lasts [] x r) :
    (items.foldl (fun h item ↦ h.protect (f item)) h).Lasts [] x r := by
  induction items generalizing h with
  | nil => exact hx
  | cons item items ih => exact ih (hx.pending [f item]).protect

theorem Lasts.link (hx : h.Lasts [] x r) (hp : Proper h.arena)
    (hn : Numbered (link items h).2.arena) : (link items h).2.Lasts [] x r := by
  induction items with
  | nil => exact hx
  | cons item items ih =>
    obtain ⟨label, value⟩ := item
    rw [link_cons] at hn ⊢
    let p := Heap.link items h
    let q := p.2.installLabel label
    have hq := p.2.grows_installLabel label
    have hnq : Numbered q.2.arena := (q.2.continues_alloc .pairlist _ rfl).numbered hn
    have hpp : Proper p.2.arena := (h.continues_link items).evolves.proper hp
    have hp' := (ih (hq.toContinues.numbered hnq)).installLabel hpp hnq
    exact (hp'.alloc (hq.evolves.proper hpp) hn).protect

end Operations

end TaggedHeap.Heap
