import TaggedHeap.Proofs.Collection

namespace TaggedHeap

/-- The handle that the slot of a handle is issued with after that handle is freed. -/
def Handle.next (x : Handle) : Handle :=
  ⟨x.slot, x.generation + 1⟩

namespace Heap

open Arena

variable {h : Heap} {x y : Handle} {pending : List Handle} {tag : TypeTag} {payload : Payload}

theorem isLive_settle_iff (hp : Proper h.arena) (hl : h.isLive x = true) :
    (h.settle pending).isLive x = true ↔ (h.isDue = true → h.Reach pending x) := by
  unfold settle
  split
  · next hd =>
    rw [reach_iff hp.wellFormed]
    exact (contains_collect_iff hp.unmarked).trans ⟨fun hr _ ↦ hr, fun hr ↦ hr hd⟩
  · next hd => exact iff_of_true hl fun hd' ↦ absurd hd' hd

/-- The value is freed, and its slot is empty or holds a record that no collection frees. -/
def Gone (h : Heap) (x : Handle) : Prop :=
  ∃ s, h.arena.slots[x.slot.toNat]? = some s ∧ s.generation = x.generation + 1 ∧
    (s.record = none ∨ x.next ∈ h.rootHandles [])

theorem Gone.not_isLive (hg : Gone h x) : ¬ h.isLive x = true := by
  obtain ⟨s, hs, hgen, _⟩ := hg
  intro hl
  obtain ⟨r, hr⟩ := get?_of_isLive hl
  obtain ⟨t, ht, htg, _⟩ := get?_eq_some_iff.mp hr
  rw [hs, Option.some_inj] at ht
  subst ht
  have hne : x.generation + 1 ≠ x.generation := by simp
  exact hne (hgen.symm.trans htg)

theorem Gone.protect (hg : Gone h x) (y : Handle) : Gone (h.protect y) x := by
  obtain ⟨s, hs, hgen, hr⟩ := hg
  exact ⟨s, hs, hgen, hr.imp_right (h.continues_protect y).mem_rootHandles⟩

theorem gone_settle (hp : Proper h.arena) (hl : h.isLive x = true) (hd : h.isDue = true)
    (hx : ¬ h.Reach pending x) : Gone (h.settle pending) x := by
  rw [reach_iff hp.wellFormed] at hx
  obtain ⟨r, hr⟩ := get?_of_isLive hl
  obtain ⟨s, hs, hgen, hrec⟩ := get?_eq_some_iff.mp hr
  have hm := marking_mark h.arena (h.rootHandles pending)
  obtain ⟨t, ht, htg, htr⟩ := hm.getElem?_slots hs
  rw [hrec, Option.isSome_some] at htr
  obtain ⟨q, hq⟩ := Option.isSome_iff_exists.mp htr
  have hunmarked : q.marked = false := by
    rw [← Bool.not_eq_true]
    intro hmarked
    refine hx ((hm.isMarked_iff hp.unmarked).mp ⟨q, ?_, hmarked⟩)
    exact get?_eq_some_iff.mpr ⟨t, ht, htg.trans hgen, hq⟩
  refine ⟨⟨t.generation + 1, none⟩, ?_, by rw [htg, hgen], .inl rfl⟩
  unfold Heap.settle
  rw [if_pos hd]
  have hsweep := getElem?_slots_sweep (a := (h.arena.mark (h.rootHandles pending)).2) x.slot.toNat
  rw [ht, Option.map_some, Slot.sweep, hq] at hsweep
  simp only [hunmarked, Bool.false_eq_true, if_false] at hsweep
  exact hsweep

theorem Gone.settle (hg : Gone h x) (pending : List Handle) : Gone (h.settle pending) x := by
  obtain ⟨s, hs, hgen, hr⟩ := hg
  have hroot := fun hx ↦ (h.continues_settle pending).mem_rootHandles (x := x.next) hx
  cases hrec : s.record with
  | none =>
    unfold Heap.settle
    split
    · have hm := marking_mark h.arena (h.rootHandles pending)
      obtain ⟨t, ht, htg, htr⟩ := hm.getElem?_slots hs
      rw [hrec, Option.isSome_none, Option.isSome_eq_false_iff, Option.isNone_iff_eq_none] at htr
      have hsweep := getElem?_slots_sweep (a := (h.arena.mark (h.rootHandles pending)).2)
        x.slot.toNat
      rw [ht, Option.map_some, Slot.sweep, htr] at hsweep
      exact ⟨t, hsweep, htg.trans hgen, .inl htr⟩
    · exact ⟨s, hs, hgen, .inl hrec⟩
  | some r =>
    -- The record that came into the slot is a root, so it stays there.
    have hmem : x.next ∈ h.rootHandles [] := hr.resolve_left (by simp [hrec])
    have hlive : h.isLive x.next = true :=
      contains_of_get? (get?_eq_some_iff.mpr ⟨s, hs, hgen, hrec⟩)
    obtain ⟨q, hq⟩ := get?_of_isLive ((h.continues_settle pending).live _ hmem hlive)
    obtain ⟨t, ht, htg, _⟩ := get?_eq_some_iff.mp hq
    exact ⟨t, ht, htg, .inr (hroot hmem)⟩

/-- A new record may come into the emptied slot. Its handle is not the one that was freed. -/
theorem gone_alloc (hg : Gone (h.settle payload.children) x) :
    Gone ((h.alloc tag payload).2.protect (h.alloc tag payload).1) x := by
  obtain ⟨s, hs, hgen, hr⟩ := hg
  rw [alloc_eq]
  generalize h.settle payload.children = g at hs hr ⊢
  generalize Record.new tag h.nil payload = r
  let g' : Heap := { g with arena := (g.arena.insert r).2, allocations := g.allocations + 1 }
  have hroot : x.next ∈ g.rootHandles [] →
      x.next ∈ (g'.protect (g.arena.insert r).1).rootHandles [] :=
    fun hx ↦ (continues_protect g' _).mem_rootHandles hx
  suffices hslot : ∃ t, (g.arena.insert r).2.slots[x.slot.toNat]? = some t ∧
      t.generation = x.generation + 1 ∧
      (t.record = none ∨ x.next ∈ g.rootHandles [] ∨ x.next = (g.arena.insert r).1) by
    obtain ⟨t, ht, htg, htr⟩ := hslot
    refine ⟨t, ht, htg, htr.imp_right ?_⟩
    rintro (hx | hx)
    · exact hroot hx
    · rw [hx]
      exact g'.mem_rootHandles_protect _
  unfold Arena.insert
  split
  -- The record comes into a slot of its own, or into a free one, which may be the emptied one.
  · refine ⟨s, ?_, hgen, hr.imp_right .inl⟩
    have hlt := (Array.getElem?_eq_some_iff.mp hs).1
    rw [Array.getElem?_push, if_neg (Nat.ne_of_lt hlt)]
    exact hs
  · next i rest _ =>
    by_cases hi : i = x.slot
    · subst hi
      refine ⟨{ s with record := some r }, ?_, hgen, .inr (.inr ?_)⟩
      · rw [Array.getElem?_modify, if_pos rfl, hs]
        rfl
      · rw [hs, Option.map_some, Option.getD_some, hgen]
        rfl
    · refine ⟨s, ?_, hgen, hr.imp_right .inl⟩
      rw [Array.getElem?_modify, if_neg fun he ↦ hi (UInt32.toNat_inj.mp he)]
      exact hs

theorem Gone.alloc_protect (hg : Gone h x) :
    Gone ((h.alloc tag payload).2.protect (h.alloc tag payload).1) x :=
  gone_alloc (hg.settle payload.children)

theorem Gone.intern_protect (hg : Gone h x) (bytes : List UInt8) :
    Gone ((h.intern bytes).2.protect (h.intern bytes).1) x := by
  unfold intern
  split
  · exact hg.protect _
  · have ha : Gone ((h.alloc .char (.char bytes)).2.protect (h.alloc .char (.char bytes)).1) x :=
      hg.alloc_protect
    exact ha

theorem Gone.internAll (values : List (Option String)) (hg : Gone h x) :
    Gone (internAll values h).2 x := by
  induction values generalizing h with
  | nil => exact hg
  | cons value values ih =>
    cases value with
    | none => exact ih (hg.protect h.missingString)
    | some text => exact ih (hg.intern_protect (Text.Utf8.encode text))

theorem isLive_alloc_iff (hp : Proper h.arena) (hl : h.isLive x = true) :
    (h.alloc tag payload).2.isLive x = true ↔
      (h.isDue = true → h.Reach payload.children x) := by
  constructor
  · intro ha hd
    by_contra hx
    exact (gone_alloc (gone_settle hp hl hd hx)).not_isLive ha
  · intro hs
    rw [alloc_eq]
    exact contains_insert _ ((isLive_settle_iff hp hl).mpr hs)

theorem gone_of_alloc (hp : Proper h.arena) (hl : h.isLive x = true)
    (hn : ¬ (h.alloc tag payload).2.isLive x = true) :
    Gone ((h.alloc tag payload).2.protect (h.alloc tag payload).1) x := by
  rw [isLive_alloc_iff hp hl, Classical.not_imp] at hn
  exact gone_alloc (gone_settle hp hl hn.1 hn.2)

/-- The next allocation spares a value that nothing is going to link: no collection is due, or the
roots lead to the value. -/
def SparesNext (h : Heap) (x : Handle) : Prop :=
  h.isDue = true → h.Reach [] x

/-- All allocations for a string vector with the given elements spare a value. Text that is
already interned takes none; every piece of text is protected while the others follow. -/
def SparesAll (x : Handle) : List String → Heap → Prop
  | [], h => h.SparesNext x
  | text :: texts, h =>
    ((h.chars.lookup (Text.Utf8.encode text)).filter h.isLive = none → h.SparesNext x) ∧
      SparesAll x texts ((h.internText text).2.protect (h.internText text).1)

theorem reach_of_subset (hs : pending ⊆ h.rootHandles []) :
    h.Reach pending x ↔ h.Reach [] x := by
  constructor
  · intro hx
    induction hx with
    | root hx hl =>
      have hx := mem_rootHandles.mpr hx
      rw [rootHandles_eq, List.mem_append] at hx
      exact .root (mem_rootHandles.mp (hx.elim id (hs ·))) hl
    | read _ hy hl ih => exact .read ih hy hl
  · intro hx
    induction hx with
    | root hx hl => exact .root (by simp only [List.not_mem_nil, or_false] at hx; tauto) hl
    | read _ hy hl ih => exact .read ih hy hl

theorem mem_rootHandles_internAll (values : List (Option String)) (h : Heap) :
    (internAll values h).1 ⊆ (internAll values h).2.rootHandles [] := by
  induction values generalizing h with
  | nil => exact List.nil_subset _
  | cons value values ih =>
    cases value with
    | none =>
      refine List.cons_subset.mpr ⟨?_, ih (h.protect h.missingString)⟩
      exact (continues_internAll _ values).mem_rootHandles (h.mem_rootHandles_protect _)
    | some text =>
      let p := h.internText text
      refine List.cons_subset.mpr ⟨?_, ih (p.2.protect p.1)⟩
      exact (continues_internAll _ values).mem_rootHandles (p.2.mem_rootHandles_protect _)

theorem isLive_intern_iff (hp : Proper h.arena) (hl : h.isLive x = true) (bytes : List UInt8) :
    (h.intern bytes).2.isLive x = true ↔
      ((h.chars.lookup bytes).filter h.isLive = none → h.SparesNext x) := by
  unfold intern
  split
  · next y hy => exact iff_of_true hl fun hn ↦ absurd (hy.symm.trans hn) (by simp)
  · next hn =>
    have ha : (h.alloc .char (.char bytes)).2.isLive x = true ↔ h.SparesNext x :=
      isLive_alloc_iff hp hl
    exact ha.trans ⟨fun hs _ ↦ hs, fun hs ↦ hs hn⟩

theorem gone_of_intern (hp : Proper h.arena) (hl : h.isLive x = true) {bytes : List UInt8}
    (hn : ¬ (h.intern bytes).2.isLive x = true) :
    Gone ((h.intern bytes).2.protect (h.intern bytes).1) x := by
  unfold intern at hn ⊢
  split at hn
  · exact absurd hl hn
  · have ha : ¬ (h.alloc .char (.char bytes)).2.isLive x = true := hn
    exact gone_of_alloc hp hl ha

/-- Making a string vector frees exactly what some allocation on the way does not spare. The
elements are protected by then, so they lead to nothing new. -/
theorem isLive_string_iff (texts : List String) (hp : Proper h.arena) (hl : h.isLive x = true)
    {elements : List Handle}
    (he : elements ⊆ (internAll (texts.map some) h).2.rootHandles []) :
    ((internAll (texts.map some) h).2.alloc .string (.strings elements.toArray)).2.isLive x = true ↔
      SparesAll x texts h := by
  induction texts generalizing h with
  | nil =>
    refine (isLive_alloc_iff hp hl).trans ?_
    exact imp_congr_right fun _ ↦ reach_of_subset he
  | cons text texts ih =>
    let p := h.internText text
    let q := p.2.protect p.1
    have hi := isLive_intern_iff hp hl (Text.Utf8.encode text)
    by_cases hlp : q.isLive x = true
    · have hpq : Proper q.arena := (h.continues_internText text).evolves.proper hp
      exact (ih hpq hlp he).trans (and_iff_right (hi.mp hlp)).symm
    · refine iff_of_false (fun ha ↦ ?_) fun hs ↦ hlp (hi.mpr hs.1)
      have hg : Gone q x := gone_of_intern hp hl hlp
      exact (hg.internAll (texts.map some)).alloc_protect.not_isLive ha

theorem isLive_newString_iff (texts : List String) (hp : Proper h.arena) (hl : h.isLive x = true) :
    (h.newString (texts.map some)).2.isLive x = true ↔ SparesAll x texts h := by
  rw [← isLive_string_iff texts hp hl (mem_rootHandles_internAll _ h)]
  unfold newString
  rw [isLive, arena_unprotect, isLive]

/-- No attribute has been set on the record that the handle finds, if it finds one. -/
def Plain (h : Heap) (x : Handle) : Prop :=
  ∀ r, h.arena.get? x = some r → r.attributes = h.nil

theorem Plain.settle (hx : Plain h x) (hp : Proper h.arena) (pending : List Handle) :
    Plain (h.settle pending) x := by
  intro r hr
  rw [nil_settle]
  unfold Heap.settle at hr
  split at hr
  · have hreach := (contains_collect_iff hp.unmarked).mp (contains_of_get? hr)
    exact hx r ((get?_collect_of_reach hp.unmarked hreach).symm.trans hr)
  · exact hx r hr

theorem Plain.alloc (hx : Plain h x) (hp : Proper h.arena) (tag : TypeTag) (payload : Payload) :
    Plain (h.alloc tag payload).2 x := by
  have hs := hx.settle hp payload.children
  rw [alloc_eq]
  intro r hr
  rcases get?_insert_cases hr with rfl | hr
  · exact (h.nil_settle payload.children).symm
  · exact hs r hr

theorem Plain.intern (hx : Plain h x) (hp : Proper h.arena) (bytes : List UInt8) :
    Plain (h.intern bytes).2 x := by
  unfold Heap.intern
  split
  · exact hx
  · exact hx.alloc hp .char (.char bytes)

theorem Plain.internAll (texts : List String) (hx : Plain h x) (hp : Proper h.arena) :
    Plain (internAll (texts.map some) h).2 x := by
  induction texts generalizing h with
  | nil => exact hx
  | cons text texts ih =>
    let p := h.internText text
    have hq : Plain (p.2.protect p.1) x := hx.intern hp _
    exact ih hq ((h.continues_internText text).evolves.proper hp)

theorem Plain.unprotect (hx : Plain h x) (n : Nat) : Plain (h.unprotect n) x := by
  unfold Heap.unprotect
  split
  · exact hx
  · exact hx

theorem Plain.newString (hx : Plain h x) (hp : Proper h.arena) (texts : List String) :
    Plain (h.newString (texts.map some)).2 x := by
  let p := Heap.internAll (texts.map some) h
  have hpp := (h.continues_internAll (texts.map some)).evolves.proper hp
  exact Plain.unprotect ((hx.internAll texts hp).alloc hpp .string (.strings p.1.toArray)) _

theorem setAttribute_of_not_isLive (hx : ¬ h.isLive x = true) (name value : Handle) :
    (h.setAttribute x name value).1 = .error (.stale x) ∧
      (h.setAttribute x name value).2.arena = h.arena := by
  have hr : ((h.protect x).protect value).record x = .error (.stale x) := record_of_not_isLive hx
  have he : ((h.protect x).protect value).setAttributeProtected x name value =
      (.error (.stale x), (h.protect x).protect value) := by
    rw [setAttributeProtected, hr]
  rw [setAttribute, he, fst_unprotectAfter, arena_unprotectAfter]
  exact ⟨rfl, rfl⟩

theorem setAttributes_of_isLive (hl : h.isLive x = true) (attributes : Handle) :
    (h.setAttributes x attributes).1 = .ok () := by
  obtain ⟨r, hr⟩ := get?_of_isLive hl
  rw [setAttributes, update, record_of_get? hr]
  rfl

theorem setAttribute_of_plain (hl : h.isLive x = true) (hx : Plain h x) (name value : Handle) :
    (h.setAttribute x name value).1 = .ok () := by
  let q := (h.protect x).protect value
  let payload := Payload.cell value q.nil name
  let y := q.alloc .pairlist payload
  obtain ⟨r, hr⟩ := get?_of_isLive hl
  have hc := q.continues_alloc .pairlist payload rfl
  have hroot : x ∈ q.rootHandles [] := h.mem_rootHandles_protect_protect x value
  have hsearch : q.search name r.attributes = .absent q.nil := by
    rw [search, hx r hr]
    exact if_pos rfl
  have hset : (y.2.setAttributes x y.1).1 = .ok () :=
    setAttributes_of_isLive (hc.live x hroot hl) y.1
  have he : q.setAttributeProtected x name value = y.2.setAttributes x y.1 := by
    rw [setAttributeProtected, record_of_get? (show q.arena.get? x = some r from hr)]
    dsimp only
    rw [hsearch]
    exact if_pos hc.nil.symm
  rw [setAttribute, fst_unprotectAfter, he]
  exact hset

theorem isLive_setAttributeProtected_name {name : Handle} (hl : h.isLive name = true)
    (x value : Handle) : (h.setAttributeProtected x name value).2.isLive name = true := by
  unfold setAttributeProtected
  split
  · exact hl
  · split
    · exact (h.isLive_setField _ _ _).trans hl
    · exact hl
    · exact hl
    · have ha : (h.alloc .pairlist (.cell value h.nil name)).2.isLive name = true :=
        isLive_alloc_of_mem (by simp [Payload.children]) hl
      dsimp only
      split
      · exact (isLive_setAttributes _ _ _).trans ha
      · exact (isLive_setField _ _ _ _).trans ha

theorem isLive_setAttribute {name value : Handle} (hl : h.isLive y = true)
    (hy : y = x ∨ y = name ∨ y = value) : (h.setAttribute x name value).2.isLive y = true := by
  let q := (h.protect x).protect value
  have hc := q.concludes_setAttributeProtected x name value
  rw [setAttribute, isLive_unprotectAfter]
  rcases hy with rfl | rfl | rfl
  · exact hc.isLive (h.mem_rootHandles_protect_protect y value) hl
  · exact isLive_setAttributeProtected_name (h := q) hl x value
  · exact hc.isLive (mem_rootHandles_protect _ y) hl

theorem attach_spec (n : Nat) (name value : Handle) :
    ((unprotectAfter n (h.setAttribute x name value)).2.isLive x = true ↔ h.isLive x = true) ∧
      (¬ h.isLive x = true →
        (unprotectAfter n (h.setAttribute x name value)).1 = .error (.stale x)) ∧
      (h.isLive x = true → Plain h x →
        (unprotectAfter n (h.setAttribute x name value)).1 = .ok ()) := by
  rw [isLive_unprotectAfter, fst_unprotectAfter]
  by_cases hl : h.isLive x = true
  · exact ⟨iff_of_true (isLive_setAttribute hl (.inl rfl)) hl, fun hn ↦ absurd hl hn,
      fun _ hx ↦ setAttribute_of_plain hl hx name value⟩
  · obtain ⟨he, ha⟩ := setAttribute_of_not_isLive hl name value
    rw [isLive, ha]
    exact ⟨Iff.rfl, fun _ ↦ he, fun hl' ↦ absurd hl' hl⟩

theorem setNames_spec (hp : Proper h.arena) (hl : h.isLive x = true) (names : List String) :
    ((h.setNames x names).2.isLive x = true ↔ SparesAll x names h) ∧
      (¬ SparesAll x names h → (h.setNames x names).1 = .error (.stale x)) ∧
      (SparesAll x names h → Plain h x → (h.setNames x names).1 = .ok ()) := by
  let v := h.newString (names.map some)
  let q := v.2.protect v.1
  have hs : q.isLive x = true ↔ SparesAll x names h := isLive_newString_iff names hp hl
  obtain ⟨hlive, hstale, hok⟩ := attach_spec (h := q) (x := x) 1 q.namesSymbol v.1
  exact ⟨hlive.trans hs, fun hn ↦ hstale fun hq ↦ hn (hs.mp hq),
    fun hq hx ↦ hok (hs.mpr hq) (hx.newString hp names)⟩

def SparesExtents (h : Heap) (x : Handle) (nrow ncol : Nat) : Prop :=
  ∀ length, h.vectorLength x = .ok length → dimensionDefect? length nrow ncol = none →
    h.SparesNext x

theorem setDimensions_spec (hp : Proper h.arena) (hl : h.isLive x = true) (nrow ncol : Nat) :
    ((h.setDimensions x nrow ncol).2.isLive x = true ↔ h.SparesExtents x nrow ncol) ∧
      (¬ h.SparesExtents x nrow ncol → (h.setDimensions x nrow ncol).1 = .error (.stale x)) ∧
      (h.SparesExtents x nrow ncol → Plain h x →
        (h.setDimensions x nrow ncol).1 ≠ .error (.stale x)) := by
  obtain ⟨r, hr⟩ := get?_of_isLive hl
  have hlength := vectorLength_of_get? hr (hp.wellFormed.get? hr)
  unfold setDimensions
  rw [record_of_get? hr]
  dsimp only
  split
  · next hnone =>
    have hs : h.SparesExtents x nrow ncol := fun length hlen ↦ by
      rw [hlength, hnone] at hlen
      cases hlen
    exact ⟨iff_of_true hl hs, fun hn ↦ absurd hs hn, fun _ _ ↦ nofun⟩
  · next length hsome =>
    rw [hsome] at hlength
    split
    · next defect hdefect =>
      have hs : h.SparesExtents x nrow ncol := fun n hlen hn ↦ by
        rw [hlength] at hlen
        cases hlen
        rw [hdefect] at hn
        cases hn
      exact ⟨iff_of_true hl hs, fun hn ↦ absurd hs hn, fun _ _ ↦ nofun⟩
    · next hdefect =>
      let dim := h.newInteger [Int32.ofNat nrow, Int32.ofNat ncol]
      let q := dim.2.protect dim.1
      have hs : q.isLive x = true ↔ h.SparesExtents x nrow ncol := by
        refine (isLive_alloc_iff hp hl).trans ⟨fun hd _ _ _ ↦ hd, fun hd ↦ ?_⟩
        exact hd length hlength hdefect
      obtain ⟨hlive, hstale, hok⟩ := attach_spec (h := q) (x := x) 1 q.dimSymbol dim.1
      refine ⟨hlive.trans hs, fun hn ↦ hstale fun hq ↦ hn (hs.mp hq), fun hq hx he ↦ ?_⟩
      have hx : Plain q x := hx.alloc hp _ _
      cases (hok (hs.mpr hq) hx).symm.trans he

end Heap

/-- Whether an update leaves a value its record. The two that label a vector do so if every
collection on their way finds the vector. -/
def Update.Spares (h : Heap) (x : Handle) : Update → Prop
  | setDimensions _ nrow ncol => h.SparesExtents x nrow ncol
  | setNames _ names => Heap.SparesAll x names h
  | _ => True

def Update.labels? : Update → Option Handle
  | setDimensions x _ _ | setNames x _ => some x
  | _ => none

namespace Heap

open Arena

variable {h : Heap} {x : Handle}

theorem isLive_force (hl : h.isLive x = true) (y value : Handle) :
    (h.force y value).2.isLive x = true := by
  have hf := (h.isLive_setField y .promiseValue value (y := x)).trans hl
  unfold force
  split
  · next h' he =>
    rw [he] at hf
    exact (h'.isLive_setField _ _ _).trans hf
  · next he =>
    rw [he] at hf
    exact hf

theorem isLive_pairlist (items : List (Option String × Handle)) {item : Option String × Handle}
    (hi : item ∈ items) (hl : h.isLive item.2 = true) :
    (h.pairlist items).2.isLive item.2 = true := by
  have hheld := (held_foldl_protect Prod.snd items hi hl).continues (continues_link _ items)
  unfold pairlist
  rw [isLive, arena_unprotect]
  exact hheld.2

theorem isLive_hashedEnvironment (hl : h.isLive x = true) (buckets : Nat) :
    (h.hashedEnvironment x buckets).2.isLive x = true := by
  unfold hashedEnvironment
  dsimp only
  split
  · exact hl
  · let p := h.protect x
    let slots := Array.replicate (max buckets 1) p.nil
    have ht := (held_protect hl).continues (p.continues_alloc .list (.values slots) rfl)
    rw [isLive, arena_unprotect]
    exact isLive_alloc_of_mem (by simp [Payload.children]) ht.2

theorem isLive_define {y : Handle} (hl : h.isLive y = true) {value : Handle} (name : String)
    (hy : y = x ∨ y = value) : (h.define x name value).2.isLive y = true := by
  have hc := ((h.protect x).protect value).concludes_defineProtected x name value
  rw [define, isLive_unprotectAfter]
  rcases hy with rfl | rfl
  · exact hc.isLive (h.mem_rootHandles_protect_protect y value) hl
  · exact hc.isLive (mem_rootHandles_protect _ y) hl

theorem isLive_run_iff (hp : Proper h.arena) {u : Update} (hx : x ∈ u.operands)
    (hl : h.isLive x = true) : (u.run h).2.isLive x = true ↔ u.Spares h x := by
  cases u with
  | setDimensions y nrow ncol =>
    obtain rfl := List.mem_singleton.mp hx
    exact (setDimensions_spec hp hl nrow ncol).1
  | setNames y names =>
    obtain rfl := List.mem_singleton.mp hx
    exact (setNames_spec hp hl names).1
  | newList _ | newExpression _ | closure _ _ _ =>
    exact iff_of_true (isLive_alloc_of_mem hx hl) trivial
  | cons _ _ | call _ _ =>
    exact iff_of_true (isLive_alloc_of_mem (List.mem_append_left [h.nil] hx) hl) trivial
  | environment enclosing =>
    exact iff_of_true (isLive_alloc_of_mem
      (List.mem_cons_of_mem h.nil (List.mem_append_left [h.nil] hx)) hl) trivial
  | promise _ _ =>
    exact iff_of_true (isLive_alloc_of_mem (List.mem_cons_of_mem h.unbound hx) hl) trivial
  | setString y offset value =>
    exact iff_of_true ((h.isLive_setString y offset value).trans hl) trivial
  | pairlist items =>
    obtain ⟨item, hi, rfl⟩ := List.mem_map.mp hx
    exact iff_of_true (isLive_pairlist items hi hl) trivial
  | setField y f value => exact iff_of_true ((h.isLive_setField y f value).trans hl) trivial
  | hashedEnvironment enclosing buckets =>
    obtain rfl := List.mem_singleton.mp hx
    exact iff_of_true (isLive_hashedEnvironment hl buckets) trivial
  | define y name value =>
    exact iff_of_true (isLive_define hl name (by simpa [Update.operands] using hx)) trivial
  | force y value => exact iff_of_true (isLive_force hl y value) trivial
  | setAttributes y attributes =>
    exact iff_of_true ((h.isLive_setAttributes y attributes).trans hl) trivial
  | setAttribute y name value =>
    exact iff_of_true (isLive_setAttribute hl (by simpa [Update.operands] using hx)) trivial
  | _ => cases hx

/-- An operand keeps its record if and only if the update spares it. If not, the update fails with
the name of the operand, and a vector without attributes makes it fail so in no other case. -/
theorem Arises.operand_spared_iff (ha : Arises h) {u : Update} (hx : x ∈ u.operands)
    (hl : h.isLive x = true) :
    ((u.run h).2.isLive x = true ↔ u.Spares h x) ∧
      (¬ u.Spares h x → (u.run h).1 = .error (.stale x)) ∧
      (u.labels? = some x → Plain h x →
        ((u.run h).1 = .error (.stale x) ↔ ¬ u.Spares h x)) := by
  have hp := ha.proper
  refine ⟨isLive_run_iff hp hx hl, ?_⟩
  cases u with
  | setDimensions y nrow ncol =>
    obtain rfl := List.mem_singleton.mp hx
    obtain ⟨_, hstale, hok⟩ := setDimensions_spec hp hl nrow ncol
    have hstale := fun hn ↦ map_of_error (hstale hn) fun _ ↦ Datum.absent
    exact ⟨hstale, fun _ hx ↦ ⟨fun he hs ↦ hok hs hx (eq_error_of_map he), hstale⟩⟩
  | setNames y names =>
    obtain rfl := List.mem_singleton.mp hx
    obtain ⟨_, hstale, hok⟩ := setNames_spec hp hl names
    have hstale := fun hn ↦ map_of_error (hstale hn) fun _ ↦ Datum.absent
    refine ⟨hstale, fun _ hx ↦ ⟨fun he hs ↦ ?_, hstale⟩⟩
    cases (hok hs hx).symm.trans (eq_error_of_map he)
  | _ => exact ⟨fun hn ↦ absurd trivial hn, nofun⟩

/-- A new vector is an operand that is not spared when its extents are set under a threshold of
one: it is freed, and the update fails with its name. -/
theorem operand_spared_iff_of_newInteger :
    let p := (create 0 1).newInteger [1, 2, 3, 4]
    let u := Update.setDimensions p.1 2 2
    Arises p.2 ∧ p.1 ∈ u.operands ∧ p.2.isLive p.1 = true ∧
      ((u.run p.2).2.isLive p.1 = true ↔ u.Spares p.2 p.1) ∧
      (¬ u.Spares p.2 p.1 → (u.run p.2).1 = .error (.stale p.1)) ∧
      (u.labels? = some p.1 → Plain p.2 p.1 →
        ((u.run p.2).1 = .error (.stale p.1) ↔ ¬ u.Spares p.2 p.1)) := by
  have ha : Arises ((create 0 1).newInteger [1, 2, 3, 4]).2 :=
    .run (.update (.newInteger [1, 2, 3, 4])) (.create 0 1) trivial
  have hx := List.mem_singleton_self ((create 0 1).newInteger [1, 2, 3, 4]).1
  exact ⟨ha, hx, by decide, Arises.operand_spared_iff ha
    (u := .setDimensions ((create 0 1).newInteger [1, 2, 3, 4]).1 2 2) hx (by decide)⟩

theorem setDimensions_frees_operand :
    let p := (create 0 1).newInteger [1, 2, 3, 4]
    p.2.isLive p.1 = true ∧ (p.2.setDimensions p.1 2 2).2.isLive p.1 = false ∧
      (p.2.setDimensions p.1 2 2).1 = .error (.stale p.1) := by
  decide

end Heap

end TaggedHeap
