import TaggedHeap.Proofs.Evolution

namespace TaggedHeap

namespace Arena

variable {a : Arena} {x y : Handle} {r : Record}

def Closed (a : Arena) : Prop :=
  ∀ x, ∀ y ∈ a.linksOf x, a.contains y = true

theorem Closed.of_get? (hc : Closed a) (hx : a.get? x = some r) (hy : y ∈ r.links) :
    a.contains y = true :=
  hc x y (linksOf_of_get? hx ▸ hy)

theorem Closed.empty (seed : UInt32) : Closed (empty seed) := by
  intro x y hy
  cases contains_of_mem_linksOf hy

theorem Closed.insert (hc : Closed a) (hl : ∀ y ∈ r.links, (a.insert r).2.contains y = true) :
    Closed (a.insert r).2 := by
  intro x y hy
  obtain ⟨q, hq⟩ := contains_iff.mp (contains_of_mem_linksOf hy)
  rw [linksOf_of_get? hq] at hy
  rcases get?_insert_cases hq with rfl | hq
  · exact hl y hy
  · exact contains_insert r (hc.of_get? hq hy)

theorem Closed.modify {f : Record → Record} (hc : Closed a)
    (hl : ∀ r, a.get? x = some r → ∀ y ∈ (f r).links, a.contains y = true) :
    Closed (a.modify x f) := by
  intro z y hy
  rw [contains_modify]
  obtain ⟨q, hq⟩ := contains_iff.mp (contains_of_mem_linksOf hy)
  rw [linksOf_of_get? hq] at hy
  rw [get?_modify] at hq
  split at hq
  · next hxz =>
    subst hxz
    obtain ⟨r, hr, rfl⟩ := Option.map_eq_some_iff.mp hq
    exact hl r hr y hy
  · exact hc.of_get? hq hy

theorem Closed.collect (hc : Closed a) (hu : Unmarked a) (roots : List Handle) :
    Closed (a.mark roots).2.sweep.2 := by
  intro x y hy
  have hx := (contains_collect_iff hu).mp (contains_of_mem_linksOf hy)
  rw [linksOf_collect hu hx] at hy
  exact (contains_collect_iff hu).mpr (.link hx hy (hc x y hy))

end Arena

namespace Heap

open Arena

variable {a b h : Heap} {x y : Handle} {k : Nat}

/-- A handle of a record that no collection frees for now. -/
def Held (h : Heap) (x : Handle) : Prop :=
  x ∈ h.rootHandles [] ∧ h.isLive x = true

theorem Held.continues (hx : a.Held x) (hc : Continues a k b) : b.Held x :=
  ⟨hc.mem_rootHandles hx.1, hc.live x hx.1 hx.2⟩

theorem held_protect (hx : h.isLive x = true) : (h.protect x).Held x :=
  ⟨h.mem_rootHandles_protect x, hx⟩

theorem Continues.numbered (hc : Continues a k b) (hb : Numbered b.arena) : Numbered a.arena :=
  hc.evolves.size_slots_le.trans hb

theorem Keeps.numbered (hk : Keeps a b) (hb : Numbered b.arena) : Numbered a.arena :=
  hk.evolves.size_slots_le.trans hb

theorem Concludes.numbered {α : Type} {o : Outcome α} (ho : Concludes h o)
    (hn : Numbered o.2.arena) : Numbered h.arena :=
  ho.evolves.size_slots_le.trans hn

/-- No link of a record is stale, and neither is any of the heap's own values. -/
structure Coherent (h : Heap) : Prop where
  proper : Proper h.arena
  core : ∀ x ∈ h.core, h.isLive x = true
  closed : Closed h.arena
  dimSymbol : h.dimSymbol ∈ h.core
  namesSymbol : h.namesSymbol ∈ h.core

theorem Coherent.held (hc : Coherent h) (hx : x ∈ h.core) : h.Held x :=
  ⟨mem_rootHandles_of_mem_core hx, hc.core x hx⟩

theorem nil_mem_core (h : Heap) : h.nil ∈ h.core :=
  List.mem_cons_self

theorem Coherent.isLive_nil (hc : Coherent h) : h.isLive h.nil = true :=
  hc.core _ h.nil_mem_core

theorem Coherent.of_get? {r : Record} (hc : Coherent h) (hx : h.arena.get? x = some r)
    (hy : y ∈ r.links) : h.isLive y = true :=
  hc.closed.of_get? hx hy

theorem Coherent.of_eq (hc : Coherent a) (ha : b.arena = a.arena) (hv : b.values = a.values)
    (hs : b.symbols = a.symbols) : Coherent b := by
  obtain ⟨hn, hm, hu, hd, he⟩ : b.nil = a.nil ∧ b.missingString = a.missingString ∧
      b.unbound = a.unbound ∧ b.dimSymbol = a.dimSymbol ∧ b.namesSymbol = a.namesSymbol := by
    simpa only [values, Prod.mk.injEq] using hv
  have hcore : b.core = a.core := by rw [Heap.core, Heap.core, hn, hm, hu, hs]
  have hlive : ∀ x, b.isLive x = a.isLive x := fun x ↦ by rw [isLive, isLive, ha]
  exact ⟨ha ▸ hc.proper, fun x hx ↦ hlive x ▸ hc.core x (hcore ▸ hx),
    ha ▸ hc.closed, hcore ▸ hd ▸ hc.dimSymbol,
    hcore ▸ he ▸ hc.namesSymbol⟩

theorem Coherent.protect (hc : Coherent h) (x : Handle) : Coherent (h.protect x) :=
  hc.of_eq rfl rfl rfl

theorem Coherent.unprotect (hc : Coherent h) (n : Nat) : Coherent (h.unprotect n) := by
  unfold Heap.unprotect
  split <;> exact hc.of_eq rfl rfl rfl

theorem Coherent.unprotectAfter {α : Type} (n : Nat) {o : Outcome α} (hc : Coherent o.2) :
    Coherent (unprotectAfter n o).2 := by
  unfold Heap.unprotectAfter
  split
  · exact hc
  · exact hc.unprotect n

theorem Coherent.collectWith (hc : Coherent h) (pending : List Handle) :
    Coherent (h.collectWith pending).2 where
  proper := Change.proper (.collect _) hc.proper
  core x hx := contains_collect_of_mem (mem_rootHandles_of_mem_core hx) (hc.core x hx)
  closed := hc.closed.collect hc.proper.unmarked _
  dimSymbol := hc.dimSymbol
  namesSymbol := hc.namesSymbol

theorem Coherent.settle (hc : Coherent h) (pending : List Handle) :
    Coherent (h.settle pending) := by
  unfold Heap.settle
  split
  · exact hc.collectWith pending
  · exact hc

theorem forall_mem_three {P : Handle → Prop} {x y z : Handle} (hx : P x) (hy : P y) (hz : P z) :
    ∀ w ∈ [x, y, z], P w := by
  intro w hw
  simp only [List.mem_cons, List.not_mem_nil, or_false] at hw
  rcases hw with rfl | rfl | rfl
  · exact hx
  · exact hy
  · exact hz

theorem Coherent.alloc {tag : TypeTag} {payload : Payload} (hc : Coherent h)
    (hf : payload.fits tag = true) (hl : ∀ y ∈ payload.children, h.isLive y = true) :
    Coherent (h.alloc tag payload).2 := by
  have hs := hc.settle payload.children
  have hnil : (h.settle payload.children).isLive h.nil = true := by
    rw [← h.nil_settle payload.children]
    exact hs.isLive_nil
  rw [alloc_eq]
  refine ⟨Change.proper (.insert rfl hf) hs.proper, fun x hx ↦ contains_insert _ (hs.core x hx),
    hs.closed.insert fun y hy ↦ contains_insert _ ?_, hs.dimSymbol, hs.namesSymbol⟩
  rcases List.mem_cons.mp hy with rfl | hy
  · exact hnil
  · exact isLive_settle_of_mem hy (hl y hy)

theorem isLive_alloc_self {tag : TypeTag} {payload : Payload} (hp : Proper h.arena)
    (hn : Numbered (h.alloc tag payload).2.arena) :
    (h.alloc tag payload).2.isLive (h.alloc tag payload).1 = true :=
  contains_of_get? (h.get?_alloc hp hn)

theorem Coherent.modify {f : Record → Record} (hc : Coherent h)
    (hf : ∀ r, h.arena.get? x = some r →
      (f r).marked = r.marked ∧ (r.WellFormed → (f r).WellFormed))
    (hl : ∀ r, h.arena.get? x = some r → ∀ y ∈ (f r).links, h.isLive y = true) :
    Coherent { h with arena := h.arena.modify x f } where
  proper := Change.proper (.rewrite hf) hc.proper
  core y hy := (contains_modify f).trans (hc.core y hy)
  closed := hc.closed.modify hl
  dimSymbol := hc.dimSymbol
  namesSymbol := hc.namesSymbol

theorem Coherent.rewrite {r r' : Record} (hc : Coherent h) (hx : h.arena.get? x = some r)
    (hm : r'.marked = r.marked) (hw : r.WellFormed → r'.WellFormed)
    (hl : ∀ y ∈ r'.links, h.isLive y = true) :
    Coherent { h with arena := h.arena.modify x fun _ ↦ r' } := by
  refine hc.modify (fun q hq ↦ ?_) fun _ _ ↦ hl
  rw [hx, Option.some_inj] at hq
  exact hq ▸ ⟨hm, hw⟩

theorem Coherent.intern (hc : Coherent h) (bytes : List UInt8) :
    Coherent (h.intern bytes).2 := by
  unfold Heap.intern
  split
  · exact hc
  · have ha : Coherent (h.alloc .char (.char bytes)).2 := hc.alloc rfl nofun
    exact ha.of_eq rfl rfl rfl

theorem isLive_intern (hp : Proper h.arena) (bytes : List UInt8)
    (hn : Numbered (h.intern bytes).2.arena) :
    (h.intern bytes).2.isLive (h.intern bytes).1 = true := by
  unfold intern at hn ⊢
  split
  · next x hx => exact (Option.filter_eq_some_iff.mp hx).2
  · next hx =>
    rw [hx] at hn
    exact isLive_alloc_self hp hn

theorem mem_core_addSymbol (h : Heap) (name : String) (x y : Handle) :
    y ∈ core { h with symbols := (name, x) :: h.symbols } ↔ y = x ∨ y ∈ h.core := by
  simp only [core, List.map_cons, List.mem_cons]
  tauto

theorem Coherent.addSymbol (hc : Coherent h) (name : String) (hx : h.isLive x = true) :
    Coherent { h with symbols := (name, x) :: h.symbols } where
  proper := hc.proper
  core y hy := by
    rcases (h.mem_core_addSymbol name x y).mp hy with rfl | hy
    · exact hx
    · exact hc.core y hy
  closed := hc.closed
  dimSymbol := (h.mem_core_addSymbol name x _).mpr (.inr hc.dimSymbol)
  namesSymbol := (h.mem_core_addSymbol name x _).mpr (.inr hc.namesSymbol)

theorem mem_core_install (h : Heap) (name : String) :
    (h.install name).1 ∈ (h.install name).2.core := by
  have hmem {h' : Heap} {x : Handle} (hx : x ∈ h'.symbols.map Prod.snd) : x ∈ h'.core := by
    simp only [core, List.mem_cons]
    exact .inr (.inr (.inr hx))
  unfold install
  split
  · next x hx =>
    obtain ⟨_, _, he, _⟩ := List.lookup_eq_some_iff.mp hx
    exact hmem (List.mem_map.mpr ⟨(name, x), by rw [he]; simp, rfl⟩)
  · exact hmem List.mem_cons_self

theorem Coherent.install (hc : Coherent h) (name : String)
    (hn : Numbered (h.install name).2.arena) : Coherent (h.install name).2 := by
  unfold Heap.install at hn ⊢
  split
  · exact hc
  · next hnone =>
    rw [hnone] at hn
    dsimp only at hn ⊢
    let p := h.internText name
    let q := p.2.protect p.1
    let s := q.alloc .symbol (.symbol p.1 q.unbound q.nil)
    have hs : Numbered s.2.arena := by rwa [arena_unprotect] at hn
    have hq : Numbered q.arena :=
      (q.continues_alloc .symbol (.symbol p.1 q.unbound q.nil) rfl).numbered hs
    have hcq : Coherent q := (hc.intern _).protect p.1
    have hprint : q.isLive p.1 = true := isLive_intern hc.proper _ hq
    have hunbound : q.isLive q.unbound = true := hcq.core _ (by simp [Heap.core])
    have hcs : Coherent s.2 := hcq.alloc rfl (forall_mem_three hprint hunbound hcq.isLive_nil)
    refine (hcs.unprotect 1).addSymbol name ?_
    rw [isLive, arena_unprotect]
    exact isLive_alloc_self hcq.proper hs

theorem Coherent.internAll (values : List (Option String)) (hc : Coherent h)
    (hn : Numbered (internAll values h).2.arena) :
    Coherent (internAll values h).2 ∧
      ∀ y ∈ (internAll values h).1, (internAll values h).2.Held y := by
  induction values generalizing h with
  | nil => exact ⟨hc, nofun⟩
  | cons value values ih =>
    cases value with
    | none =>
      have hx : h.isLive h.missingString = true := hc.core _ (by simp [Heap.core])
      obtain ⟨hall, hheld⟩ := ih (hc.protect h.missingString) hn
      exact ⟨hall, List.forall_mem_cons.mpr
        ⟨(held_protect hx).continues (continues_internAll _ values), hheld⟩⟩
    | some text =>
      let p := h.internText text
      have hr := (p.2.protect p.1).continues_internAll values
      have hx : p.2.isLive p.1 = true := isLive_intern hc.proper _ (hr.numbered hn)
      obtain ⟨hall, hheld⟩ := ih ((hc.intern _).protect p.1) hn
      exact ⟨hall, List.forall_mem_cons.mpr ⟨(held_protect hx).continues hr, hheld⟩⟩

theorem Coherent.newString (hc : Coherent h) (values : List (Option String))
    (hn : Numbered (h.newString values).2.arena) :
    Coherent (h.newString values).2 ∧ (h.newString values).2.isLive (h.newString values).1 := by
  let p := Heap.internAll values h
  let payload := Payload.strings p.1.toArray
  let q := p.2.alloc .string payload
  have hq : Numbered q.2.arena := by
    unfold Heap.newString at hn
    rwa [arena_unprotect] at hn
  have hpn := (p.2.continues_alloc .string payload rfl).numbered hq
  obtain ⟨hall, hheld⟩ := hc.internAll values hpn
  have hcq : Coherent q.2 := hall.alloc rfl fun y hy ↦ (hheld y hy).2
  refine ⟨hcq.unprotect _, ?_⟩
  change (q.2.unprotect _).isLive q.1 = true
  rw [isLive, arena_unprotect]
  exact isLive_alloc_self hall.proper hq

theorem Coherent.link (items : List (Option String × Handle)) (hc : Coherent h)
    (hv : ∀ item ∈ items, h.Held item.2) (hn : Numbered (link items h).2.arena) :
    Coherent (link items h).2 ∧ (link items h).2.Held (link items h).1 := by
  induction items with
  | nil => exact ⟨hc, hc.held h.nil_mem_core⟩
  | cons item items ih =>
    obtain ⟨name, value⟩ := item
    obtain ⟨hvalue, hitems⟩ := List.forall_mem_cons.mp hv
    have hvalue := hvalue.continues (h.continues_link items)
    let p := Heap.link items h
    -- With and without a name the cell is made alike; `q` is what stands for the name.
    have hcell (q : Handle × Heap) (hpq : Continues p.2 0 q.2) (hcq : Coherent q.2)
        (hq : q.2.Held q.1) (hp : p.2.Held p.1)
        (hn : Numbered (q.2.alloc .pairlist (.cell value p.1 q.1)).2.arena) :
        let x := q.2.alloc .pairlist (.cell value p.1 q.1)
        Coherent (x.2.protect x.1) ∧ (x.2.protect x.1).Held x.1 := by
      have hx : Coherent (q.2.alloc .pairlist (.cell value p.1 q.1)).2 :=
        hcq.alloc rfl (forall_mem_three (hvalue.continues hpq).2 (hp.continues hpq).2 hq.2)
      exact ⟨hx.protect _, held_protect (isLive_alloc_self hcq.proper hn)⟩
    cases name with
    | none =>
      obtain ⟨hcp, hp⟩ := ih hitems ((p.2.continues_alloc _ _ rfl).numbered hn)
      exact hcell (p.2.nil, p.2) (.refl _) hcp (hcp.held p.2.nil_mem_core) hp hn
    | some name =>
      let q := p.2.install name
      have hqn : Numbered q.2.arena := (q.2.continues_alloc _ _ rfl).numbered hn
      have hpq := p.2.continues_install name
      obtain ⟨hcp, hp⟩ := ih hitems (hpq.numbered hqn)
      have hcq := hcp.install name hqn
      exact hcell q hpq hcq (hcq.held (mem_core_install _ name)) hp hn

theorem held_foldl_protect {α : Type} (f : α → Handle) (items : List α) {i : α}
    (hi : i ∈ items) (hl : h.isLive (f i) = true) :
    (items.foldl (fun h item ↦ h.protect (f item)) h).Held (f i) := by
  induction items generalizing h with
  | nil => cases hi
  | cons item items ih =>
    rcases List.mem_cons.mp hi with rfl | hi
    · exact (held_protect hl).continues (continues_foldl_protect _ f items)
    · exact ih hi hl

theorem Coherent.foldl_protect {α : Type} (f : α → Handle) (items : List α) (hc : Coherent h) :
    Coherent (items.foldl (fun h item ↦ h.protect (f item)) h) := by
  induction items generalizing h with
  | nil => exact hc
  | cons item items ih => exact ih (hc.protect (f item))

theorem Coherent.pairlist (hc : Coherent h) (items : List (Option String × Handle))
    (hv : ∀ item ∈ items, h.isLive item.2 = true) (hn : Numbered (h.pairlist items).2.arena) :
    Coherent (h.pairlist items).2 := by
  unfold Heap.pairlist at hn
  rw [arena_unprotect] at hn
  have hl := (hc.foldl_protect Prod.snd items).link items
    (fun item hi ↦ held_foldl_protect Prod.snd items hi (hv item hi)) hn
  exact hl.1.unprotect _

theorem Coherent.setString (hc : Coherent h) (x : Handle) (offset : Nat) {value : Handle}
    (hv : h.isLive value = true) : Coherent (h.setString x offset value).2 := by
  rcases h.setString_cases x offset value with ⟨r, elements, hx, hp, he⟩ | ⟨failure, he⟩
  · rw [he]
    refine hc.rewrite hx rfl (fun hw ↦ ?_) fun y hy ↦ ?_
    · rw [Record.WellFormed, hp] at hw
      exact hw
    · rcases List.mem_cons.mp hy with rfl | hy
      · exact hc.of_get? hx List.mem_cons_self
      · rcases Payload.mem_toList_setIfInBounds hy with rfl | hy
        · exact hv
        · exact hc.of_get? hx (List.mem_cons_of_mem _ (by rw [hp]; exact hy))
  · rw [he]
    exact hc

theorem Coherent.setField (hc : Coherent h) (x : Handle) (f : Field) {value : Handle}
    (hv : h.isLive value = true) : Coherent (h.setField x f value).2 := by
  rcases h.setField_cases x f value with ⟨r, payload, hx, hp, he⟩ | ⟨failure, he⟩
  · rw [he]
    refine hc.rewrite hx rfl (Payload.fits_setField? hp r.tag).trans fun y hy ↦ ?_
    rcases List.mem_cons.mp hy with rfl | hy
    · exact hc.of_get? hx List.mem_cons_self
    · rcases Payload.mem_children_setField? hp hy with rfl | hy
      · exact hv
      · exact hc.of_get? hx (List.mem_cons_of_mem _ hy)
  · rw [he]
    exact hc

theorem Coherent.setAttributes (hc : Coherent h) (x : Handle) {attributes : Handle}
    (hv : h.isLive attributes = true) : Coherent (h.setAttributes x attributes).2 := by
  rcases h.setAttributes_cases x attributes with ⟨r, hx, he⟩ | ⟨failure, he⟩
  · rw [he]
    refine hc.rewrite hx rfl id fun y hy ↦ ?_
    rcases List.mem_cons.mp hy with rfl | hy
    · exact hv
    · exact hc.of_get? hx (List.mem_cons_of_mem _ hy)
  · rw [he]
    exact hc

theorem Coherent.force (hc : Coherent h) (x : Handle) {value : Handle}
    (hv : h.isLive value = true) : Coherent (h.force x value).2 := by
  have hf := hc.setField x .promiseValue hv
  unfold Heap.force
  split
  · next h' he =>
    rw [he] at hf
    exact hf.setField x .promiseEnvironment hf.isLive_nil
  · next he =>
    rw [he] at hf
    exact hf

theorem Coherent.hashedEnvironment (hc : Coherent h) {enclosing : Handle}
    (he : h.isLive enclosing = true) (buckets : Nat)
    (hn : Numbered (h.hashedEnvironment enclosing buckets).2.arena) :
    Coherent (h.hashedEnvironment enclosing buckets).2 := by
  unfold Heap.hashedEnvironment at hn ⊢
  dsimp only at hn ⊢
  have hp := hc.protect enclosing
  split
  · exact hp
  · next hlt =>
    rw [if_neg hlt, arena_unprotect] at hn
    let p := h.protect enclosing
    let slots := Array.replicate (max buckets 1) p.nil
    let t := p.alloc .list (.values slots)
    let q := t.2.protect t.1
    have hct : Coherent t.2 := hp.alloc rfl fun y hy ↦ by
      obtain rfl : y = p.nil := by
        simpa [Payload.children, slots] using hy
      exact hp.isLive_nil
    have hpt := p.continues_alloc .list (.values slots) rfl
    have hqn := (q.continues_alloc .environment (.environment q.nil enclosing t.1) rfl).numbered hn
    have henclosing : q.isLive enclosing = true := ((held_protect he).continues hpt).2
    have htable : q.isLive t.1 = true := isLive_alloc_self hp.proper hqn
    have hcq := hct.protect t.1
    have hce : Coherent (q.alloc .environment (.environment q.nil enclosing t.1)).2 :=
      hcq.alloc rfl (forall_mem_three hcq.isLive_nil henclosing htable)
    exact hce.unprotect 2

theorem Coherent.defineHashed (hc : Coherent h) (table : Handle) (name : String)
    {symbol value : Handle} (hs : h.isLive symbol = true) (hv : h.isLive value = true)
    (hn : Numbered (h.defineHashed table name symbol value).2.arena) :
    Coherent (h.defineHashed table name symbol value).2 := by
  unfold Heap.defineHashed at hn ⊢
  split
  · next buckets hb =>
    rw [hb] at hn
    dsimp only at hn ⊢
    split
    · next bucket hbucket =>
      rw [hbucket] at hn
      let y := h.alloc .pairlist (.cell value bucket symbol)
      obtain ⟨r, hr, hp⟩ := Option.map_eq_some_iff.mp hb
      have hmem : bucket ∈ r.payload.children := by
        rw [hp]
        exact Array.mem_toList_iff.mpr (Array.mem_of_getElem? hbucket)
      have hlive := hc.of_get? hr (List.mem_cons_of_mem _ hmem)
      have hcy : Coherent y.2 := hc.alloc rfl (forall_mem_three hv hlive hs)
      have hyn : Numbered y.2.arena := numbered_modify_iff.mp hn
      refine hcy.modify (fun q _ ↦ ⟨rfl, (Payload.fits_setValue _ _ _ _).trans⟩) fun q hq z hz ↦ ?_
      rcases List.mem_cons.mp hz with rfl | hz
      · exact hcy.of_get? hq List.mem_cons_self
      · rcases Payload.mem_children_setValue hz with rfl | hz
        · exact isLive_alloc_self hc.proper hyn
        · exact hcy.of_get? hq (List.mem_cons_of_mem _ hz)
    · exact hc
  · exact hc

theorem Coherent.defineProtected (hc : Coherent h) (x : Handle) (name : String) {value : Handle}
    (hv : h.Held value) (hn : Numbered (h.defineProtected x name value).2.arena) :
    Coherent (h.defineProtected x name value).2 := by
  let p := h.install name
  have hv := (hv.continues (h.continues_install name)).2
  have hs : Coherent p.2 → p.2.isLive p.1 = true := fun hcp ↦
    hcp.core _ (mem_core_install h name)
  unfold Heap.defineProtected at hn ⊢
  dsimp only at hn ⊢
  split
  · next hr =>
    rw [hr] at hn
    exact hc.install name hn
  · next r hr =>
    rw [hr] at hn
    dsimp only at hn
    split
    · next frame enclosing table hp =>
      rw [hp] at hn
      dsimp only at hn
      split
      · next ht =>
        rw [if_pos ht] at hn
        let payload := Payload.cell value frame p.1
        let y := p.2.alloc .pairlist payload
        have hyn := (y.2.concludes_setField x .frame y.1).numbered hn
        have hcp := hc.install name ((p.2.continues_alloc .pairlist payload rfl).numbered hyn)
        have hframe : p.2.isLive frame = true := by
          refine hcp.of_get? (get?_of_record hr) (List.mem_cons_of_mem _ ?_)
          rw [hp]
          exact List.mem_cons_self
        have hcy : Coherent y.2 := hcp.alloc rfl (forall_mem_three hv hframe (hs hcp))
        exact hcy.setField x .frame (isLive_alloc_self hcp.proper hyn)
      · next ht =>
        rw [if_neg ht] at hn
        have hcp := hc.install name ((p.2.concludes_defineHashed table name p.1 value).numbered hn)
        exact hcp.defineHashed table name (hs hcp) hv hn
    -- `hn` still has the match on the payload, which is no environment here.
    · next hne =>
      split at hn
      · next hp => exact absurd hp (hne _ _ _)
      · exact hc.install name hn

theorem Coherent.define (hc : Coherent h) {x : Handle} (name : String) {value : Handle}
    (hv : h.isLive value = true) (hn : Numbered (h.define x name value).2.arena) :
    Coherent (h.define x name value).2 := by
  rw [Heap.define, arena_unprotectAfter] at hn
  exact (Coherent.defineProtected ((hc.protect x).protect value) x name (held_protect hv)
    hn).unprotectAfter 2

theorem Coherent.setAttributeProtected (hc : Coherent h) (x : Handle) {name value : Handle}
    (hname : h.isLive name = true) (hv : h.isLive value = true)
    (hn : Numbered (h.setAttributeProtected x name value).2.arena) :
    Coherent (h.setAttributeProtected x name value).2 := by
  unfold Heap.setAttributeProtected at hn ⊢
  split
  · exact hc
  · next r hr =>
    rw [hr] at hn
    dsimp only at hn
    split
    · exact hc.setField _ _ hv
    · exact hc
    · exact hc
    · next last hlast =>
      rw [hlast] at hn
      dsimp only at hn ⊢
      let payload := Payload.cell value h.nil name
      let y := h.alloc .pairlist payload
      have hcy : Coherent y.2 := hc.alloc rfl (forall_mem_three hv hc.isLive_nil hname)
      split
      · next ht =>
        rw [if_pos ht] at hn
        have hyn := (y.2.concludes_setAttributes x y.1).numbered hn
        exact hcy.setAttributes x (isLive_alloc_self hc.proper hyn)
      · next ht =>
        rw [if_neg ht] at hn
        have hyn := (y.2.concludes_setField last .tail y.1).numbered hn
        exact hcy.setField last .tail (isLive_alloc_self hc.proper hyn)

theorem Coherent.setAttribute (hc : Coherent h) (x : Handle) {name value : Handle}
    (hname : h.isLive name = true) (hv : h.isLive value = true)
    (hn : Numbered (h.setAttribute x name value).2.arena) :
    Coherent (h.setAttribute x name value).2 := by
  rw [Heap.setAttribute, arena_unprotectAfter] at hn
  exact (Coherent.setAttributeProtected ((hc.protect x).protect value) x hname hv
    hn).unprotectAfter 2

theorem Coherent.setDimensions (hc : Coherent h) (x : Handle) (nrow ncol : Nat)
    (hn : Numbered (h.setDimensions x nrow ncol).2.arena) :
    Coherent (h.setDimensions x nrow ncol).2 := by
  unfold Heap.setDimensions at hn ⊢
  split
  · exact hc
  · next r hr =>
    rw [hr] at hn
    dsimp only at hn
    split
    · exact hc
    · next length hlen =>
      rw [hlen] at hn
      dsimp only at hn
      split
      · exact hc
      · next hdefect =>
        rw [hdefect] at hn
        dsimp only at hn ⊢
        rw [arena_unprotectAfter] at hn
        let dim := h.newInteger [Int32.ofNat nrow, Int32.ofNat ncol]
        let q := dim.2.protect dim.1
        have hqn := (q.concludes_setAttribute x dim.2.dimSymbol dim.1).numbered hn
        have hcd : Coherent dim.2 := hc.alloc rfl nofun
        have hcq := hcd.protect dim.1
        exact (hcq.setAttribute x (hcq.core _ hcq.dimSymbol) (isLive_alloc_self hc.proper hqn)
          hn).unprotectAfter 1

theorem Coherent.setNames (hc : Coherent h) (x : Handle) (names : List String)
    (hn : Numbered (h.setNames x names).2.arena) : Coherent (h.setNames x names).2 := by
  let vector := h.newString (names.map some)
  let q := vector.2.protect vector.1
  unfold Heap.setNames at hn ⊢
  rw [arena_unprotectAfter] at hn
  have hqn := (q.concludes_setAttribute x vector.2.namesSymbol vector.1).numbered hn
  obtain ⟨hcv, hv⟩ := hc.newString (names.map some) hqn
  have hcq := hcv.protect vector.1
  exact (hcq.setAttribute x (hcq.core _ hcq.namesSymbol) hv hn).unprotectAfter 1

end Heap

end TaggedHeap
