import TaggedHeap.Proofs.Coherence

namespace TaggedHeap

/-- The handles that an update is going to link, and those of the records that it changes. -/
def Update.operands : Update → List Handle
  | newList elements | newExpression elements => elements
  | setString x _ value | setField x _ value | define x _ value | force x value => [x, value]
  | cons head tail | call head tail => [head, tail]
  | pairlist items => items.map Prod.snd
  | closure formals body env => [formals, body, env]
  | environment enclosing | hashedEnvironment enclosing _ => [enclosing]
  | promise expression env => [expression, env]
  | setAttributes x attributes => [x, attributes]
  | setAttribute x name value => [x, name, value]
  | setDimensions x _ _ | setNames x _ => [x]
  | _ => []

def Request.operands : Request → List Handle
  | query _ => []
  | update u => u.operands

namespace Heap

open Arena

variable {h : Heap} {x y : Handle}

/-- The heaps that arise from new ones by allowed requests, by guards, and by reporting and reading
the journal. -/
inductive Made (allowed : Heap → Request → Prop) : Heap → Prop
  | create (ordinal threshold : Nat) : Made allowed (create ordinal threshold)
  | run {h : Heap} (r : Request) : Made allowed h → allowed h r → Made allowed (r.run h).2
  | take {h : Heap} (x : Handle) : Made allowed h → Made allowed (h.take x)
  | letGo {h : Heap} (x : Handle) : Made allowed h → Made allowed (h.letGo x)
  | report {h : Heap} (e : Event) : Made allowed h → Made allowed (h.report e)
  | drain {h : Heap} : Made allowed h → Made allowed h.drain.2

abbrev Arises : Heap → Prop :=
  Made fun _ _ ↦ True

/-- The heaps of programs that have a record for every operand of a request. -/
abbrev Careful : Heap → Prop :=
  Made fun h r ↦ ∀ x ∈ r.operands, h.isLive x = true

theorem Arises.runAll (ha : Arises h) (program : List Request) :
    Arises (Request.runAll h program) := by
  induction program generalizing h with
  | nil => exact ha
  | cons r program ih => exact ih (ha.run r trivial)

theorem numbered_of_size_le {a : Arena} (ha : a.slots.size ≤ 8) : Numbered a :=
  ha.trans (by decide)

theorem coherent_bare (seed : UInt32) : Coherent (bare seed) := by
  let a := Arena.empty seed
  let r := Record.new .null a.firstHandle .null
  let q := Record.new .char a.firstHandle (.char (Text.Utf8.encode missingText))
  have ha : Accounted a := .empty seed
  have hsize : ((a.insert r).2.insert q).2.slots.size = 2 := rfl
  have hr : (a.insert r).2.contains a.firstHandle = true :=
    contains_of_get? (ha.get?_insert r (numbered_of_size_le (Nat.le_of_ble_eq_true rfl)))
  have hq : ((a.insert r).2.insert q).2.contains ((a.insert r).2.insert q).1 = true :=
    contains_of_get? ((ha.insert r).get?_insert q (numbered_of_size_le (Nat.le_of_ble_eq_true rfl)))
  have hnil : ((a.insert r).2.insert q).2.contains a.firstHandle = true := contains_insert q hr
  have hp : Proper ((a.insert r).2.insert q).2 :=
    Change.proper (.insert rfl rfl) (Change.proper (.insert rfl rfl) (.empty seed))
  have hclosed : Closed (a.insert r).2 := (Closed.empty seed).insert fun y hy ↦ by
    rw [List.mem_singleton.mp hy]
    exact hr
  refine ⟨hp, fun x hx ↦ ?_, hclosed.insert fun y hy ↦ ?_, List.mem_cons_self, List.mem_cons_self⟩
  · simp only [core, bare, List.map_nil, List.mem_cons, List.not_mem_nil, or_false] at hx
    rcases hx with rfl | rfl | rfl
    · exact hnil
    · exact hq
    · exact hnil
  · rw [List.mem_singleton.mp hy]
    exact hnil

theorem size_slots_intern_le (h : Heap) (bytes : List UInt8) :
    (h.intern bytes).2.arena.slots.size ≤ h.arena.slots.size + 1 := by
  unfold intern
  split
  · exact Nat.le_succ _
  · exact h.size_slots_alloc_le _ _

theorem size_slots_install_le (h : Heap) (name : String) :
    (h.install name).2.arena.slots.size ≤ h.arena.slots.size + 2 := by
  unfold install
  split
  · exact Nat.le_add_right _ 2
  · dsimp only
    rw [arena_unprotect]
    have hi := h.size_slots_intern_le (Text.Utf8.encode name)
    have hs := ((h.internText name).2.protect (h.internText name).1).size_slots_alloc_le .symbol
      (.symbol (h.internText name).1 (h.internText name).2.unbound (h.internText name).2.nil)
    exact hs.trans (Nat.add_le_add_right hi 1)

theorem Coherent.withUnbound (hc : Coherent h) (hx : h.isLive x = true)
    (hd : h.dimSymbol = h.nil) (hn : h.namesSymbol = h.nil) :
    Coherent { h with unbound := x } where
  proper := hc.proper
  core y hy := by
    simp only [Heap.core, List.mem_cons] at hy
    rcases hy with rfl | rfl | rfl | hy
    · exact hc.isLive_nil
    · exact hc.core _ (by simp [Heap.core])
    · exact hx
    · exact hc.core _ (by simp only [Heap.core, List.mem_cons]; tauto)
  closed := hc.closed
  dimSymbol := hd ▸ List.mem_cons_self
  namesSymbol := hn ▸ List.mem_cons_self

theorem coherent_addUnbound (seed : UInt32) :
    Coherent (bare seed).addUnbound ∧ (bare seed).addUnbound.arena.slots.size ≤ 4 := by
  let p := (bare seed).internText ""
  let x := p.2.alloc .symbol (.symbol p.1 p.2.nil p.2.nil)
  have hps : p.2.arena.slots.size ≤ 3 := (bare seed).size_slots_intern_le _
  have hxs : x.2.arena.slots.size ≤ 4 := (p.2.size_slots_alloc_le _ _).trans (by omega)
  have hp : Coherent p.2 := (coherent_bare seed).intern _
  have hprint : p.2.isLive p.1 = true :=
    isLive_intern (coherent_bare seed).proper _ (numbered_of_size_le (hps.trans (by decide)))
  have hxn : Numbered x.2.arena := numbered_of_size_le (hxs.trans (by decide))
  have hx : x.2.isLive x.1 = true := isLive_alloc_self hp.proper hxn
  have hcx : Coherent x.2 := hp.alloc rfl (forall_mem_three hprint hp.isLive_nil hp.isLive_nil)
  let f := fun r : Record ↦ { r with payload := .symbol p.1 x.1 x.2.nil }
  have hm : Coherent { x.2 with arena := x.2.arena.modify x.1 f } := by
    refine hcx.modify (fun r hr ↦ ⟨rfl, fun _ ↦ ?_⟩) fun r hr y hy ↦ ?_
    · have hnew := hr.symm.trans (p.2.get?_alloc hp.proper hxn)
      rw [Option.some.inj hnew]
      rfl
    · have hprint : x.2.isLive p.1 = true := isLive_alloc_of_mem List.mem_cons_self hprint
      have hchildren : ∀ y ∈ [p.1, x.1, x.2.nil], x.2.isLive y = true :=
        forall_mem_three hprint hx hcx.isLive_nil
      rcases List.mem_cons.mp hy with rfl | hy
      · exact hcx.of_get? hr List.mem_cons_self
      · exact hchildren y hy
  have hv : x.2.values = (bare seed).values :=
    (((bare seed).continues_internText "").trans (p.2.continues_alloc .symbol _ rfl)).values
  have hd : x.2.values.2.2.2 = (x.2.values.1, x.2.values.1) := by
    rw [hv]
    rfl
  refine ⟨hm.withUnbound ?_ (congrArg Prod.fst hd) (congrArg Prod.snd hd), ?_⟩
  · exact (contains_modify f).trans hx
  · exact (size_slots_modify f).trans_le hxs

theorem coherent_create (ordinal threshold : Nat) : Coherent (create ordinal threshold) := by
  obtain ⟨hh, hsize⟩ := coherent_addUnbound (seedOf ordinal)
  unfold create
  generalize (bare (seedOf ordinal)).addUnbound = h at hh hsize ⊢
  let p := h.install "dim"
  let q := p.2.install "names"
  have hps : p.2.arena.slots.size ≤ 6 := (h.size_slots_install_le _).trans (by omega)
  have hqs : q.2.arena.slots.size ≤ 8 := (p.2.size_slots_install_le _).trans (by omega)
  have hp := hh.install "dim" (numbered_of_size_le (hps.trans (by decide)))
  have hq := hp.install "names" (numbered_of_size_le hqs)
  exact ⟨hq.proper, hq.core, hq.closed,
    (p.2.continues_install "names").keeps.mem_core (mem_core_install h "dim"),
    mem_core_install p.2 "names"⟩

variable {allowed : Heap → Request → Prop}

theorem Made.proper (hm : Made allowed h) : Proper h.arena := by
  induction hm with
  | create ordinal threshold => exact (coherent_create ordinal threshold).proper
  | run r _ _ ih => exact (r.keeps _).evolves.proper ih
  | take _ _ ih => exact ih
  | letGo x _ ih => exact (keeps_release _ x).evolves.proper ih
  | report _ _ ih => exact ih
  | drain _ ih => exact ih

theorem Keeps.isLive_nil {h' : Heap} (hk : Keeps h h') (hn : h.isLive h.nil = true) :
    h'.isLive h'.nil = true :=
  hk.nil ▸ hk.live _ h.nil_mem_core hn

theorem Made.isLive_nil (hm : Made allowed h) : h.isLive h.nil = true := by
  induction hm with
  | create ordinal threshold => exact (coherent_create ordinal threshold).isLive_nil
  | run r _ _ ih => exact (r.keeps _).isLive_nil ih
  | take _ _ ih => exact ih
  | letGo x _ ih => exact (keeps_release _ x).isLive_nil ih
  | report _ _ ih => exact ih
  | drain _ ih => exact ih

theorem Coherent.unprotectHandle (hc : Coherent h) (x : Handle) :
    Coherent (h.unprotectHandle x) := by
  unfold Heap.unprotectHandle
  split <;> exact hc.of_eq rfl rfl rfl

theorem Coherent.release (hc : Coherent h) (x : Handle) : Coherent (h.release x) := by
  unfold Heap.release
  split <;> exact hc.of_eq rfl rfl rfl

theorem Coherent.update (hc : Coherent h) (u : Update)
    (hu : ∀ x ∈ u.operands, h.isLive x = true) (hn : Numbered (u.run h).2.arena) :
    Coherent (u.run h).2 := by
  cases u with
  | intern bytes => exact hc.intern bytes
  | internText text => exact hc.intern _
  | install name => exact hc.install name hn
  | newLogical _ | newRawLogical _ | newInteger _ | newReal _ => exact hc.alloc rfl nofun
  | newString values => exact (hc.newString values hn).1
  | newList _ | newExpression _ => exact hc.alloc rfl hu
  | closure _ _ _ => exact hc.alloc rfl hu
  | cons _ _ | call _ _ | environment _ =>
    have hnil := hc.isLive_nil
    exact hc.alloc rfl (by simp_all [Update.operands, Payload.children])
  | promise _ _ =>
    have hunbound : h.isLive h.unbound = true := hc.core _ (by simp [Heap.core])
    exact hc.alloc rfl (by simp_all [Update.operands, Payload.children])
  | setString x offset value => exact hc.setString x offset (hu value (by simp [Update.operands]))
  | pairlist items => exact hc.pairlist items (fun i hi ↦ hu i.2 (List.mem_map_of_mem hi)) hn
  | setField x f value => exact hc.setField x f (hu value (by simp [Update.operands]))
  | hashedEnvironment enclosing buckets =>
    exact hc.hashedEnvironment (hu enclosing (by simp [Update.operands])) buckets hn
  | define x name value => exact hc.define name (hu value (by simp [Update.operands])) hn
  | force x value => exact hc.force x (hu value (by simp [Update.operands]))
  | primitive tag offset =>
    cases tag with
    | special | builtin =>
      have hf : (Payload.primitive offset).children = [] := rfl
      exact hc.alloc rfl (by simp [hf])
    | _ => exact hc
  | setAttributes x attributes =>
    exact hc.setAttributes x (hu attributes (by simp [Update.operands]))
  | setAttribute x name value =>
    exact hc.setAttribute x (hu name (by simp [Update.operands]))
      (hu value (by simp [Update.operands])) hn
  | setDimensions x nrow ncol => exact hc.setDimensions x nrow ncol hn
  | setNames x names => exact hc.setNames x names hn
  | protect _ | preserve _ | setThreshold _ => exact hc.of_eq rfl rfl rfl
  | unprotect n => exact hc.unprotect n
  | unprotectHandle x => exact hc.unprotectHandle x
  | release x => exact hc.release x
  | collect => exact hc.collectWith []

theorem Careful.coherent (hm : Careful h) (hn : Numbered h.arena) : Coherent h := by
  induction hm with
  | create ordinal threshold => exact coherent_create ordinal threshold
  | run r hm hr ih =>
    have hc := ih ((r.keeps _).numbered hn)
    cases r with
    | query q =>
      rcases q.run_cases _ with he | ⟨e, he⟩
      · exact he.symm ▸ hc
      · exact he.symm ▸ hc.of_eq rfl rfl rfl
    | update u => exact hc.update u hr hn
  | take _ _ ih => exact (ih hn).of_eq rfl rfl rfl
  | letGo x _ ih =>
    have hc := ih ((keeps_release _ x).numbered hn)
    exact (hc.release x).of_eq rfl rfl rfl
  | report _ _ ih => exact (ih hn).of_eq rfl rfl rfl
  | drain _ ih => exact (ih hn).of_eq rfl rfl rfl

/-- Every handle in every record of a careful program's heap has a record. The slots must not
outnumber the 32 bits that a handle has for them: beyond that a new record is stored where its
handle does not find it. -/
theorem Careful.isLive_links (hm : Careful h) (hn : Numbered h.arena) :
    All (fun r ↦ h.isLive r.attributes = true ∧ ∀ y ∈ r.payload.children, h.isLive y = true)
      h.arena := by
  have hc := (hm.coherent hn).closed
  refine hn.all fun x r hx ↦ ⟨?_, fun y hy ↦ ?_⟩
  · exact hc.of_get? hx List.mem_cons_self
  · exact hc.of_get? hx (List.mem_cons_of_mem _ hy)

theorem isLive_links_of_cons :
    let h := ((create 0 1).cons (create 0 1).nil (create 0 1).nil).2
    Careful h ∧ Numbered h.arena ∧
      All (fun r ↦ h.isLive r.attributes = true ∧ ∀ y ∈ r.payload.children, h.isLive y = true)
        h.arena := by
  have hc : Careful ((create 0 1).cons (create 0 1).nil (create 0 1).nil).2 :=
    .run (.update (.cons (create 0 1).nil (create 0 1).nil)) (.create 0 1) (by decide)
  have hn : Numbered ((create 0 1).cons (create 0 1).nil (create 0 1).nil).2.arena :=
    Nat.le_of_ble_eq_true rfl
  exact ⟨hc, hn, Careful.isLive_links hc hn⟩

end Heap

end TaggedHeap
