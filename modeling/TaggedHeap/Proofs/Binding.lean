import TaggedHeap.Proofs.Assigning
import TaggedHeap.Proofs.Defining
import TaggedHeap.Proofs.Guarding
import TaggedHeap.Proofs.Symbols

namespace TaggedHeap

namespace Payload

def strands : Payload → List Handle
  | environment frame _ table => [frame, table]
  | values elements => elements.toList
  | cell _ tail _ => [tail]
  | _ => []

theorem strands_subset (p : Payload) : p.strands ⊆ p.children := by
  cases p with
  | environment _ _ _ | cell _ _ _ => simp [strands, children]
  | values elements => exact List.Subset.refl _
  | _ => exact List.nil_subset _

end Payload

namespace Heap

open Arena

variable {g h : Heap} {x y z c : Handle} {p q : Payload} {log : List (String × Handle)} {k n : Nat}

def Holds (h : Heap) (x : Handle) (p : Payload) : Prop :=
  ∃ r, h.arena.get? x = some r ∧ r.payload = p

theorem Holds.isLive (hx : h.Holds x p) : h.isLive x = true := by
  obtain ⟨r, hr, -⟩ := hx
  exact contains_of_get? hr

theorem Holds.eq (hp : h.Holds x p) (hq : h.Holds x q) : q = p := by
  obtain ⟨r, hr, rfl⟩ := hp
  obtain ⟨r', hr', rfl⟩ := hq
  cases hr.symm.trans hr'
  rfl

theorem Holds.congr (hx : h.Holds x p) (he : g.arena.get? x = h.arena.get? x) : g.Holds x p := by
  rwa [Holds, he]

theorem exists_holds (hx : h.isLive x = true) : ∃ p, h.Holds x p := by
  obtain ⟨r, hr⟩ := get?_of_isLive hx
  exact ⟨r.payload, r, hr, rfl⟩

theorem Holds.modify {f : Record → Record} (hx : h.Holds x p) (hne : x ≠ y) :
    Holds { h with arena := h.arena.modify y f } x p :=
  hx.congr (by rw [get?_modify, if_neg (Ne.symm hne)])

/-- The second value is the first one or something that its bindings hang on. -/
inductive PartOf (h : Heap) : Handle → Handle → Prop
  | refl (x : Handle) : PartOf h x x
  | strand {x y z : Handle} {p : Payload} :
      h.Holds x p → y ∈ p.strands → PartOf h y z → PartOf h x z

theorem PartOf.isLive (hz : h.PartOf x z) (hl : h.isLive z = true) : h.isLive x = true := by
  cases hz with
  | refl => exact hl
  | strand hx _ _ => exact hx.isLive

theorem PartOf.rooted (hz : h.PartOf x z) (hx : h.Rooted [] x) (hl : h.isLive z = true) :
    h.Rooted [] z := by
  induction hz with
  | refl => exact hx
  | strand hp hy hz ih =>
    obtain ⟨r, hr, rfl⟩ := hp
    refine ih (.link hx ?_ (hz.isLive hl)) hl
    rw [linksOf_of_get? hr]
    exact List.mem_cons_of_mem _ (Payload.strands_subset _ hy)

/-- A chain of cells with the symbols of names and with values, which ends with `nil`. -/
inductive Chain (h : Heap) : Handle → List (String × Handle) → Prop
  | nil : Chain h h.nil []
  | cons {cell symbol value tail : Handle} {name : String} {log : List (String × Handle)} :
      cell ≠ h.nil → h.Holds cell (.cell value tail symbol) → (name, symbol) ∈ h.symbols →
      Chain h tail log → Chain h cell ((name, value) :: log)

theorem Chain.keep (hc : h.Chain c log) (hg : Keeps h g)
    (hk : ∀ z head tail tag, h.PartOf c z → h.Holds z (.cell head tail tag) →
      g.Holds z (.cell head tail tag)) : g.Chain c log := by
  induction hc with
  | nil => exact hg.nil ▸ .nil
  | @cons cell symbol value tail name log hne hcell hs _ ih =>
    refine .cons (hg.nil ▸ hne) (hk cell _ _ _ (.refl cell) hcell) (hg.symbols.subset hs) ?_
    exact ih fun z _ _ _ hz ↦ hk z _ _ _ (.strand hcell List.mem_cons_self hz)

/-- The environment has the definitions in its frame, from the latest to the earliest. -/
def FrameStores (h : Heap) (x : Handle) (log : List (String × Handle)) : Prop :=
  ∃ frame enclosing, h.Holds x (.environment frame enclosing h.nil) ∧ h.Chain frame log

/-- The environment has the definitions in so many buckets of its table, those with the same bucket
from the latest to the earliest. -/
def TableStores (h : Heap) (x : Handle) (size : Nat) (log : List (String × Handle)) : Prop :=
  ∃ table enclosing, table ≠ h.nil ∧ h.Holds x (.environment h.nil enclosing table) ∧
    ∃ buckets, h.Holds table (.values buckets) ∧ buckets.size = size ∧
      ∀ i c, buckets[i]? = some c → h.Chain c (log.filter fun d ↦ bucketOf d.1 size = i)

theorem FrameStores.keep (hs : h.FrameStores x log) (hg : Keeps h g)
    (hk : ∀ z p, h.PartOf x z → (∀ elements, p ≠ .values elements) → h.Holds z p →
      g.Holds z p) : g.FrameStores x log := by
  obtain ⟨frame, enclosing, hx, hc⟩ := hs
  refine ⟨frame, enclosing, hg.nil ▸ hk x _ (.refl x) nofun hx, hc.keep hg fun z _ _ _ hz ↦ ?_⟩
  exact hk z _ (.strand hx List.mem_cons_self hz) nofun

theorem TableStores.keep (hs : h.TableStores x n log) (hg : Keeps h g)
    (hk : ∀ z p, h.PartOf x z → (∀ frame enclosing, p ≠ .environment frame enclosing h.nil) →
      h.Holds z p → g.Holds z p) : g.TableStores x n log := by
  obtain ⟨table, enclosing, hne, hx, buckets, ht, hsize, hc⟩ := hs
  have htable : h.PartOf x table := .strand hx (by simp [Payload.strands]) (.refl table)
  refine ⟨table, enclosing, hg.nil ▸ hne, hg.nil ▸ hk x _ (.refl x) ?_ hx, buckets,
    hk table _ htable nofun ht, hsize, fun i c hi ↦ (hc i c hi).keep hg fun z _ _ _ hz ↦ ?_⟩
  -- The environment itself has a table, so it is none of those that have a frame.
  · rintro frame enclosing' he
    cases he
    exact hne rfl
  · have hbucket : c ∈ buckets.toList := Array.mem_toList_iff.mpr (Array.mem_of_getElem? hi)
    exact hk z _ (.strand hx (by simp [Payload.strands]) (.strand ht hbucket hz)) nofun

/-- Nobody has written to the parts of a value. -/
def Spares (h g : Heap) (x : Handle) : Prop :=
  ∀ z p q, h.PartOf x z → h.Holds z p → g.Holds z q → q = p

theorem spares_of_eq (ha : g.arena = h.arena) : Spares h g x := fun _ _ _ _ hh hh' ↦
  hh.eq (hh'.congr (by rw [ha]))

theorem Grows.holds (hg : Grows h k g) (hp : Proper h.arena) (hn : Numbered g.arena)
    (hz : h.Rooted [] z) (hh : h.Holds z p) : g.Holds z p :=
  hh.congr (hg.get?_eq hp hn z hz)

theorem Grows.spares (hg : Grows h k g) (hp : Proper h.arena) (hn : Numbered g.arena)
    (hx : h.Rooted [] x) : Spares h g x := fun _ _ _ hz hh hh' ↦
  (hg.holds hp hn (hz.rooted hx hh.isLive) hh).eq hh'

end Heap

theorem Action.arena_eq_or_course (a : Action) (h : Heap) :
    (a.run h).2.arena = h.arena ∨ Heap.Course h (a.run h).2 := by
  have hrelease (x : Handle) : (h.release x).arena = h.arena := by
    unfold Heap.release
    split <;> rfl
  cases a with
  | request r =>
    cases r with
    | query q => exact .inl (Custody.preserved_query q h).2
    | update u =>
      by_cases hu : u.Ordinary
      · exact .inr (u.course h hu)
      · cases u with
        | preserve x => exact .inl rfl
        | release x => exact .inl (hrelease x)
        | _ => exact absurd trivial hu
  | letGo x => exact .inl (hrelease x)
  | take _ | report _ | drain => exact .inl rfl

namespace Heap

open Arena

variable {g h : Heap} {x z host last table symbol value frame enclosing : Handle} {p : Payload}
  {buckets : Array Handle} {name : String} {k : Nat}

theorem Spares.holds {a : Action} (hs : Spares h (a.run h).2 x) (hp : Proper h.arena)
    (hn : Numbered (a.run h).2.arena) (hx : (a.run h).2.arena ≠ h.arena → h.Rooted [] x)
    (hz : h.PartOf x z) (hh : h.Holds z p) : (a.run h).2.Holds z p := by
  by_cases ha : (a.run h).2.arena = h.arena
  · exact hh.congr (by rw [ha])
  -- The part has not been freed, and the record that it still has is the old one.
  · have hc := (a.arena_eq_or_course h).resolve_left ha
    obtain ⟨q, hq⟩ := exists_holds (hc.isLive_of_reach hp hn (hz.rooted (hx ha) hh.isLive))
    rwa [hs z p q hz hh hq] at hq

/-- A definition has put a new cell in front of an older one and has stored it in the host. What the
roots lead to is the same otherwise. -/
structure Prepends (h : Heap) (host last : Handle) (p : Handle → Payload) (name : String)
    (value : Handle) (o : Outcome Unit) : Prop where
  answer : o.1 = .ok ()
  cell : ∃ cell symbol, cell ≠ h.nil ∧ (name, symbol) ∈ o.2.symbols ∧
    o.2.Holds cell (.cell value last symbol) ∧ o.2.Holds host (p cell)
  holds : ∀ z q, z ≠ host → h.Rooted [] z → h.Holds z q → o.2.Holds z q

theorem prepends_modify (hp : Proper h.arena) (hnil : h.isLive h.nil = true)
    (hs : (name, symbol) ∈ h.symbols) (hhost : h.Rooted [] host) {a : Handle × Heap}
    (ha : h.alloc .pairlist (.cell value last symbol) = a) (hn : Numbered a.2.arena)
    {p : Handle → Payload} {f : Record → Record}
    (hf : ∀ r, h.arena.get? host = some r → (f r).payload = p a.1) :
    Prepends h host last p name value
      (.ok (), { a.2 with arena := a.2.arena.modify host f }) := by
  subst ha
  let a := h.alloc .pairlist (.cell value last symbol)
  -- The new cell is none of the records that were there, so it is not the host.
  have hfresh {z : Handle} (hz : h.isLive z = true) : a.1 ≠ z := fun he ↦
    not_isLive_alloc hp hn (he ▸ hz)
  have hnew : a.2.Holds a.1 (.cell value last symbol) := ⟨_, h.get?_alloc hp hn, rfl⟩
  have hget : a.2.arena.get? host = h.arena.get? host := get?_alloc_of_reach hp hn hhost
  obtain ⟨r, hr⟩ := get?_of_isLive hhost.isLive
  refine ⟨rfl, ⟨a.1, symbol, hfresh hnil, ?_, hnew.modify (hfresh hhost.isLive), f r, ?_, hf r hr⟩,
    fun z q hne hz hq ↦ ?_⟩
  · exact (h.symbols_alloc .pairlist (.cell value last symbol)).symm ▸ hs
  · rw [get?_modify, if_pos rfl, hget, hr, Option.map_some]
  · exact (hq.congr (get?_alloc_of_reach hp hn hz)).modify hne

theorem prepends_setFrame (hp : Proper h.arena) (hnil : h.isLive h.nil = true)
    (hs : (name, symbol) ∈ h.symbols) (hroot : x ∈ h.rootHandles [])
    (hx : h.Holds x (.environment frame enclosing table)) {a : Handle × Heap}
    (ha : h.alloc .pairlist (.cell value frame symbol) = a)
    (hn : Numbered (a.2.setField x .frame a.1).2.arena) :
    Prepends h x frame (fun cell ↦ .environment cell enclosing table) name value
      (a.2.setField x .frame a.1) := by
  subst ha
  let a := h.alloc .pairlist (.cell value frame symbol)
  have hna : Numbered a.2.arena := (rewrites_setField _ _ _ _).course.numbered hn
  obtain ⟨r, hr, hpay⟩ := hx
  have hreach : h.Rooted [] x := .root hroot (contains_of_get? hr)
  have hok : (a.2.setField x .frame a.1).1 = .ok () := setFrame_of_alloc hp hroot hr hpay hna a.1
  rcases a.2.setField_cases x .frame a.1 with ⟨r', payload, hr', hset, he⟩ | ⟨failure, he⟩
  · rw [he]
    obtain rfl : r' = r := Option.some.inj
      (hr'.symm.trans ((get?_alloc_of_reach hp hna hreach).trans hr))
    rw [hpay] at hset
    exact prepends_modify hp hnil hs hreach rfl hna fun _ _ ↦ (Option.some.inj hset).symm
  · rw [he] at hok
    cases hok

theorem prepends_defineHashed (hp : Proper h.arena) (hnil : h.isLive h.nil = true)
    (hs : (name, symbol) ∈ h.symbols) (ht : h.Holds table (.values buckets))
    (hreach : h.Rooted [] table) (hlast : buckets[bucketOf name buckets.size]? = some last)
    (hn : Numbered (h.defineHashed table name symbol value).2.arena) :
    Prepends h table last
      (fun cell ↦ .values (buckets.setIfInBounds (bucketOf name buckets.size) cell)) name value
      (h.defineHashed table name symbol value) := by
  let i := bucketOf name buckets.size
  let a := h.alloc .pairlist (.cell value last symbol)
  let m : Heap := { a.2 with
    arena := a.2.arena.modify table fun r ↦ { r with payload := r.payload.setValue i a.1 } }
  obtain ⟨r, hr, hpay⟩ := ht
  have ho : h.defineHashed table name symbol value = (.ok (), m) := by
    simp only [defineHashed, hr, Option.map_some, hpay]
    rw [hlast]
  rw [ho] at hn ⊢
  refine prepends_modify hp hnil hs hreach rfl (numbered_modify_iff.mp hn) fun r' hr' ↦ ?_
  obtain rfl := Option.some.inj (hr'.symm.trans hr)
  rw [hpay]
  rfl

theorem symbols_unprotectAfter {α : Type} (n : Nat) (o : Outcome α) :
    (unprotectAfter n o).2.symbols = o.2.symbols := by
  unfold unprotectAfter
  split
  · rfl
  · exact symbols_unprotect _ n

theorem Prepends.after {o : Outcome Unit} {f : Handle → Payload} (hg : Grows h k g)
    (hp : Proper h.arena) (hn : Numbered g.arena) (ho : Prepends g host last f name value o) :
    Prepends h host last f name value o := by
  obtain ⟨cell, symbol, hne, hs, hcell, hhost⟩ := ho.cell
  exact ⟨ho.answer, ⟨cell, symbol, hg.toContinues.nil ▸ hne, hs, hcell, hhost⟩,
    fun z p hne hz hh ↦ ho.holds z p hne (hg.reach hp hn hz) (hg.holds hp hn hz hh)⟩

theorem Prepends.unprotectAfter {o : Outcome Unit} {f : Handle → Payload}
    (ho : Prepends h host last f name value o) (n : Nat) :
    Prepends h host last f name value (unprotectAfter n o) := by
  have hafter {z : Handle} {p : Payload} (hz : o.2.Holds z p) :
      (Heap.unprotectAfter n o).2.Holds z p := hz.congr (by rw [arena_unprotectAfter])
  obtain ⟨cell, symbol, hne, hs, hcell, hhost⟩ := ho.cell
  refine ⟨(fst_unprotectAfter n o).trans ho.answer, ⟨cell, symbol, hne, ?_, hafter hcell,
    hafter hhost⟩, fun z p hne hz hh ↦ hafter (ho.holds z p hne hz hh)⟩
  exact (symbols_unprotectAfter n o).symm ▸ hs

theorem prepends_defineProtected_frame (hp : Proper h.arena) (hnil : h.isLive h.nil = true)
    (hroot : x ∈ h.rootHandles []) (hx : h.Holds x (.environment frame enclosing h.nil))
    (hn : Numbered (h.defineProtected x name value).2.arena) :
    Prepends h x frame (fun cell ↦ .environment cell enclosing h.nil) name value
      (h.defineProtected x name value) := by
  let p := h.install name
  let a := p.2.alloc .pairlist (.cell value frame p.1)
  have hg : Grows h 0 p.2 := h.grows_install name
  have hnp : Numbered p.2.arena := (h.course_of_install x name value).numbered hn
  have hxp : p.2.Holds x (.environment frame enclosing h.nil) :=
    hg.holds hp hnp (.root hroot hx.isLive) hx
  have ho : h.defineProtected x name value = a.2.setField x .frame a.1 := by
    obtain ⟨r, hr, hpay⟩ := hxp
    simp only [defineProtected, p, a, record_of_get? hr, hpay, if_pos hg.toContinues.nil.symm]
  rw [ho] at hn ⊢
  exact (prepends_setFrame (hg.evolves.proper hp) (hg.toContinues.keeps.isLive_nil hnil)
    (h.mem_symbols_install name) (hg.toContinues.mem_rootHandles hroot) hxp rfl hn).after hg hp hnp

theorem prepends_defineProtected_table (hp : Proper h.arena) (hnil : h.isLive h.nil = true)
    (hroot : x ∈ h.rootHandles []) (hne : table ≠ h.nil)
    (hx : h.Holds x (.environment frame enclosing table)) (ht : h.Holds table (.values buckets))
    (hlast : buckets[bucketOf name buckets.size]? = some last)
    (hn : Numbered (h.defineProtected x name value).2.arena) :
    Prepends h table last
      (fun cell ↦ .values (buckets.setIfInBounds (bucketOf name buckets.size) cell)) name value
      (h.defineProtected x name value) := by
  let p := h.install name
  have hg : Grows h 0 p.2 := h.grows_install name
  have hnp : Numbered p.2.arena := (h.course_of_install x name value).numbered hn
  have hreach : h.Rooted [] x := .root hroot hx.isLive
  have htable : h.PartOf x table := .strand hx (by simp [Payload.strands]) (.refl table)
  have hrooted : h.Rooted [] table := htable.rooted hreach ht.isLive
  have ho : h.defineProtected x name value = p.2.defineHashed table name p.1 value := by
    obtain ⟨r, hr, hpay⟩ := hg.holds hp hnp hreach hx
    have hne : table ≠ p.2.nil := hg.toContinues.nil ▸ hne
    simp only [defineProtected, p, record_of_get? hr, hpay, if_neg hne]
  rw [ho] at hn ⊢
  exact (prepends_defineHashed (hg.evolves.proper hp) (hg.toContinues.keeps.isLive_nil hnil)
    (h.mem_symbols_install name) (hg.holds hp hnp hrooted ht) (hg.reach hp hnp hrooted) hlast
    hn).after hg hp hnp

theorem prepends_define {f : Handle → Payload} (hp : Proper h.arena)
    (hn : Numbered (h.define x name value).2.arena)
    (hq : ∀ q : Heap, q.arena = h.arena → q.nil = h.nil → x ∈ q.rootHandles [] →
      Numbered (q.defineProtected x name value).2.arena →
      Prepends q host last f name value (q.defineProtected x name value)) :
    Prepends h host last f name value (h.define x name value) := by
  let q := (h.protect x).protect value
  have hg : Grows h 2 q := (h.grows_protect x).trans ((h.protect x).grows_protect value)
  rw [define, arena_unprotectAfter] at hn
  have hnq : Numbered q.arena := (q.course_defineProtected x name value).numbered hn
  exact ((hq q rfl rfl (h.mem_rootHandles_protect_protect x value) hn).after hg hp
    hnq).unprotectAfter 2

end Heap

end TaggedHeap
