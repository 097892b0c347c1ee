import TaggedHeap.Proofs.Binding

namespace TaggedHeap

namespace Heap

open Arena

variable {g h : Heap} {x y z c e host last value t : Handle} {p q : Payload} {f : Handle → Payload}
  {o : Outcome Unit} {name other : String} {log log' : List (String × Handle)} {b n : Nat}

section Define

theorem Prepends.holds_of_ne (ho : Prepends h host last f name value o) (hhost : h.Holds host q)
    (hx : h.Rooted [] x) (hz : h.PartOf x z) (hh : h.Holds z p) (hne : p ≠ q) : o.2.Holds z p := by
  refine ho.holds z p ?_ (hz.rooted hx hh.isLive) hh
  rintro rfl
  exact hne (hhost.eq hh)

theorem FrameStores.prepends (hs : h.FrameStores x log) (hp : Proper h.arena)
    (hnil : h.isLive h.nil = true) (hn : Numbered (h.define x name value).2.arena) :
    ∃ frame enclosing, h.Holds x (.environment frame enclosing h.nil) ∧ h.Chain frame log ∧
      Prepends h x frame (fun cell ↦ .environment cell enclosing h.nil) name value
        (h.define x name value) := by
  obtain ⟨frame, enclosing, hx, hc⟩ := hs
  refine ⟨frame, enclosing, hx, hc, prepends_define hp hn fun q ha hnq hroot hn ↦ ?_⟩
  have hlive : q.isLive q.nil = true := by rwa [isLive, ha, hnq]
  rw [← hnq] at hx ⊢
  exact prepends_defineProtected_frame (ha ▸ hp) hlive hroot (hx.congr (by rw [ha])) hn

theorem TableStores.prepends (hs : h.TableStores x n log) (hp : Proper h.arena)
    (hnil : h.isLive h.nil = true) (hpos : 0 < n)
    (hn : Numbered (h.define x name value).2.arena) :
    ∃ table enclosing buckets last, table ≠ h.nil ∧
      h.Holds x (.environment h.nil enclosing table) ∧ h.Holds table (.values buckets) ∧
      buckets.size = n ∧ buckets[bucketOf name n]? = some last ∧
      (∀ i c, buckets[i]? = some c → h.Chain c (log.filter fun d ↦ bucketOf d.1 n = i)) ∧
      Prepends h table last
        (fun cell ↦ .values (buckets.setIfInBounds (bucketOf name n) cell)) name value
        (h.define x name value) := by
  obtain ⟨table, enclosing, hne, hx, buckets, ht, rfl, hc⟩ := hs
  have hlast := Array.getElem?_eq_getElem (bucketOf_lt name hpos)
  refine ⟨table, enclosing, buckets, _, hne, hx, ht, rfl, hlast, hc,
    prepends_define hp hn fun q ha hnq hroot hn ↦ ?_⟩
  have hlive : q.isLive q.nil = true := by rwa [isLive, ha, hnq]
  exact prepends_defineProtected_table (ha ▸ hp) hlive hroot (hnq ▸ hne) (hx.congr (by rw [ha]))
    (ht.congr (by rw [ha])) hlast hn

theorem FrameStores.define (hs : h.FrameStores x log) (hp : Proper h.arena)
    (hnil : h.isLive h.nil = true) (hx : h.Rooted [] x)
    (hn : Numbered (h.define x name value).2.arena) :
    (h.define x name value).2.FrameStores x ((name, value) :: log) := by
  obtain ⟨frame, enclosing, hold, hc, ho⟩ := hs.prepends hp hnil hn
  obtain ⟨cell, symbol, hne, hs, hcell, hnew⟩ := ho.cell
  have hg : Keeps h (h.define x name value).2 := (h.concludes_define x name value).keeps
  refine ⟨cell, enclosing, hg.nil ▸ hnew, .cons (hg.nil ▸ hne) hcell hs (hc.keep hg ?_)⟩
  intro z head tail tag hz hh
  exact ho.holds_of_ne hold hx (.strand hold List.mem_cons_self hz) hh nofun

theorem TableStores.define (hs : h.TableStores x n log) (hp : Proper h.arena)
    (hnil : h.isLive h.nil = true) (hpos : 0 < n) (hx : h.Rooted [] x)
    (hn : Numbered (h.define x name value).2.arena) :
    (h.define x name value).2.TableStores x n ((name, value) :: log) := by
  obtain ⟨table, enclosing, buckets, last, hne, hold, ht, hsize, hlast, hc, ho⟩ :=
    hs.prepends hp hnil hpos hn
  obtain ⟨cell, symbol, hcn, hs, hcell, hnew⟩ := ho.cell
  have hg : Keeps h (h.define x name value).2 := (h.concludes_define x name value).keeps
  have hkeep {i : Nat} {c : Handle} (hi : buckets[i]? = some c) :
      (h.define x name value).2.Chain c (log.filter fun d ↦ bucketOf d.1 n = i) := by
    refine (hc i c hi).keep hg fun z _ _ _ hz hh ↦ ho.holds_of_ne ht hx ?_ hh (by simp)
    have hbucket : c ∈ buckets.toList := Array.mem_toList_iff.mpr (Array.mem_of_getElem? hi)
    exact .strand hold (by simp [Payload.strands]) (.strand ht hbucket hz)
  refine ⟨table, enclosing, hg.nil ▸ hne, hg.nil ▸ ho.holds_of_ne ht hx (.refl x) hold (by simp),
    _, hnew, Array.size_setIfInBounds.trans hsize, fun i c hi ↦ ?_⟩
  by_cases hb : bucketOf name n = i
  -- The new cell is in the bucket of its name, in front of what the bucket had.
  · subst hb
    rw [Array.getElem?_setIfInBounds_self_of_lt (hsize.symm ▸ bucketOf_lt name hpos)] at hi
    obtain rfl := Option.some.inj hi
    rw [List.filter_cons_of_pos (by simp)]
    exact .cons (hg.nil ▸ hcn) hcell hs (hkeep hlast)
  · rw [Array.getElem?_setIfInBounds_ne hb] at hi
    rw [List.filter_cons_of_neg (by simpa using hb)]
    exact hkeep hi

theorem FrameStores.define_table (hy : h.FrameStores y log) (hs : h.TableStores x n log')
    (hp : Proper h.arena) (hnil : h.isLive h.nil = true) (hpos : 0 < n) (hr : h.Rooted [] y)
    (hn : Numbered (h.define x name value).2.arena) :
    (h.define x name value).2.FrameStores y log := by
  -- A definition in a table writes to a vector, and no vector is a part of a frame.
  obtain ⟨table, enclosing, buckets, last, -, -, ht, -, -, -, ho⟩ := hs.prepends hp hnil hpos hn
  exact hy.keep (h.concludes_define x name value).keeps fun z p hz hne hh ↦
    ho.holds_of_ne ht hr hz hh (hne buckets)

theorem TableStores.define_frame (hx : h.TableStores x n log) (hs : h.FrameStores y log')
    (hp : Proper h.arena) (hnil : h.isLive h.nil = true) (hr : h.Rooted [] x)
    (hn : Numbered (h.define y name value).2.arena) :
    (h.define y name value).2.TableStores x n log := by
  -- A definition in a frame writes to an environment without a table, which is no part of one
  -- that has a table.
  obtain ⟨frame, enclosing, hold, -, ho⟩ := hs.prepends hp hnil hn
  exact hx.keep (h.concludes_define y name value).keeps fun z p hz hne hh ↦
    ho.holds_of_ne hold hr hz hh (hne frame enclosing)

end Define

section Create

theorem frameStores_environment (hp : Proper h.arena) (hn : Numbered (h.environment e).2.arena) :
    (h.environment e).2.FrameStores (h.environment e).1 [] := by
  have hnil : (h.environment e).2.nil = h.nil :=
    (h.continues_alloc .environment (.environment h.nil e h.nil) rfl).nil
  refine ⟨h.nil, e, ⟨_, h.get?_alloc hp hn, ?_⟩, hnil ▸ .nil⟩
  rw [hnil]
  rfl

theorem hashedEnvironment_answers_iff :
    (∃ x, (h.hashedEnvironment e b).1 = .ok x) ↔ b < tableLimit := by
  unfold hashedEnvironment
  dsimp only
  split
  · next hb => exact iff_of_false nofun (Nat.not_lt.mpr hb)
  · next hb => exact iff_of_true ⟨_, rfl⟩ (Nat.not_le.mp hb)

theorem tableStores_hashedEnvironment (hp : Proper h.arena) (hnil : h.isLive h.nil = true)
    (hn : Numbered (h.hashedEnvironment e b).2.arena)
    (hx : (h.hashedEnvironment e b).1 = .ok x) :
    Grows h 0 (h.hashedEnvironment e b).2 ∧
      (h.hashedEnvironment e b).2.TableStores x (max b 1) [] := by
  let p := h.protect e
  let slots := Array.replicate (max b 1) p.nil
  let t := p.alloc .list (.values slots)
  let q := t.2.protect t.1
  let u := q.alloc .environment (.environment q.nil e t.1)
  have ho : h.hashedEnvironment e b = (.ok u.1, u.2.unprotect 2) := by
    have hb : ¬ tableLimit ≤ b := Nat.not_le.mpr (hashedEnvironment_answers_iff.mp ⟨x, hx⟩)
    rw [hashedEnvironment, if_neg hb]
  rw [ho] at hn hx ⊢
  rw [arena_unprotect] at hn
  obtain rfl : u.1 = x := Except.ok.inj hx
  have hgt : Grows h 1 t.2 := (h.grows_protect e).trans (p.grows_alloc .list _ rfl (by decide))
  have hgq : Grows h 2 q := hgt.trans (t.2.grows_protect t.1)
  have hgu : Grows q 0 u.2 := q.grows_alloc .environment _ rfl (by decide)
  have hnq : Numbered q.arena := hgu.toContinues.numbered hn
  have hnew : q.Holds t.1 (.values slots) := ⟨_, p.get?_alloc hp hnq, rfl⟩
  have htable : u.2.Holds t.1 (.values slots) :=
    hgu.holds (hgq.evolves.proper hp) hn (.root (t.2.mem_rootHandles_protect t.1) hnew.isLive) hnew
  have henv : u.2.Holds u.1 (.environment q.nil e t.1) :=
    ⟨_, q.get?_alloc (hgq.evolves.proper hp) hn, rfl⟩
  have hnilu : (u.2.unprotect 2).nil = h.nil :=
    ((hgq.trans hgu).unprotect (k := 0) rfl).toContinues.nil
  have hfresh : t.1 ≠ h.nil := fun he ↦ not_isLive_alloc (h := p) hp hnq (he ▸ hnil)
  refine ⟨(hgq.trans hgu).unprotect rfl, t.1, e, hnilu ▸ hfresh, ?_, slots,
    htable.congr (by rw [arena_unprotect]), Array.size_replicate, fun i c hi ↦ ?_⟩
  · rw [hnilu, ← hgq.toContinues.nil]
    exact henv.congr (by rw [arena_unprotect])
  · obtain ⟨hi, rfl⟩ := Array.getElem?_eq_some_iff.mp hi
    rw [Array.getElem_replicate]
    exact hnilu ▸ .nil

end Create

section Run

/-- An environment with what has been defined in it, from the latest to the earliest. -/
abbrev Ledger :=
  Handle × List (String × Handle)

def Rests (h : Heap) (l : Option Ledger) : Prop :=
  ∀ x log, l = some (x, log) → h.Rooted [] x

theorem rests_of_rooted (hx : h.Rooted [] x) : h.Rests (some (x, log)) := by
  rintro x log ⟨⟩
  exact hx

def Unmodified (h g : Heap) (l : Option Ledger) : Prop :=
  ∀ x log, l = some (x, log) → Spares h g x

/-- A program makes an environment with a hash table and one without, both in the same enclosing
one, and defines names in them. Whatever else it does, the roots lead to both unless all records
stay as they are, and nothing else writes to them. -/
inductive Run (enclosing : Handle) (b : Nat) : Option Ledger → Option Ledger → Heap → Prop
  | start {h : Heap} : Arises h → Run enclosing b none none h
  | table {l : Option Ledger} {h : Heap} {x : Handle} :
      Run enclosing b none l h → h.Rests l → (h.hashedEnvironment enclosing b).1 = .ok x →
      Run enclosing b (some (x, [])) l (h.hashedEnvironment enclosing b).2
  | frame {l : Option Ledger} {h : Heap} :
      Run enclosing b l none h → h.Rests l →
      Run enclosing b l (some ((h.environment enclosing).1, [])) (h.environment enclosing).2
  | defineTable {x : Handle} {log : List (String × Handle)} {l : Option Ledger} {h : Heap}
      (name : String) (value : Handle) :
      Run enclosing b (some (x, log)) l h → h.Rooted [] x → h.Rests l →
      Run enclosing b (some (x, (name, value) :: log)) l (h.define x name value).2
  | defineFrame {y : Handle} {log : List (String × Handle)} {l : Option Ledger} {h : Heap}
      (name : String) (value : Handle) :
      Run enclosing b l (some (y, log)) h → h.Rests l → h.Rooted [] y →
      Run enclosing b l (some (y, (name, value) :: log)) (h.define y name value).2
  | other {l l' : Option Ledger} {h : Heap} (a : Action) :
      Run enclosing b l l' h → ((a.run h).2.arena ≠ h.arena → h.Rests l ∧ h.Rests l') →
      Unmodified h (a.run h).2 l → Unmodified h (a.run h).2 l' →
      Run enclosing b l l' (a.run h).2

variable {l l' : Option Ledger}

theorem Run.arises (hr : Run e b l l' h) : Arises h := by
  induction hr with
  | start ha => exact ha
  | table _ _ _ ih => exact ih.run (.update (.hashedEnvironment e b)) trivial
  | frame _ _ ih => exact ih.run (.update (.environment e)) trivial
  | @defineTable x _ _ _ name value _ _ _ ih | @defineFrame x _ _ _ name value _ _ _ ih =>
    exact ih.run (.update (.define x name value)) trivial
  | other a _ _ _ _ ih => exact a.arises ih

theorem Run.protect (hr : Run e b l l' h) (z : Handle) : Run e b l l' (h.protect z) :=
  .other (.request (.update (.protect z))) hr (absurd rfl ·) (fun _ _ _ ↦ spares_of_eq rfl)
    fun _ _ _ ↦ spares_of_eq rfl

theorem Run.grows (hr : Run e b l l' h) (a : Action) {k : Nat} (hg : Grows h k (a.run h).2)
    (hn : Numbered (a.run h).2.arena) (hl : h.Rests l) (hl' : h.Rests l') :
    Run e b l l' (a.run h).2 :=
  .other a hr (fun _ ↦ ⟨hl, hl'⟩) (fun x log he ↦ hg.spares hr.arises.proper hn (hl x log he))
    fun y log he ↦ hg.spares hr.arises.proper hn (hl' y log he)

theorem Run.collect (hr : Run e b l l' h) (hn : Numbered h.collect.2.arena) (hl : h.Rests l)
    (hl' : h.Rests l') : Run e b l l' h.collect.2 :=
  hr.grows (.request (.update .collect)) (h.grows_collectWith []) hn hl hl'

structure Stored (b : Nat) (l l' : Option Ledger) (h : Heap) : Prop where
  table : ∀ x log, l = some (x, log) → h.TableStores x (max b 1) log
  frame : ∀ y log, l' = some (y, log) → h.FrameStores y log

def Stays (h g : Heap) (l : Option Ledger) : Prop :=
  ∀ x log, l = some (x, log) → ∀ z p, h.PartOf x z → h.Holds z p → g.Holds z p

theorem Grows.stays {k : Nat} (hg : Grows h k g) (hp : Proper h.arena) (hn : Numbered g.arena)
    (hl : h.Rests l) : Stays h g l :=
  fun x log he _ _ hz hh ↦ hg.holds hp hn (hz.rooted (hl x log he) hh.isLive) hh

theorem Stored.keep (hs : Stored b l l' h) (hg : Keeps h g) (hl : Stays h g l)
    (hl' : Stays h g l') : Stored b l l' g where
  table x log he := (hs.table x log he).keep hg fun z p hz _ hh ↦ hl x log he z p hz hh
  frame y log he := (hs.frame y log he).keep hg fun z p hz _ hh ↦ hl' y log he z p hz hh

theorem Run.stored (hr : Run e b l l' h) (hn : Numbered h.arena) : Stored b l l' h := by
  have hpos : 0 < max b 1 := Nat.lt_of_lt_of_le Nat.zero_lt_one (Nat.le_max_right b 1)
  -- By induction on the run: a definition extends one of the environments and is apart from the
  -- other one, and every other step leaves the records of both as they are.
  induction hr with
  | start _ => exact ⟨nofun, nofun⟩
  | @table l h x hr hrests hok ih =>
    have ha := hr.arises
    obtain ⟨hg, hs⟩ := tableStores_hashedEnvironment ha.proper ha.isLive_nil hn hok
    have hl := hg.stays ha.proper hn hrests
    refine ⟨?_, ((ih (hg.toContinues.numbered hn)).keep hg.toContinues.keeps nofun hl).frame⟩
    rintro x log ⟨⟩
    exact hs
  | @frame l h hr hrests ih =>
    have hp := hr.arises.proper
    have hg : Grows h 0 (h.environment e).2 := h.grows_alloc .environment _ rfl (by decide)
    have hl := hg.stays hp hn hrests
    refine ⟨((ih (hg.toContinues.numbered hn)).keep hg.toContinues.keeps hl nofun).table, ?_⟩
    rintro y log ⟨⟩
    exact frameStores_environment hp hn
  | @defineTable x log l h name value hr hx hrests ih =>
    have ha := hr.arises
    obtain ⟨htable, hframe⟩ := ih ((h.course_define x name value).numbered hn)
    have hs := htable x log rfl
    refine ⟨?_, fun y log he ↦ ?_⟩
    · rintro x log ⟨⟩
      exact hs.define ha.proper ha.isLive_nil hpos hx hn
    · exact (hframe y log he).define_table hs ha.proper ha.isLive_nil hpos (hrests y log he) hn
  | @defineFrame y log l h name value hr hrests hy ih =>
    have ha := hr.arises
    obtain ⟨htable, hframe⟩ := ih ((h.course_define y name value).numbered hn)
    have hs := hframe y log rfl
    refine ⟨fun x log he ↦ ?_, ?_⟩
    · exact (htable x log he).define_frame hs ha.proper ha.isLive_nil (hrests x log he) hn
    · rintro y log ⟨⟩
      exact hs.define ha.proper ha.isLive_nil hy hn
  | @other l l' h a hr hrests hl hl' ih =>
    have hp := hr.arises.proper
    have hg : Keeps h (a.run h).2 := a.keeps h
    refine (ih (hg.numbered hn)).keep hg (fun x log he z p hz hh ↦ ?_)
      fun y log he z p hz hh ↦ ?_
    · exact (hl x log he).holds hp hn (fun hne ↦ (hrests hne).1 x log he) hz hh
    · exact (hl' y log he).holds hp hn (fun hne ↦ (hrests hne).2 y log he) hz hh

end Run

section Agree

variable {l l' : Option Ledger}

/-- What is entered under a key, in the order of the entries. -/
def entered {α : Type} [DecidableEq α] (key : α) (entries : List (α × Handle)) : List Handle :=
  entries.filterMap fun entry ↦ if entry.1 = key then some entry.2 else none

theorem entered_filter_bucketOf (name : String) (log : List (String × Handle)) (n i : Nat) :
    entered name (log.filter fun d ↦ bucketOf d.1 n = i) =
      if i = bucketOf name n then entered name log else [] := by
  rw [entered, List.filterMap_filter]
  split_ifs with hi
  · refine List.filterMap_congr fun d _ ↦ ?_
    by_cases hd : d.1 = name
    · simp [hd, hi]
    · simp [hd]
  · refine List.filterMap_eq_nil_iff.mpr fun d _ ↦ ?_
    by_cases hd : d.1 = name
    · simp [hd, Ne.symm hi]
    · simp [hd]

theorem Chain.isList (hp : Proper h.arena) (hc : h.Chain c log) :
    ∃ cells pairs, h.IsList c cells pairs ∧
      ∀ name s, (∀ other t, (other, t) ∈ h.symbols → (t = s ↔ other = name)) →
        entered s pairs = entered name log := by
  induction hc with
  | nil => exact ⟨[], [], .nil, fun _ _ _ ↦ rfl⟩
  | @cons cell symbol value tail name log hne hcell hs _ ih =>
    obtain ⟨cells, pairs, hl, he⟩ := ih
    -- The symbols of the chain tell its names apart, so the same cells are counted on both sides.
    have hread := (readCell_eq_ok_iff hp.wellFormed).mpr hcell
    refine ⟨cell :: cells, (symbol, value) :: pairs, .cons hne hread hl, fun name' s hiff ↦ ?_⟩
    have hrest := he name' s hiff
    simp only [entered, List.filterMap_cons, hiff name symbol hs] at hrest ⊢
    rw [hrest]

theorem Arises.eq_install_iff (ha : Arises h) (hn : Numbered (h.install name).2.arena)
    (hm : (other, t) ∈ h.symbols) : t = (h.install name).1 ↔ other = name := by
  have hinstall : Arises (h.install name).2 := ha.run (.update (.install name)) trivial
  obtain ⟨log, hnamed⟩ := hinstall.named hn
  have hentry := h.mem_symbols_install name
  have hold := (h.continues_install name).symbols.subset hm
  constructor
  · intro he
    exact congrArg Prod.fst (List.inj_on_of_nodup_map hnamed.handles hold hentry he)
  · intro he
    exact congrArg Prod.snd (List.inj_on_of_nodup_map hnamed.names hold hentry he)

/-- From the handle on there is a chain of cells that comes to an end, and the values of the cells
with the symbol of a name are these, in this order. -/
def Lists (h : Heap) (c : Handle) (values : String → List Handle) : Prop :=
  ∃ cells pairs, h.IsList c cells pairs ∧
    ∀ name, Numbered (h.install name).2.arena → entered (h.install name).1 pairs = values name

theorem Arises.lists (ha : Arises h) (hc : h.Chain c log) :
    h.Lists c fun name ↦ entered name log := by
  obtain ⟨cells, pairs, hl, he⟩ := hc.isList ha.proper
  exact ⟨cells, pairs, hl, fun name hn ↦ he name _ fun _ _ ↦ ha.eq_install_iff hn⟩

theorem Holds.project {f : Field} {v : Handle} (hx : h.Holds x p) (hp : Proper h.arena)
    (hf : p.field? f = some v) : h.project x f = .ok v := by
  obtain ⟨r, hr, rfl⟩ := hx
  rw [project_of_get? hr (hp.wellFormed.get? hr), hf]
  rfl

/-- What has been defined in the environments is found in them. After the same definitions, the
bucket of a name and the frame list the same values of the name. -/
structure Agree (b : Nat) (l l' : Option Ledger) (h : Heap) : Prop where
  define_table : ∀ x log, l = some (x, log) → ∀ name value,
    Numbered (h.define x name value).2.arena → (h.define x name value).1 = .ok ()
  define_frame : ∀ y log, l' = some (y, log) → ∀ name value,
    Numbered (h.define y name value).2.arena → (h.define y name value).1 = .ok ()
  buckets : ∀ x log, l = some (x, log) →
    ∃ table, h.project x .hashTable = .ok table ∧ h.vectorLength table = .ok (max b 1) ∧
      ∀ i < max b 1, ∃ bucket, h.getValue table i = .ok bucket ∧ h.Lists bucket fun name ↦
        if i = bucketOf name (max b 1) then entered name log else []
  no_frame : ∀ x log, l = some (x, log) → h.project x .frame = .ok h.nil
  frame : ∀ y log, l' = some (y, log) →
    ∃ frame, h.project y .frame = .ok frame ∧ h.Lists frame fun name ↦ entered name log

/-- Two environments, with a hash table and without, agree on what has been defined in both, however
the definitions are interleaved. The slots must not outnumber the 32 bits of their numbers. -/
theorem Run.layouts_agree (hr : Run e b l l' h) (hn : Numbered h.arena) : Agree b l l' h := by
  have ha := hr.arises
  have hp := ha.proper
  have hpos : 0 < max b 1 := Nat.lt_of_lt_of_le Nat.zero_lt_one (Nat.le_max_right b 1)
  obtain ⟨htable, hframe⟩ := hr.stored hn
  refine ⟨fun x log he name value hn ↦ ?_, fun y log he name value hn ↦ ?_, fun x log he ↦ ?_,
    fun x log he ↦ ?_, fun y log he ↦ ?_⟩
  · obtain ⟨_, _, _, _, -, -, -, -, -, -, ho⟩ :=
      (htable x log he).prepends hp ha.isLive_nil hpos hn
    exact ho.answer
  · obtain ⟨_, _, -, -, ho⟩ := (hframe y log he).prepends hp ha.isLive_nil hn
    exact ho.answer
  · obtain ⟨table, enclosing, -, hx, buckets, ⟨r, hr, hpay⟩, hsize, hc⟩ := htable x log he
    have hw := hp.wellFormed.get? hr
    refine ⟨table, hx.project hp rfl, ?_, fun i hi ↦ ?_⟩
    · rw [vectorLength_of_get? hr hw, hpay, ← hsize]
      rfl
    · have hbucket := Array.getElem?_eq_getElem (hsize.symm ▸ hi)
      refine ⟨buckets[i], ?_, ?_⟩
      · rw [getValue_of_get? hr hw, orRefuse_eq_ok_iff, hpay]
        exact hbucket
      · simp only [← entered_filter_bucketOf]
        exact ha.lists (hc i _ hbucket)
  · obtain ⟨table, enclosing, -, hx, -⟩ := htable x log he
    exact hx.project hp rfl
  · obtain ⟨frame, enclosing, hy, hc⟩ := hframe y log he
    exact ⟨frame, hy.project hp rfl, ha.lists hc⟩

theorem layouts_agree_of_one_bucket :
    let e := (create 0 1).nil
    let u := (create 0 1).environment e
    let v := (u.2.protect u.1).hashedEnvironment e 0
    ∃ x, v.1 = .ok x ∧
      let h := (v.2.protect x).collect.2
      let g := ((h.define x "a" x).2.define u.1 "a" x).2
      let f := ((g.define u.1 "b" e).2.define x "b" e).2
      let log := [("b", e), ("a", x)]
      Run e 0 (some (x, log)) (some (u.1, log)) f ∧ Numbered f.arena ∧
        Agree 0 (some (x, log)) (some (u.1, log)) f := by
  intro e u v
  let x : Handle := ⟨10, 0⟩
  have hx : v.1 = .ok x := by decide +kernel
  refine ⟨x, hx, ?_⟩
  intro h g f log
  have hrooted (q : Heap) (hq : ∀ z ∈ [x, u.1], z ∈ q.rootHandles [] ∧ q.isLive z = true) :
      q.Rooted [] x ∧ q.Rooted [] u.1 := by
    simp only [List.forall_mem_cons] at hq
    exact ⟨.root hq.1.1 hq.1.2, .root hq.2.1.1 hq.2.1.2⟩
  have hu : Run e 0 none (some (u.1, [])) (u.2.protect u.1) :=
    Run.protect (.frame (.start (.create 0 1)) nofun) u.1
  have hr : (u.2.protect u.1).Rooted [] u.1 := .root (by decide +kernel) (by decide +kernel)
  have hv : Run e 0 (some (x, [])) (some (u.1, [])) v.2 := .table hu (rests_of_rooted hr) hx
  obtain ⟨hqx, hqu⟩ := hrooted (v.2.protect x) (by decide +kernel)
  have hh : Run e 0 (some (x, [])) (some (u.1, [])) h :=
    (hv.protect x).collect (by decide +kernel) (rests_of_rooted hqx) (rests_of_rooted hqu)
  obtain ⟨hhx, hhu⟩ := hrooted h (by decide +kernel)
  obtain ⟨htx, htu⟩ := hrooted (h.define x "a" x).2 (by decide +kernel)
  have hg : Run e 0 (some (x, [("a", x)])) (some (u.1, [("a", x)])) g :=
    .defineFrame "a" x (.defineTable "a" x hh hhx (rests_of_rooted hhu)) (rests_of_rooted htx) htu
  obtain ⟨hgx, hgu⟩ := hrooted g (by decide +kernel)
  obtain ⟨hsx, hsu⟩ := hrooted (g.define u.1 "b" e).2 (by decide +kernel)
  have hf : Run e 0 (some (x, log)) (some (u.1, log)) f :=
    .defineTable "b" e (.defineFrame "b" e hg (rests_of_rooted hgx) hgu) hsx (rests_of_rooted hsu)
  have hn : Numbered f.arena := by decide +kernel
  exact ⟨hf, hn, hf.layouts_agree hn⟩

end Agree

end Heap

end TaggedHeap
