import TaggedHeap.Proofs.Sharing

namespace TaggedHeap

/-- What an account of a heap has to know of its moves. -/
inductive Deed
  | founded
  /-- A record is stored. If a collection was due, it has freed so many before. -/
  | allocated (freed : Option Nat)
  | collected (freed : Nat)
  | retuned (threshold : Nat)
  | renamed (x : Handle)
deriving DecidableEq

namespace Payload

def texts : Payload → List Handle
  | strings elements => elements.toList
  | _ => []

theorem texts_subset (p : Payload) : p.texts ⊆ p.children := by
  cases p with
  | strings elements => exact List.Subset.refl _
  | _ => exact List.nil_subset _

end Payload

namespace Heap

open Arena

variable {h h' g k : Heap} {x y : Handle} {r r' : Record} {tag : TypeTag} {payload : Payload}
  {ds log since : List Deed}

def IsText (h : Heap) (x : Handle) : Prop :=
  ∃ bytes, h.Spells x bytes

theorem IsText.isLive (hx : h.IsText x) : h.isLive x = true := by
  obtain ⟨bytes, hs⟩ := hx
  exact hs.isLive

/-- What the rewriting of a record leaves of it. -/
structure Revises (h : Heap) (r r' : Record) : Prop where
  marked : r'.marked = r.marked
  tag : r'.tag = r.tag
  wellFormed : r.WellFormed → r'.WellFormed
  bytes : r'.payload.bytes? = r.payload.bytes?
  texts : ∀ y ∈ r'.payload.texts, y ∈ r.payload.texts ∨ h.IsText y

theorem Revises.refl (h : Heap) (r : Record) : h.Revises r r :=
  ⟨rfl, rfl, id, rfl, fun _ ↦ .inl⟩

def printName? (r : Record) : Option Handle :=
  r.payload.field? .printName

/-- How much a collection frees that starts with an allocation, if one is due. -/
def clears (h : Heap) (pending : List Handle) : Option Nat :=
  if h.isDue then some (h.collectWith pending).1 else none

/-- One move and the deeds in it. The strings of a new vector are there before it, and the name of
a new symbol is spelt and unknown. -/
inductive Move : Heap → List Deed → Heap → Prop
  | alloc {h : Heap} {tag : TypeTag} {payload : Payload} :
      payload.fits tag = true → (∀ y ∈ payload.texts, h.IsText y) →
      Move h [.allocated (h.clears payload.children)] (h.alloc tag payload).2
  | enter {h : Heap} {name : String} {p : Handle} :
      h.symbols.lookup name = none → h.Spells p (Text.Utf8.encode name) →
      Move h [.allocated (h.clears [p, h.unbound, h.nil])]
        { (h.alloc .symbol (.symbol p h.unbound h.nil)).2 with
          symbols := (name, (h.alloc .symbol (.symbol p h.unbound h.nil)).1) :: h.symbols }
  | rewrite {h : Heap} {x : Handle} {f : Record → Record} :
      (∀ r, h.arena.get? x = some r → h.Revises r (f r) ∧ printName? (f r) = printName? r) →
      Move h [] { h with arena := h.arena.modify x f }
  | rename {h : Heap} {x : Handle} {f : Record → Record} :
      (∀ r, h.arena.get? x = some r → h.Revises r (f r)) →
      Move h [.renamed x] { h with arena := h.arena.modify x f }
  | collect {h : Heap} : Move h [.collected h.collect.1] h.collect.2
  | retune {h : Heap} (threshold : Nat) : Move h [.retuned threshold] (h.setThreshold threshold)
  | aside {h : Heap} (roots : Roots) (chars : List (List UInt8 × Handle)) (journal : List Event) :
      Move h [] { h with roots := roots, chars := chars, journal := journal }

theorem Move.keeps (hm : Move h ds h') : Keeps h h' := by
  cases hm with
  | alloc hf _ => exact (h.continues_alloc _ _ hf).keeps
  | @enter _ p _ _ =>
    have hk := (h.continues_alloc .symbol (.symbol p h.unbound h.nil) rfl).keeps
    exact ⟨hk.evolves, hk.values, List.suffix_cons _ _, hk.live⟩
  | rewrite hf =>
    exact (h.continues_modify _ fun r hr ↦ ⟨(hf r hr).1.marked, (hf r hr).1.wellFormed⟩).keeps
  | rename hf =>
    exact (h.continues_modify _ fun r hr ↦ ⟨(hf r hr).marked, (hf r hr).wellFormed⟩).keeps
  | collect => exact h.keeps_collect
  | retune _ => exact keeps_of_eq rfl rfl rfl
  | aside _ _ _ => exact keeps_of_eq rfl rfl rfl

/-- A symbol with its name has come into the table. -/
structure Enters (h : Heap) (name : String) (x : Handle) (h' : Heap) : Prop where
  symbols : h'.symbols = (name, x) :: h.symbols
  unknown : h.symbols.lookup name = none
  fresh : ¬ h.isLive x = true
  symbol : ∃ r p, h'.arena.get? x = some r ∧ r.tag = .symbol ∧ printName? r = some p ∧
    h.Spells p (Text.Utf8.encode name)

/-- What a move does to records and symbols. -/
structure Carries (h : Heap) (ds : List Deed) (h' : Heap) : Prop extends Keeps h h' where
  revises : ∀ x r r', h.arena.get? x = some r → h'.arena.get? x = some r' →
    h.Revises r r' ∧ (printName? r' = printName? r ∨ .renamed x ∈ ds)
  texts : ∀ x r, ¬ h.isLive x = true → h'.arena.get? x = some r → ∀ y ∈ r.payload.texts, h.IsText y
  linked : ∀ x y, h'.isLive x = true → y ∈ h'.arena.linksOf x → h.isLive y = true →
    h'.isLive y = true
  enters : h'.symbols = h.symbols ∨ ∃ name x, Enters h name x h'

theorem get?_of_get?_settle {pending : List Handle} (hp : Proper h.arena)
    (hx : (h.settle pending).arena.get? x = some r) : h.arena.get? x = some r := by
  unfold settle at hx
  split at hx
  · exact get?_of_get?_collect hp.unmarked hx
  · exact hx

theorem get?_alloc_cases (hp : Proper h.arena) (hn : Numbered (h.alloc tag payload).2.arena)
    (hx : (h.alloc tag payload).2.arena.get? x = some r) :
    (x = (h.alloc tag payload).1 ∧ r = .new tag h.nil payload) ∨
      (h.settle payload.children).arena.get? x = some r := by
  by_cases he : x = (h.alloc tag payload).1
  · rw [he, h.get?_alloc hp hn, Option.some_inj] at hx
    exact .inl ⟨he, hx.symm⟩
  · exact .inr ((get?_alloc_of_ne he).symm.trans hx)

theorem linked_collectWith (hp : Proper h.arena) (pending : List Handle)
    (hx : (h.collectWith pending).2.isLive x = true)
    (hy : y ∈ (h.collectWith pending).2.arena.linksOf x) (hl : h.isLive y = true) :
    (h.collectWith pending).2.isLive y = true := by
  have hreach := (contains_collect_iff hp.unmarked).mp hx
  have hy : y ∈ h.arena.linksOf x := linksOf_collect hp.unmarked hreach ▸ hy
  exact (contains_collect_iff hp.unmarked).mpr (.link hreach hy hl)

theorem linked_settle (hp : Proper h.arena) (pending : List Handle)
    (hx : (h.settle pending).isLive x = true) (hy : y ∈ (h.settle pending).arena.linksOf x)
    (hl : h.isLive y = true) : (h.settle pending).isLive y = true := by
  unfold settle at hx hy ⊢
  split at hx
  · next hd =>
    rw [if_pos hd] at hy ⊢
    exact linked_collectWith hp pending hx hy hl
  · next hd => rwa [if_neg hd]

theorem carries_alloc (hp : Proper h.arena) (hn : Numbered h'.arena)
    (ha : h'.arena = (h.alloc tag payload).2.arena) (ht : ∀ y ∈ payload.texts, h.IsText y)
    (hk : Keeps h h') (he : h'.symbols = h.symbols ∨ ∃ name x, Enters h name x h') :
    Carries h ds h' := by
  rw [ha] at hn
  refine ⟨hk, fun x r r' hx hx' ↦ ?_, fun x r hx hx' ↦ ?_, fun x y hx hy hl ↦ ?_, he⟩
  · rw [ha] at hx'
    rcases get?_alloc_cases hp hn hx' with ⟨rfl, -⟩ | hs
    · exact absurd (contains_of_get? hx) (not_isLive_alloc hp hn)
    · obtain rfl := Option.some.inj (hx.symm.trans (get?_of_get?_settle hp hs))
      exact ⟨.refl h r, .inl rfl⟩
  · rw [ha] at hx'
    rcases get?_alloc_cases hp hn hx' with ⟨-, rfl⟩ | hs
    · exact ht
    · exact absurd (contains_of_get? (get?_of_get?_settle hp hs)) hx
  · obtain ⟨r, hr⟩ := get?_of_isLive hx
    rw [linksOf_of_get? hr] at hy
    rw [ha] at hr
    rw [isLive, ha, ← isLive]
    rcases get?_alloc_cases hp hn hr with ⟨-, rfl⟩ | hs
    · rcases List.mem_cons.mp hy with rfl | hy
      · rw [isLive, ← ha]
        exact hk.live _ h.nil_mem_core hl
      · exact isLive_alloc_of_mem hy hl
    · have hy := linksOf_of_get? hs ▸ hy
      exact isLive_alloc_of_settle (linked_settle hp _ (contains_of_get? hs) hy hl)

theorem carries_of_eq (ha : h'.arena = h.arena) (hs : h'.symbols = h.symbols) (hk : Keeps h h') :
    Carries h ds h' := by
  refine ⟨hk, fun x r r' hx hx' ↦ ?_, fun x r hx hx' ↦ ?_, fun x y _ _ hl ↦ ?_, .inl hs⟩
  · rw [ha, hx, Option.some_inj] at hx'
    exact hx' ▸ ⟨.refl h r, .inl rfl⟩
  · rw [ha] at hx'
    exact absurd (contains_of_get? hx') hx
  · rwa [isLive, ha]

theorem carries_modify {f : Record → Record}
    (hf : ∀ r, h.arena.get? x = some r →
      h.Revises r (f r) ∧ (printName? (f r) = printName? r ∨ .renamed x ∈ ds))
    (hk : Keeps h { h with arena := h.arena.modify x f }) :
    Carries h ds { h with arena := h.arena.modify x f } := by
  have hlive (y : Handle) : isLive { h with arena := h.arena.modify x f } y = h.isLive y :=
    contains_modify f
  refine ⟨hk, fun y r r' hy hy' ↦ ?_, fun y r hy hy' ↦ ?_, fun y z _ _ hl ↦ ?_, .inl rfl⟩
  · rw [get?_modify, hy] at hy'
    split_ifs at hy' with hxy
    · subst hxy
      rw [Option.map_some, Option.some_inj] at hy'
      exact hy' ▸ hf r hy
    · obtain rfl := Option.some.inj hy'
      exact ⟨.refl h r, .inl rfl⟩
  · exact absurd ((hlive y).symm.trans (contains_of_get? hy')) hy
  · exact (hlive z).trans hl

theorem Move.carries (hm : Move h ds h') (hp : Proper h.arena) (hn : Numbered h'.arena) :
    Carries h ds h' := by
  have hk := hm.keeps
  cases hm with
  | alloc _ ht =>
    exact carries_alloc hp hn rfl ht hk (.inl (h.symbols_alloc _ _))
  | @enter name p hname hspells =>
    let payload := Payload.symbol p h.unbound h.nil
    have hn : Numbered (h.alloc .symbol payload).2.arena := hn
    have he : Enters h name (h.alloc .symbol payload).1
        { (h.alloc .symbol payload).2 with
          symbols := (name, (h.alloc .symbol payload).1) :: h.symbols } :=
      ⟨rfl, hname, not_isLive_alloc hp hn, _, p, h.get?_alloc hp hn, rfl, rfl, hspells⟩
    exact carries_alloc hp hn rfl nofun hk (.inr ⟨_, _, he⟩)
  | rewrite hf => exact carries_modify (fun r hr ↦ ⟨(hf r hr).1, .inl (hf r hr).2⟩) hk
  | rename hf => exact carries_modify (fun r hr ↦ ⟨hf r hr, .inr List.mem_cons_self⟩) hk
  | collect =>
    refine ⟨hk, fun x r r' hx hx' ↦ ?_, fun x r hx hx' ↦ ?_, fun x y ↦ ?_, .inl rfl⟩
    · obtain rfl := Option.some.inj (hx.symm.trans (get?_of_get?_collect hp.unmarked hx'))
      exact ⟨.refl h r, .inl rfl⟩
    · exact absurd (contains_of_get? (get?_of_get?_collect hp.unmarked hx')) hx
    · exact linked_collectWith hp []
  | retune _ => exact carries_of_eq rfl rfl hk
  | aside _ _ _ => exact carries_of_eq rfl rfl hk

namespace Carries

variable {bytes : List UInt8}

theorem get? (hm : Carries h ds h') (hx : h.arena.get? x = some r) (hl : h'.isLive x = true) :
    ∃ r', h'.arena.get? x = some r' ∧ h.Revises r r' ∧
      (printName? r' = printName? r ∨ .renamed x ∈ ds) := by
  obtain ⟨r', hr'⟩ := get?_of_isLive hl
  exact ⟨r', hr', hm.revises x r r' hx hr'⟩

theorem spells (hm : Carries h ds h') (hx : h.Spells x bytes) (hl : h'.isLive x = true) :
    h'.Spells x bytes := by
  obtain ⟨r, hr, hb⟩ := hx
  obtain ⟨r', hr', hrev, -⟩ := hm.get? hr hl
  refine ⟨r', hr', ?_⟩
  have hbytes := hrev.bytes
  rw [hb] at hbytes
  cases hp : r'.payload with
  | char _ => simpa [hp, Payload.bytes?] using hbytes
  | _ => simp [hp, Payload.bytes?] at hbytes

theorem isText (hm : Carries h ds h') (hx : h.IsText x) (hl : h'.isLive x = true) :
    h'.IsText x := by
  obtain ⟨bytes, hs⟩ := hx
  exact ⟨bytes, hm.spells hs hl⟩

end Carries

/-- A run of moves. The deeds are listed from the latest to the earliest. -/
inductive Moves (h : Heap) : List Deed → Heap → Prop
  | refl : Moves h [] h
  | step {log ds : List Deed} {g k : Heap} : Moves h log g → Move g ds k → Moves h (ds ++ log) k

theorem Move.moves (hm : Move h ds h') : Moves h ds h' := by
  simpa using Moves.step .refl hm

theorem Moves.trans (hl : Moves h log g) (hs : Moves g since k) : Moves h (since ++ log) k := by
  induction hs with
  | refl => exact hl
  | step _ hm ih =>
    rw [List.append_assoc]
    exact .step ih hm

theorem Keeps.trans (hg : Keeps h g) (hk : Keeps g k) : Keeps h k where
  evolves := Relation.ReflTransGen.trans hg.evolves hk.evolves
  values := hk.values.trans hg.values
  symbols := hg.symbols.trans hk.symbols
  live x hx hl := hk.live x (hg.mem_core hx) (hg.live x hx hl)

theorem Moves.keeps (hl : Moves h log g) : Keeps h g := by
  induction hl with
  | refl => exact keeps_of_eq rfl rfl rfl
  | step _ hm ih => exact ih.trans hm.keeps

theorem Moves.preserve {I : List Deed → Heap → Prop} (hs : Moves h since h') (log : List Deed)
    (hp : Proper h.arena) (hn : Numbered h'.arena) (hi : I log h)
    (hstep : ∀ log g ds k, Proper g.arena → Numbered k.arena → I log g → Move g ds k →
      I (ds ++ log) k) : I (since ++ log) h' := by
  induction hs with
  | refl => exact hi
  | step hl hm ih =>
    rw [List.append_assoc]
    have hg := ih (hm.keeps.numbered hn)
    exact hstep _ _ _ _ (hl.keeps.evolves.proper hp) hn hg hm

end Heap

end TaggedHeap
