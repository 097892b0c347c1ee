import TaggedHeap.Proofs.Assigning
import TaggedHeap.Proofs.Symbols
import TaggedHeap.Proofs.Tenancy

namespace TaggedHeap.Heap

open Arena

variable {g h : Heap} {c x tag : Handle} {r : Record} {label : Option String} {name : String}
  {items : List (Option String × Handle)} {cells : List Handle} {pairs : List (Handle × Handle)}
  {k n L steps : Nat}

section Label

def IsLabel (h : Heap) (tag : Handle) : Option String → Prop
  | some name => (name, tag) ∈ h.symbols
  | none => tag = h.nil

theorem isLabel_installLabel (h : Heap) (label : Option String) :
    (h.installLabel label).2.IsLabel (h.installLabel label).1 label := by
  cases label with
  | some name => exact h.mem_symbols_install name
  | none => rfl

theorem IsLabel.keep (ht : h.IsLabel tag label) (hk : Keeps h g) : g.IsLabel tag label := by
  cases label with
  | some name => exact hk.symbols.subset ht
  | none => exact ht.trans hk.nil.symm

theorem IsLabel.installLabel_eq {log : List Deed} (ht : h.IsLabel tag label) (hn : Named log h) :
    h.installLabel label = (tag, h) := by
  cases label with
  | some name => exact hn.install_eq ht
  | none => exact congrArg (·, h) ht.symm

end Label

section Link

/-- The items hang in a chain of new cells, which are all protected. -/
structure Links (h : Heap) (items : List (Option String × Handle)) (p : Handle × Heap)
    (cells : List Handle) (pairs : List (Handle × Handle)) : Prop where
  isList : p.2.IsList p.1 cells pairs
  entries : List.Forall₂ (fun item pair ↦ p.2.IsLabel pair.1 item.1 ∧ pair.2 = item.2) items pairs
  rooted : cells ⊆ p.2.rootHandles []
  tagOf : ∀ c ∈ cells, p.2.tagOf c = .ok .pairlist
  fresh : ∀ x r, h.Lasts [] x r → x ∉ cells

theorem Links.cons {p q : Handle × Heap} {value : Handle} (hl : Links h items p cells pairs)
    (hpq : Grows p.2 0 q.2) (hp : Proper p.2.arena) (hnil : q.2.isLive q.2.nil = true)
    (hq : q.2.IsLabel q.1 label) (hlast : ∀ x r, h.Lasts [] x r → q.2.Lasts [] x r)
    {s : Handle × Heap} (hs : q.2.alloc .pairlist (.cell value p.1 q.1) = s)
    (hn : Numbered s.2.arena) :
    Links h ((label, value) :: items) (s.1, s.2.protect s.1) (s.1 :: cells)
      ((q.1, value) :: pairs) := by
  subst hs
  let s := q.2.alloc .pairlist (.cell value p.1 q.1)
  have hqs : Grows q.2 1 (s.2.protect s.1) :=
    (q.2.grows_alloc .pairlist (.cell value p.1 q.1) rfl (by decide)).trans (s.2.grows_protect s.1)
  have hps : Grows p.2 1 (s.2.protect s.1) := by simpa using hpq.trans hqs
  have hpq' : Proper q.2.arena := hpq.evolves.proper hp
  have hnew := q.2.get?_alloc hpq' hn
  -- The older cells are protected, so they have the records that they had.
  have hold : ∀ b ∈ cells, (s.2.protect s.1).arena.get? b = p.2.arena.get? b := fun b hb ↦
    hps.get?_eq hp hn b (.root (hl.rooted hb) (hl.isList.isLive hp hb))
  refine ⟨.cons ?_ (readCell_of_get? hnew rfl) ?_, .cons ⟨?_, rfl⟩ ?_, ?_, ?_, ?_⟩
  · rw [hqs.toContinues.nil]
    exact fun he ↦ not_isLive_alloc hpq' hn (he ▸ hnil)
  · exact hl.isList.frame hps.toContinues.nil fun b hb ↦ readCell_congr (hold b hb)
  · exact hq.keep hqs.toContinues.keeps
  · exact hl.entries.imp fun _ _ he ↦ ⟨he.1.keep hps.toContinues.keeps, he.2⟩
  · exact List.cons_subset.mpr ⟨s.2.mem_rootHandles_protect s.1, fun b hb ↦
      hps.toContinues.mem_rootHandles (hl.rooted hb)⟩
  · exact List.forall_mem_cons.mpr ⟨tagOf_of_get? hnew, fun b hb ↦
      (tagOf_congr (hold b hb)).trans (hl.tagOf b hb)⟩
  · exact fun x r hx ↦ List.not_mem_cons_of_ne_of_not_mem ((hlast x r hx).ne_alloc hpq' hn)
      (hl.fresh x r hx)

theorem links_link (hp : Proper h.arena) (hnil : h.isLive h.nil = true)
    (hn : Numbered (link items h).2.arena) :
    ∃ cells pairs, Links h items (link items h) cells pairs := by
  induction items with
  | nil => exact ⟨[], [], .nil, .nil, List.nil_subset _, nofun, fun _ _ _ ↦ List.not_mem_nil⟩
  | cons item items ih =>
    obtain ⟨label, value⟩ := item
    rw [link_cons] at hn ⊢
    let p := link items h
    let q := p.2.installLabel label
    have hpq := p.2.grows_installLabel label
    have hnq : Numbered q.2.arena :=
      (q.2.continues_alloc .pairlist (.cell value p.1 q.1) rfl).numbered hn
    have hnp : Numbered p.2.arena := hpq.toContinues.numbered hnq
    have hhp := h.continues_link items
    have hpp : Proper p.2.arena := hhp.evolves.proper hp
    obtain ⟨cells, pairs, hl⟩ := ih hnp
    exact ⟨_, _, hl.cons hpq hpp ((hhp.keeps.trans hpq.toContinues.keeps).isLive_nil hnil)
      (p.2.isLabel_installLabel label) (fun x r hx ↦ (hx.link hp hnp).installLabel hpp hnq) rfl hn⟩

end Link

section Walk

theorem IsList.trailFrom_of_lt (hl : h.IsList c cells pairs) (hkL : k ≤ L)
    (hL : L < k + pairs.length) (hsteps : L - k < steps) (before : List (Handle × Handle)) :
    (Walk.trailFrom h.nextCell steps ⟨c, k, L, false⟩ before).1 =
      ⟨before.reverse ++ pairs.take (L - k), some (.denied (.traversalLimit L))⟩ := by
  induction hl generalizing k steps before with
  | nil =>
    rw [List.length_nil] at hL
    omega
  | @cons cell tag head tail cells pairs hne hc _ ih =>
    obtain ⟨steps, rfl⟩ := Nat.exists_eq_succ_of_ne_zero (Nat.ne_zero_of_lt hsteps)
    rw [List.length_cons] at hL
    rcases hkL.eq_or_lt with rfl | hlt
    · rw [Walk.trailFrom, nextCell_of_limit hne, Nat.sub_self, List.take_zero, List.append_nil]
    · rw [Walk.trailFrom, nextCell_of_readCell hc hne hlt,
        show L - k = (L - (k + 1)) + 1 by omega, List.take_succ_cons, ← List.singleton_append,
        ← List.append_assoc, ← List.reverse_cons]
      exact ih hlt (by omega) (by omega) _

end Walk

/-- What the cells of a list of items are to hold: for each item the symbol of its name, or `nil`,
and its value. -/
def entriesOf (h : Heap) (items : List (Option String × Handle)) : List (Handle × Handle) :=
  items.map fun item ↦ ((h.installLabel item.1).1, item.2)

/-- A list of the items has been made, in cells of its own. -/
structure Enumerates (h : Heap) (items : List (Option String × Handle)) (p : Handle × Heap) :
    Prop where
  installed : ∀ item ∈ items, (p.2.installLabel item.1).2 = p.2
  cells : ∃ cells, p.2.IsList p.1 cells (p.2.entriesOf items) ∧ cells.length = items.length ∧
    cells.Nodup ∧ (∀ c ∈ cells, p.2.tagOf c = .ok .pairlist) ∧
    ∀ x, h.isLive x = true → x ∉ cells
  empty : items = [] → p.1 = h.nil
  trail : ∀ L, items.length ≤ L →
    ((Walk.start p.1 L).trail p.2.nextCell).1 = ⟨p.2.entriesOf items, none⟩
  trail_of_lt : ∀ L, L < items.length →
    ((Walk.start p.1 L).trail p.2.nextCell).1 =
      ⟨(p.2.entriesOf items).take L, some (.denied (.traversalLimit L))⟩
  values : ∀ item ∈ items, h.isLive item.2 = true → p.2.isLive item.2 = true

theorem entriesOf_eq {log : List Deed} (hn : Named log h)
    (hl : List.Forall₂ (fun item pair ↦ h.IsLabel pair.1 item.1 ∧ pair.2 = item.2) items pairs) :
    h.entriesOf items = pairs ∧ ∀ item ∈ items, (h.installLabel item.1).2 = h := by
  induction hl with
  | nil => exact ⟨rfl, nofun⟩
  | @cons item pair items pairs he _ ih =>
    obtain ⟨label, value⟩ := item
    obtain ⟨tag, head⟩ := pair
    obtain ⟨ht, rfl⟩ := he
    have hlabel := ht.installLabel_eq hn
    refine ⟨?_, List.forall_mem_cons.mpr ⟨congrArg Prod.snd hlabel, ih.2⟩⟩
    rw [entriesOf, List.map_cons, hlabel]
    exact congrArg _ ih.1

/-- In every heap a list is made of the items that are given, also if every allocation on the way
starts with a collection. The slots must not outnumber the 32 bits of their numbers. -/
theorem Arises.pairlist_enumerates (ha : Arises h) (items : List (Option String × Handle))
    (hn : Numbered (h.pairlist items).2.arena) : Enumerates h items (h.pairlist items) := by
  let g := items.foldl (fun h item ↦ h.protect item.2) h
  have hg := h.continues_foldl_protect Prod.snd items
  have hnl : Numbered (link items g).2.arena := by
    unfold pairlist at hn
    rwa [arena_unprotect] at hn
  obtain ⟨cells, pairs, hl⟩ :=
    links_link (hg.evolves.proper ha.proper) (hg.keeps.isLive_nil ha.isLive_nil) hnl
  -- The protections are taken back in the end, which changes no record and no symbol.
  let p := h.pairlist items
  have hk : Keeps (link items g).2 p.2 := keeps_unprotect _ _
  have harena : p.2.arena = (link items g).2.arena := arena_unprotect _ _
  have hlist : p.2.IsList p.1 cells pairs :=
    hl.isList.frame hk.nil fun c _ ↦ readCell_congr (by rw [harena])
  have hp : Arises p.2 := ha.run (.update (.pairlist items)) trivial
  obtain ⟨log, hnamed⟩ := hp.named hn
  obtain ⟨rfl, hinstalled⟩ := entriesOf_eq hnamed
    (hl.entries.imp fun _ _ he ↦ ⟨he.1.keep hk, he.2⟩)
  have hlength : (p.2.entriesOf items).length = items.length := List.length_map ..
  refine ⟨hinstalled, ⟨cells, hlist, hlist.length_eq.trans hlength, hlist.nodup, fun c hc ↦ ?_,
    fun x hx ↦ ?_⟩, ?_, fun L hL ↦ ?_, fun L hL ↦ ?_, fun item hi ↦ isLive_pairlist items hi⟩
  · exact (tagOf_congr (by rw [harena])).trans (hl.tagOf c hc)
  · obtain ⟨r, hr⟩ := get?_of_isLive hx
    have hlast : h.Lasts [] x r := .inl hr
    exact hl.fresh x r (hlast.foldl_protect Prod.snd items)
  · rintro rfl
    rfl
  · rw [← hlength] at hL
    exact hlist.trailFrom ((Nat.zero_add _).trans_le hL) (Nat.lt_succ_of_le hL) []
  · rw [← hlength] at hL
    exact hlist.trailFrom_of_lt L.zero_le (hL.trans_eq (Nat.zero_add _).symm) L.lt_succ_self []

theorem pairlist_enumerates_of_repeated_name :
    let v := (create 0 1).newInteger [1]
    let items := [(some "a", v.1), (none, v.1), (some "a", v.2.nil)]
    Arises v.2 ∧ v.2.isDue = true ∧ Numbered (v.2.pairlist items).2.arena ∧
      Enumerates v.2 items (v.2.pairlist items) := by
  intro v items
  have ha : Arises v.2 := .run (.update (.newInteger [1])) (.create 0 1) trivial
  have hn : Numbered (v.2.pairlist items).2.arena := by decide +kernel
  exact ⟨ha, by decide +kernel, hn, Arises.pairlist_enumerates ha items hn⟩

end TaggedHeap.Heap
