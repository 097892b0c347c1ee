import TaggedHeap.Proofs.Atomicity
import TaggedHeap.Proofs.Walking

namespace TaggedHeap

namespace Heap

open Arena

variable {g h : Heap} {x y name value b c v tag head tail : Handle} {cells : List Handle}
  {pairs : List (Handle × Handle)} {n : Nat}

/-- Gives the first entry of the name the value, or adds such an entry at the end. -/
def assign (name value : Handle) : List (Handle × Handle) → List (Handle × Handle)
  | [] => [(name, value)]
  | (tag, head) :: pairs =>
    if tag = name then (tag, value) :: pairs else (tag, head) :: assign name value pairs

theorem lookup_assign (pairs : List (Handle × Handle)) :
    (assign name value pairs).lookup name = some value := by
  induction pairs with
  | nil => simp [assign]
  | cons pair pairs ih =>
    obtain ⟨tag, head⟩ := pair
    by_cases ht : tag = name
    · simp [assign, ht]
    · rw [assign, if_neg ht, List.lookup_cons, beq_false_of_ne (Ne.symm ht)]
      exact ih

theorem lookup_assign_of_ne (hc : c ≠ name) (pairs : List (Handle × Handle)) :
    (assign name value pairs).lookup c = pairs.lookup c := by
  induction pairs with
  | nil => rw [assign, List.lookup_cons, beq_false_of_ne hc]
  | cons pair pairs ih =>
    obtain ⟨tag, head⟩ := pair
    rw [assign]
    split_ifs with ht
    · rw [List.lookup_cons, List.lookup_cons, ht, beq_false_of_ne hc]
    · rw [List.lookup_cons, List.lookup_cons, ih]

theorem assign_of_not_mem (hm : name ∉ pairs.map Prod.fst) :
    assign name value pairs = pairs ++ [(name, value)] := by
  induction pairs with
  | nil => rfl
  | cons pair pairs ih =>
    obtain ⟨htag, hm⟩ := List.ne_and_not_mem_of_not_mem_cons hm
    rw [assign, if_neg (Ne.symm htag), ih hm, List.cons_append]

theorem length_assign_le (pairs : List (Handle × Handle)) :
    (assign name value pairs).length ≤ pairs.length + 1 := by
  induction pairs with
  | nil => exact le_rfl
  | cons pair pairs ih =>
    rw [assign]
    split_ifs
    · exact Nat.le_succ _
    · exact Nat.succ_le_succ ih

theorem map_fst_assign_of_mem (hm : name ∈ pairs.map Prod.fst) :
    (assign name value pairs).map Prod.fst = pairs.map Prod.fst := by
  induction pairs with
  | nil => cases hm
  | cons pair pairs ih =>
    rw [assign]
    split_ifs with ht
    · rfl
    · exact congrArg (pair.1 :: ·) (ih (List.mem_of_ne_of_mem (Ne.symm ht) hm))

theorem nodup_map_fst_assign (hp : (pairs.map Prod.fst).Nodup) :
    ((assign name value pairs).map Prod.fst).Nodup := by
  by_cases hm : name ∈ pairs.map Prod.fst
  · rwa [map_fst_assign_of_mem hm]
  · rw [assign_of_not_mem hm, List.map_append]
    exact List.concat_eq_append ▸ hp.concat hm

/-- The cells from a handle on, up to `nil`, with the tag and the head of each. -/
inductive IsList (h : Heap) : Handle → List Handle → List (Handle × Handle) → Prop
  | nil : IsList h h.nil [] []
  | cons {cell tag head tail : Handle} {cells : List Handle} {pairs : List (Handle × Handle)} :
      cell ≠ h.nil → h.readCell cell = .ok (tag, head, tail) → IsList h tail cells pairs →
      IsList h cell (cell :: cells) ((tag, head) :: pairs)

theorem IsList.length_eq (hl : h.IsList c cells pairs) : cells.length = pairs.length := by
  induction hl with
  | nil => rfl
  | cons _ _ _ ih => exact congrArg (· + 1) ih

theorem IsList.cells_eq (hl : h.IsList c cells pairs) {cells' : List Handle}
    {pairs' : List (Handle × Handle)} (hl' : h.IsList c cells' pairs') : cells' = cells := by
  induction hl generalizing cells' pairs' with
  | nil =>
    cases hl' with
    | nil => rfl
    | cons hne _ _ => exact absurd rfl hne
  | cons hne hc _ ih =>
    cases hl' with
    | nil => exact absurd rfl hne
    | cons _ hc' hl' =>
      cases hc.symm.trans hc'
      rw [ih hl']

theorem IsList.exists_of_mem (hl : h.IsList c cells pairs) (hb : b ∈ cells) :
    b ≠ h.nil ∧ (∃ tag head tail, h.readCell b = .ok (tag, head, tail)) ∧
      ∃ cells' pairs', h.IsList b cells' pairs' ∧ cells'.length ≤ cells.length := by
  induction hl with
  | nil => cases hb
  | @cons cell tag head tail cells pairs hne hc hl ih =>
    rcases List.mem_cons.mp hb with rfl | hb
    · exact ⟨hne, ⟨tag, head, tail, hc⟩, _, _, .cons hne hc hl, le_rfl⟩
    · obtain ⟨hbn, hread, cells', pairs', hl', hle⟩ := ih hb
      exact ⟨hbn, hread, cells', pairs', hl', hle.trans (Nat.le_succ _)⟩

/-- A list that comes to an end meets no cell twice. -/
theorem IsList.nodup (hl : h.IsList c cells pairs) : cells.Nodup := by
  induction hl with
  | nil => exact List.nodup_nil
  | cons hne hc hl ih =>
    refine List.nodup_cons.mpr ⟨fun hmem ↦ ?_, ih⟩
    obtain ⟨-, -, cells', pairs', hl', hle⟩ := hl.exists_of_mem hmem
    rw [(IsList.cons hne hc hl).cells_eq hl'] at hle
    exact Nat.not_succ_le_self _ hle

theorem IsList.isLive (hp : Proper h.arena) (hl : h.IsList c cells pairs) (hb : b ∈ cells) :
    h.isLive b = true := by
  obtain ⟨-, ⟨tag, head, tail, hc⟩, -⟩ := hl.exists_of_mem hb
  obtain ⟨r, hr, -⟩ := (readCell_eq_ok_iff hp.wellFormed).mp hc
  exact contains_of_get? hr

theorem IsList.reach (hp : Proper h.arena) {roots : List Handle} (hl : h.IsList c cells pairs)
    (hc : h.isLive c = true → Arena.Reach h.arena roots c) (hb : b ∈ cells) :
    Arena.Reach h.arena roots b := by
  induction hl with
  | nil => cases hb
  | @cons cell tag head tail cells pairs hne hread hl ih =>
    obtain ⟨r, hr, hpay⟩ := (readCell_eq_ok_iff hp.wellFormed).mp hread
    have hcell := hc (contains_of_get? hr)
    rcases List.mem_cons.mp hb with rfl | hb
    · exact hcell
    · refine ih (fun ht ↦ .link hcell ?_ ht) hb
      rw [linksOf_of_get? hr, Record.links, hpay]
      simp [Payload.children]

theorem IsList.frame (hl : h.IsList c cells pairs) (hnil : g.nil = h.nil)
    (hread : ∀ b ∈ cells, g.readCell b = h.readCell b) : g.IsList c cells pairs := by
  induction hl with
  | nil => exact hnil ▸ .nil
  | cons hne hc _ ih =>
    obtain ⟨hcell, hrest⟩ := List.forall_mem_cons.mp hread
    exact .cons (hnil ▸ hne) (hcell.trans hc) (ih hrest)

theorem searchFrom_nil (h : Heap) (name last : Handle) (n : Nat) :
    h.searchFrom name n h.nil last = .absent last := by
  cases n with
  | zero => exact if_pos rfl
  | succ n => exact if_pos rfl

theorem searchFrom_of_readCell (hp : Proper h.arena) (hne : c ≠ h.nil)
    (hc : h.readCell c = .ok (tag, head, tail)) (n : Nat) (last : Handle) :
    h.searchFrom name (n + 1) c last =
      if tag = name then .found c else h.searchFrom name n tail c := by
  obtain ⟨r, hr, hpay⟩ := (readCell_eq_ok_iff hp.wellFormed).mp hc
  rw [searchFrom, if_neg hne, hr, Option.map_some, hpay]

/-- The search goes no further than the cells: it finds the name in one of them, or comes to the end
after the last. -/
theorem IsList.searchFrom_cases (hp : Proper h.arena) (hl : h.IsList c cells pairs)
    (hn : cells.length ≤ n) (name last : Handle) :
    (∃ b ∈ cells, (∃ head tail, h.readCell b = .ok (name, head, tail)) ∧
        h.searchFrom name n c last = .found b) ∨
      name ∉ pairs.map Prod.fst ∧
        (cells = [] ∧ h.searchFrom name n c last = .absent last ∨
          ∃ b ∈ cells, (∃ tag head, h.readCell b = .ok (tag, head, h.nil)) ∧
            h.searchFrom name n c last = .absent b) := by
  induction hl generalizing n last with
  | nil => exact .inr ⟨List.not_mem_nil, .inl ⟨rfl, h.searchFrom_nil name last n⟩⟩
  | @cons cell tag head tail cells pairs hne hc hl ih =>
    obtain ⟨n, rfl⟩ := Nat.exists_eq_succ_of_ne_zero (Nat.ne_zero_of_lt hn)
    rw [searchFrom_of_readCell hp hne hc]
    by_cases ht : tag = name
    · exact .inl ⟨cell, List.mem_cons_self, ⟨head, tail, ht ▸ hc⟩, if_pos ht⟩
    · rw [if_neg ht]
      refine (ih (Nat.le_of_succ_le_succ hn) cell).imp ?_ ?_
      · rintro ⟨b, hb, hfound⟩
        exact ⟨b, List.mem_cons_of_mem _ hb, hfound⟩
      · rintro ⟨hmiss, hend⟩
        refine ⟨List.not_mem_cons_of_ne_of_not_mem (Ne.symm ht) hmiss, .inr ?_⟩
        rcases hend with ⟨rfl, hs⟩ | ⟨b, hb, hend⟩
        · cases hl
          exact ⟨cell, List.mem_cons_self, ⟨tag, head, hc⟩, hs⟩
        · exact ⟨b, List.mem_cons_of_mem _ hb, hend⟩

theorem IsList.search_cases (hp : Proper h.arena) (hl : h.IsList c cells pairs) (name : Handle) :
    (∃ b ∈ cells, (∃ head tail, h.readCell b = .ok (name, head, tail)) ∧
        h.search name c = .found b) ∨
      name ∉ pairs.map Prod.fst ∧
        (cells = [] ∧ h.search name c = .absent h.nil ∨
          ∃ b ∈ cells, (∃ tag head, h.readCell b = .ok (tag, head, h.nil)) ∧
            h.search name c = .absent b) :=
  hl.searchFrom_cases hp
    ((length_le_size hl.nodup fun _ ↦ hl.isLive hp).trans (Nat.le_succ _)) name h.nil

structure Rewrote (h : Heap) (b : Handle) (content : Handle × Handle × Handle) (g : Heap) :
    Prop where
  nil : g.nil = h.nil
  attributesOf : ∀ x, g.attributesOf x = h.attributesOf x
  readCell : g.readCell b = .ok content
  readCell_of_ne : ∀ c, c ≠ b → g.readCell c = h.readCell c

theorem readCell_of_get?_eq {r r' : Record} (hr : h.arena.get? c = some r)
    (hr' : g.arena.get? c = some r') (ht : r'.tag = r.tag) (hp : r'.payload = r.payload) :
    g.readCell c = h.readCell c := by
  rw [readCell, tagOf_of_get? hr', ok_bind, rawCell, raw_of_get? _ hr', readCell, tagOf_of_get? hr,
    ok_bind, rawCell, raw_of_get? _ hr, ht, hp]

theorem rewrote_setField (hp : Proper h.arena) {f : Field} {head' tail' tag' : Handle}
    (hc : h.readCell b = .ok (tag, head, tail))
    (hf : (Payload.cell head tail tag).setField? v f = some (.cell head' tail' tag')) :
    (h.setField b f v).1 = .ok () ∧ h.Rewrote b (tag', head', tail') (h.setField b f v).2 := by
  obtain ⟨r, hr, hpay⟩ := (readCell_eq_ok_iff hp.wellFormed).mp hc
  have hok : (h.setField b f v).1 = .ok () :=
    setField_of_setField? hr (hp.wellFormed.get? hr) (hpay ▸ hf) rfl v
  obtain ⟨_, hconcludes, -⟩ := h.concludes_setField b f v
  have hpg := hconcludes.evolves.proper hp
  rcases h.setField_cases b f v with ⟨q, payload, hq, hpayload, he⟩ | ⟨failure, he⟩
  · cases hr.symm.trans hq
    cases (hpay ▸ hpayload).symm.trans hf
    rw [he] at hpg ⊢
    let r' : Record := { r with payload := .cell head' tail' tag' }
    have hb : (h.arena.modify b fun _ ↦ r').get? b = some r' := by
      rw [get?_modify, if_pos rfl, hr, Option.map_some]
    have hne {c : Handle} (hc : c ≠ b) : (h.arena.modify b fun _ ↦ r').get? c = h.arena.get? c := by
      rw [get?_modify, if_neg (Ne.symm hc)]
    refine ⟨rfl, rfl, fun x ↦ ?_, ?_, fun c hc ↦ readCell_congr (hne hc)⟩
    · by_cases hx : x = b
      · subst hx
        rw [attributesOf_of_get? hr, attributesOf_of_get? hb]
      · exact attributesOf_congr (hne hx)
    · exact (readCell_eq_ok_iff hpg.wellFormed).mpr ⟨r', hb, rfl⟩
  · rw [he] at hok
    cases hok

theorem IsList.replace (hp : Proper h.arena) (hl : h.IsList c cells pairs) {last : Handle}
    (hs : h.searchFrom name n c last = .found b) (hb : h.readCell b = .ok (name, head, tail))
    (hg : h.Rewrote b (name, value, tail) g) : g.IsList c cells (assign name value pairs) := by
  have hnodup := hl.nodup
  induction hl generalizing n last with
  | nil =>
    rw [searchFrom_nil] at hs
    cases hs
  | @cons cell tag' head' tail' cells pairs hne hc hl ih =>
    obtain ⟨hmem, hnodup⟩ := List.nodup_cons.mp hnodup
    cases n with
    | zero =>
      rw [searchFrom, if_neg hne] at hs
      cases hs
    | succ n =>
      rw [searchFrom_of_readCell hp hne hc] at hs
      rw [assign]
      split_ifs at hs ⊢ with ht
      · cases hs
        cases hc.symm.trans hb
        refine .cons (hg.nil ▸ hne) hg.readCell (hl.frame hg.nil fun c hc ↦ ?_)
        exact hg.readCell_of_ne c fun he ↦ hmem (he ▸ hc)
      · have hcell : cell ≠ b := by
          rintro rfl
          cases hc.symm.trans hb
          exact ht rfl
        exact .cons (hg.nil ▸ hne) ((hg.readCell_of_ne cell hcell).trans hc) (ih hs hnodup)

theorem IsList.append (hl : h.IsList c cells pairs) (hmem : b ∈ cells)
    (hb : h.readCell b = .ok (tag, head, h.nil)) {cells' : List Handle}
    {pairs' : List (Handle × Handle)} (hg : h.Rewrote b (tag, head, v) g)
    (hrest : g.IsList v cells' pairs') : g.IsList c (cells ++ cells') (pairs ++ pairs') := by
  induction hl with
  | nil => cases hmem
  | @cons cell tag' head' tail' cells pairs hne hc hl ih =>
    by_cases hcell : cell = b
    · subst hcell
      cases hc.symm.trans hb
      cases hl with
      | nil => exact .cons (hg.nil ▸ hne) hg.readCell hrest
      | cons hnil => exact absurd rfl hnil
    · have hread := (hg.readCell_of_ne cell hcell).trans hc
      exact .cons (hg.nil ▸ hne) hread (ih (List.mem_of_ne_of_mem (Ne.symm hcell) hmem))

/-- The attributes of a value: the cells of the list, with the tag and the head of each. -/
def HasAttributes (h : Heap) (x : Handle) (cells : List Handle)
    (pairs : List (Handle × Handle)) : Prop :=
  ∃ list, h.attributesOf x = .ok list ∧ h.IsList list cells pairs

theorem HasAttributes.frame (hx : h.HasAttributes x cells pairs) (hnil : g.nil = h.nil)
    (hattributes : g.attributesOf x = h.attributesOf x)
    (hread : ∀ b ∈ cells, g.readCell b = h.readCell b) : g.HasAttributes x cells pairs := by
  obtain ⟨list, hlist, hl⟩ := hx
  exact ⟨list, hattributes.trans hlist, hl.frame hnil hread⟩

theorem HasAttributes.reach (hp : Proper h.arena) {roots : List Handle}
    (hx : h.HasAttributes x cells pairs) (hreach : Arena.Reach h.arena roots x) (hb : b ∈ cells) :
    Arena.Reach h.arena roots b := by
  obtain ⟨list, hlist, hl⟩ := hx
  obtain ⟨r, hr, he⟩ := exists_of_bind_eq_ok hlist
  cases he
  refine hl.reach hp (fun hlive ↦ .link hreach ?_ hlive) hb
  rw [linksOf_of_get? (get?_of_record hr)]
  exact List.mem_cons_self

theorem IsList.foldUntil {s : Handle} {f : Option Handle → Handle × Handle →
      Except Failure (Option Handle ⊕ Option Handle)} (hl : h.IsList c cells pairs)
    (hf : ∀ tag head, f none (tag, head) = .ok (if tag = s then .inl (some head) else .inr none))
    {k L steps : ℕ} (hL : k + pairs.length ≤ L) (hsteps : pairs.length < steps) :
    Walk.foldUntil h.nextCell f steps ⟨c, k, L, false⟩ none = .ok (pairs.lookup s) := by
  induction hl generalizing k steps with
  | nil =>
    obtain ⟨steps, rfl⟩ := Nat.exists_eq_succ_of_ne_zero (Nat.ne_zero_of_lt hsteps)
    rw [Walk.foldUntil, nextCell_nil]
    rfl
  | @cons cell tag head tail cells pairs hne hc _ ih =>
    obtain ⟨steps, rfl⟩ := Nat.exists_eq_succ_of_ne_zero (Nat.ne_zero_of_lt hsteps)
    rw [List.length_cons] at hL hsteps
    rw [Walk.foldUntil, nextCell_of_readCell hc hne (by omega), List.lookup_cons]
    dsimp only
    rw [hf]
    by_cases ht : tag = s
    · rw [if_pos ht, ht, BEq.rfl]
    · rw [if_neg ht, beq_false_of_ne (Ne.symm ht)]
      exact ih (by omega) (Nat.lt_of_succ_lt_succ hsteps)

theorem HasAttributes.attributeBySymbol (hx : h.HasAttributes x cells pairs)
    (hL : pairs.length ≤ Walk.defaultLimit) (s : Handle) :
    h.attributeBySymbol x s = .ok (pairs.lookup s) := by
  obtain ⟨list, hlist, hl⟩ := hx
  rw [Heap.attributeBySymbol, hlist, ok_bind]
  refine hl.foldUntil (fun tag head ↦ ?_) ((Nat.zero_add _).trans_le hL) (Nat.lt_succ_of_le hL)
  rw [ok_bind]
  by_cases ht : tag = s
  · rw [if_pos ht, ht, BEq.rfl]
    rfl
  · rw [if_neg ht, beq_false_of_ne ht]
    rfl

theorem IsList.trailFrom (hl : h.IsList c cells pairs) {k L steps : ℕ} (hL : k + pairs.length ≤ L)
    (hsteps : pairs.length < steps) (items : List (Handle × Handle)) :
    (Walk.trailFrom h.nextCell steps ⟨c, k, L, false⟩ items).1 =
      ⟨items.reverse ++ pairs, none⟩ := by
  induction hl generalizing k steps items with
  | nil =>
    obtain ⟨steps, rfl⟩ := Nat.exists_eq_succ_of_ne_zero (Nat.ne_zero_of_lt hsteps)
    rw [Walk.trailFrom, nextCell_nil, List.append_nil]
  | @cons cell tag head tail cells pairs hne hc _ ih =>
    obtain ⟨steps, rfl⟩ := Nat.exists_eq_succ_of_ne_zero (Nat.ne_zero_of_lt hsteps)
    rw [List.length_cons] at hL hsteps
    rw [Walk.trailFrom, nextCell_of_readCell hc hne (by omega), ← List.singleton_append,
      ← List.append_assoc, ← List.reverse_cons]
    exact ih (by omega) (Nat.lt_of_succ_lt_succ hsteps) _

theorem HasAttributes.trail (hx : h.HasAttributes x cells pairs) {L : ℕ} (hL : pairs.length ≤ L) :
    ∃ list, h.attributesOf x = .ok list ∧
      ((Walk.start list L).trail h.nextCell).1 = ⟨pairs, none⟩ := by
  obtain ⟨list, hlist, hl⟩ := hx
  exact ⟨list, hlist, hl.trailFrom ((Nat.zero_add _).trans_le hL) (Nat.lt_succ_of_le hL) []⟩

/-- An update has answered. The attributes of the value are now these, in the old cells and perhaps
in new ones after them, and the lists of others that it does not share cells with are as before. -/
structure Alters (h : Heap) (x : Handle) (cells : List Handle) (pairs : List (Handle × Handle))
    (o : Outcome Unit) : Prop where
  answer : o.1 = .ok ()
  attributes : ∃ added, o.2.HasAttributes x (cells ++ added) pairs
  others : ∀ y cells' pairs', y ≠ x → Arena.Reach h.arena (h.rootHandles []) y →
    cells.Disjoint cells' → h.HasAttributes y cells' pairs' → o.2.HasAttributes y cells' pairs'

theorem alters_of_found (hp : Proper h.arena) (hx : h.HasAttributes x cells pairs)
    {list : Handle} (hlist : h.attributesOf x = .ok list) (hb : b ∈ cells)
    (hread : h.readCell b = .ok (name, head, tail)) (hs : h.search name list = .found b) :
    h.Alters x cells (assign name value pairs) (h.setField b .head value) := by
  obtain ⟨hok, hg⟩ := rewrote_setField (v := value) (f := .head) hp hread rfl
  refine ⟨hok, ⟨[], list, (hg.attributesOf x).trans hlist, ?_⟩, fun y cells' pairs' _ _ hd hy ↦ ?_⟩
  · obtain ⟨list', hlist', hl⟩ := hx
    cases hlist.symm.trans hlist'
    rw [List.append_nil]
    exact hl.replace hp hs hread hg
  · exact hy.frame hg.nil (hg.attributesOf y) fun c hc ↦
      hg.readCell_of_ne c fun he ↦ hd hb (he ▸ hc)

/-- A new cell has been made, and nothing has happened to what the roots lead to. -/
structure Gained (h : Heap) (fresh : Handle) (content : Handle × Handle × Handle) (g : Heap) :
    Prop where
  nil : g.nil = h.nil
  readCell : g.readCell fresh = .ok content
  not_isLive : ¬ h.isLive fresh = true
  get?_eq : ∀ x, Arena.Reach h.arena (h.rootHandles []) x → g.arena.get? x = h.arena.get? x

theorem gained_alloc (hp : Proper h.arena)
    (hn : Numbered (h.alloc .pairlist (.cell value tail name)).2.arena) :
    h.Gained (h.alloc .pairlist (.cell value tail name)).1 (name, value, tail)
      (h.alloc .pairlist (.cell value tail name)).2 where
  nil := (h.continues_alloc .pairlist (.cell value tail name) rfl).nil
  readCell := readCell_of_get? (h.get?_alloc hp hn) rfl
  not_isLive := not_isLive_alloc hp hn
  get?_eq _ := get?_alloc_of_reach hp hn

theorem Gained.hasAttributes {fresh : Handle} {content : Handle × Handle × Handle}
    (hg : h.Gained fresh content g) (hp : Proper h.arena)
    (hreach : Arena.Reach h.arena (h.rootHandles []) x) (hx : h.HasAttributes x cells pairs) :
    g.HasAttributes x cells pairs :=
  hx.frame hg.nil (attributesOf_congr (hg.get?_eq x hreach)) fun b hb ↦
    readCell_congr (hg.get?_eq b (hx.reach hp hreach hb))

theorem alters_of_last (hp : Proper h.arena) (hnil : h.isLive h.nil = true)
    (hx : h.HasAttributes x cells pairs) (hreach : Arena.Reach h.arena (h.rootHandles []) x)
    (hb : b ∈ cells) (hread : h.readCell b = .ok (tag, head, h.nil)) {fresh : Handle}
    (hg : h.Gained fresh (name, value, h.nil) g) (hpg : Proper g.arena) :
    h.Alters x cells (pairs ++ [(name, value)]) (g.setField b .tail fresh) := by
  have hbreach := hx.reach hp hreach hb
  have hbg : g.readCell b = .ok (tag, head, g.nil) :=
    (readCell_congr (hg.get?_eq b hbreach)).trans (hg.nil ▸ hread)
  obtain ⟨hok, hset⟩ := rewrote_setField (v := fresh) (f := .tail) hpg hbg rfl
  have hne {c : Handle} (hc : h.isLive c = true) : fresh ≠ c := fun he ↦ hg.not_isLive (he ▸ hc)
  have hlast : (g.setField b .tail fresh).2.IsList fresh [fresh] [(name, value)] := by
    have hnil' := hset.nil.trans hg.nil
    refine .cons (hnil' ▸ hne hnil) ?_ .nil
    rw [hset.readCell_of_ne fresh (hne hbreach.contains), hg.readCell, hnil']
  refine ⟨hok, ⟨[fresh], ?_⟩, fun y cells' pairs' _ hyreach hd hy ↦ ?_⟩
  · obtain ⟨list, hlist, hl⟩ := hg.hasAttributes hp hreach hx
    exact ⟨list, (hset.attributesOf x).trans hlist, hl.append hb hbg hset hlast⟩
  · exact (hg.hasAttributes hp hyreach hy).frame hset.nil (hset.attributesOf y) fun c hc ↦
      hset.readCell_of_ne c fun he ↦ hd hb (he ▸ hc)

structure Adorned (h : Heap) (x v : Handle) (g : Heap) : Prop where
  nil : g.nil = h.nil
  attributesOf : g.attributesOf x = .ok v
  attributesOf_of_ne : ∀ y, y ≠ x → g.attributesOf y = h.attributesOf y
  readCell : ∀ c, g.readCell c = h.readCell c

theorem adorned_setAttributes (hl : h.isLive x = true) (v : Handle) :
    h.Adorned x v (h.setAttributes x v).2 := by
  have hok := setAttributes_of_isLive hl v
  rcases h.setAttributes_cases x v with ⟨r, hr, he⟩ | ⟨failure, he⟩
  · rw [he]
    let r' : Record := { r with attributes := v }
    have hx : (h.arena.modify x fun _ ↦ r').get? x = some r' := by
      rw [get?_modify, if_pos rfl, hr, Option.map_some]
    have hne {y : Handle} (hy : y ≠ x) : (h.arena.modify x fun _ ↦ r').get? y = h.arena.get? y := by
      rw [get?_modify, if_neg (Ne.symm hy)]
    refine ⟨rfl, ?_, fun y hy ↦ attributesOf_congr (hne hy), fun c ↦ ?_⟩
    · exact attributesOf_of_get? (r := r') hx
    · by_cases hc : c = x
      · subst hc
        exact readCell_of_get?_eq hr hx rfl rfl
      · exact readCell_congr (hne hc)
  · rw [he] at hok
    cases hok

theorem alters_of_empty (hp : Proper h.arena) (hnil : h.isLive h.nil = true)
    (hreach : Arena.Reach h.arena (h.rootHandles []) x) {fresh : Handle}
    (hg : h.Gained fresh (name, value, h.nil) g) :
    h.Alters x [] [(name, value)] (g.setAttributes x fresh) := by
  have hlive : g.isLive x = true := by
    rw [isLive, contains, hg.get?_eq x hreach]
    exact hreach.contains
  have hset := adorned_setAttributes hlive fresh
  have hnil' := hset.nil.trans hg.nil
  refine ⟨setAttributes_of_isLive hlive fresh, ⟨[fresh], fresh, hset.attributesOf, ?_⟩,
    fun y cells' pairs' hne hyreach _ hy ↦ ?_⟩
  · refine .cons (fun he ↦ hg.not_isLive (he.trans hnil' ▸ hnil)) ?_ .nil
    rw [hset.readCell, hg.readCell, hnil']
  · exact (hg.hasAttributes hp hyreach hy).frame hset.nil (hset.attributesOf_of_ne y hne)
      fun c _ ↦ hset.readCell c

theorem alters_setAttributeProtected (hp : Proper h.arena) (hnil : h.isLive h.nil = true)
    (hroot : x ∈ h.rootHandles []) (hx : h.HasAttributes x cells pairs)
    (hn : Numbered (h.setAttributeProtected x name value).2.arena) :
    h.Alters x cells (assign name value pairs) (h.setAttributeProtected x name value) := by
  obtain ⟨list, hlist, hl⟩ := hx
  obtain ⟨r, hr, he⟩ := exists_of_bind_eq_ok hlist
  obtain rfl : r.attributes = list := Except.ok.inj he
  have hreach : Arena.Reach h.arena (h.rootHandles []) x :=
    .root hroot (contains_of_get? (get?_of_record hr))
  let a := h.alloc .pairlist (.cell value h.nil name)
  have hc : Continues h 0 a.2 := h.continues_alloc .pairlist (.cell value h.nil name) rfl
  rcases hl.search_cases hp name with ⟨b, hb, ⟨head, tail, hread⟩, hs⟩ | ⟨hmiss, hend⟩
  · simp only [setAttributeProtected, hr, hs]
    exact alters_of_found hp ⟨_, hlist, hl⟩ hlist hb hread hs
  · rw [assign_of_not_mem hmiss]
    rcases hend with ⟨rfl, hs⟩ | ⟨b, hb, ⟨tag, head, hread⟩, hs⟩
    · have ho : h.setAttributeProtected x name value = a.2.setAttributes x a.1 := by
        simp only [setAttributeProtected, hr, hs, a, if_pos hc.nil.symm]
      obtain rfl : pairs = [] := List.length_eq_zero_iff.mp hl.length_eq.symm
      rw [ho] at hn ⊢
      exact alters_of_empty hp hnil hreach
        (gained_alloc hp ((rewrites_setAttributes _ _ _).course.numbered hn))
    · have hbn : b ≠ a.2.nil := hc.nil ▸ (hl.exists_of_mem hb).1
      have ho : h.setAttributeProtected x name value = a.2.setField b .tail a.1 := by
        simp only [setAttributeProtected, hr, hs, a, if_neg hbn]
      rw [ho] at hn ⊢
      exact alters_of_last hp hnil ⟨_, hlist, hl⟩ hreach hb hread
        (gained_alloc hp ((rewrites_setField _ _ _ _).course.numbered hn)) (hc.evolves.proper hp)

theorem hasAttributes_congr (harena : g.arena = h.arena) (hnil : g.nil = h.nil) :
    g.HasAttributes x cells pairs ↔ h.HasAttributes x cells pairs := by
  have hcongr {a b : Heap} (harena : a.arena = b.arena) (hnil : a.nil = b.nil)
      (hx : b.HasAttributes x cells pairs) : a.HasAttributes x cells pairs :=
    hx.frame hnil (attributesOf_congr (by rw [harena])) fun c _ ↦ readCell_congr (by rw [harena])
  exact ⟨hcongr harena.symm hnil.symm, hcongr harena hnil⟩

theorem nil_unprotectAfter {α : Type} (n : Nat) (o : Outcome α) :
    (unprotectAfter n o).2.nil = o.2.nil := by
  unfold unprotectAfter
  split
  · rfl
  · unfold unprotect
    split <;> rfl

theorem alters_setAttribute (hp : Proper h.arena) (hnil : h.isLive h.nil = true)
    (hn : Numbered (h.setAttribute x name value).2.arena) (hx : h.HasAttributes x cells pairs) :
    h.Alters x cells (assign name value pairs) (h.setAttribute x name value) := by
  let q := (h.protect x).protect value
  let o := q.setAttributeProtected x name value
  have hgrows : Grows h 2 q := (h.grows_protect x).trans ((h.protect x).grows_protect value)
  have hroot : x ∈ q.rootHandles [] := h.mem_rootHandles_protect_protect x value
  have hno : Numbered o.2.arena := by rwa [setAttribute, arena_unprotectAfter] at hn
  have hnq := (q.course_setAttributeProtected x name value).numbered hno
  have hbefore {y : Handle} {cells : List Handle} {pairs : List (Handle × Handle)}
      (hy : h.HasAttributes y cells pairs) : q.HasAttributes y cells pairs :=
    (hasAttributes_congr (g := q) (h := h) rfl rfl).mpr hy
  have hafter {y : Handle} {cells : List Handle} {pairs : List (Handle × Handle)}
      (hy : o.2.HasAttributes y cells pairs) :
      (h.setAttribute x name value).2.HasAttributes y cells pairs :=
    (hasAttributes_congr (arena_unprotectAfter 2 o) (nil_unprotectAfter 2 o)).mpr hy
  have ho := alters_setAttributeProtected (h := q) hp hnil hroot (hbefore hx) hno
  obtain ⟨added, hattributes⟩ := ho.attributes
  refine ⟨(fst_unprotectAfter 2 o).trans ho.answer, ⟨added, hafter hattributes⟩,
    fun y cells' pairs' hne hreach hd hy ↦ ?_⟩
  exact hafter (ho.others y cells' pairs' hne (hgrows.reach hp hnq hreach) hd (hbefore hy))

/-- An attribute is set as in a map that keeps the order of its entries. -/
structure Assigns (h : Heap) (x name value : Handle) (cells : List Handle)
    (pairs : List (Handle × Handle)) (o : Outcome Unit) : Prop
    extends Alters h x cells (assign name value pairs) o where
  trail : pairs.length < Walk.defaultLimit → ∃ list, o.2.attributesOf x = .ok list ∧
    ((Walk.start list Walk.defaultLimit).trail o.2.nextCell).1 = ⟨assign name value pairs, none⟩
  lookup : pairs.length < Walk.defaultLimit → o.2.attributeBySymbol x name = .ok (some value)
  lookup_of_ne : pairs.length < Walk.defaultLimit → ∀ other, other ≠ name →
    o.2.attributeBySymbol x other = h.attributeBySymbol x other
  distinct : (pairs.map Prod.fst).Nodup → ((assign name value pairs).map Prod.fst).Nodup

/-- In every heap, whether a collection runs or not, setting an attribute of a value whose list of
attributes ends with `nil` changes this one entry. The slots must not outnumber the 32 bits of their
numbers. -/
theorem Arises.setAttribute_assigns (ha : Arises h)
    (hn : Numbered (h.setAttribute x name value).2.arena) (hx : h.HasAttributes x cells pairs) :
    Assigns h x name value cells pairs (h.setAttribute x name value) := by
  have halters := alters_setAttribute ha.proper ha.isLive_nil hn hx
  obtain ⟨added, hattributes⟩ := halters.attributes
  refine ⟨halters, fun hL ↦ ?_, fun hL ↦ ?_, fun hL other hne ↦ ?_, nodup_map_fst_assign⟩
  · exact hattributes.trail ((length_assign_le pairs).trans hL)
  · rw [hattributes.attributeBySymbol ((length_assign_le pairs).trans hL), lookup_assign]
  · rw [hattributes.attributeBySymbol ((length_assign_le pairs).trans hL), lookup_assign_of_ne hne,
      hx.attributeBySymbol hL.le]

theorem Arises.setAttribute (ha : Arises h) (x name value : Handle) :
    Arises (h.setAttribute x name value).2 :=
  ha.run (.update (.setAttribute x name value)) trivial

theorem setAttribute_assigns_of_collection :
    let v := (create 0 1).newInteger [1]
    let h := (v.2.setAttribute v.1 v.2.dimSymbol v.1).2
    Arises h ∧ h.isDue = true ∧ Numbered (h.setAttribute v.1 h.namesSymbol v.1).2.arena ∧
      ∃ cells, h.HasAttributes v.1 cells [(v.2.dimSymbol, v.1)] ∧
        Assigns h v.1 h.namesSymbol v.1 cells [(v.2.dimSymbol, v.1)]
          (h.setAttribute v.1 h.namesSymbol v.1) := by
  intro v h
  have hv : Arises v.2 := .run (.update (.newInteger [1])) (.create 0 1) trivial
  have ha : Arises h := hv.setAttribute v.1 v.2.dimSymbol v.1
  have hn : Numbered (h.setAttribute v.1 h.namesSymbol v.1).2.arena := by decide +kernel
  have hlist : v.2.attributesOf v.1 = .ok v.2.nil := by decide +kernel
  have hplain : v.2.HasAttributes v.1 [] [] := ⟨v.2.nil, hlist, .nil⟩
  have hnv : Numbered h.arena := by decide +kernel
  obtain ⟨cells, hx⟩ := (Arises.setAttribute_assigns hv hnv hplain).attributes
  exact ⟨ha, by decide +kernel, hn, cells, hx, Arises.setAttribute_assigns ha hn hx⟩

end Heap

end TaggedHeap
