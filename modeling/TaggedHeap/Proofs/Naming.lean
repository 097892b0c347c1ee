import TaggedHeap.Proofs.Symbols
import TaggedHeap.Proofs.Walking

namespace TaggedHeap.Heap

open Arena TaggedHeap.Action

variable {h : Heap} {x c s v tag list : Handle} {name other : String} {log : List Deed}
  {test test' : Handle → Except Failure Bool} {ordinal threshold : Nat}

section Search

/-- A cell of the list has this tag. Cells beyond the limit of walks do not count. -/
def Tags (h : Heap) (list tag : Handle) : Prop :=
  ∃ n < Walk.defaultLimit, ∃ c, h.along .tail list n = .ok c ∧ h.project c .tag = .ok tag

theorem foldUntil_congr {β : Type} {e e' : β → Handle × Handle → Except Failure (β ⊕ β)}
    (hp : Proper h.arena) {steps : Nat} {w : Walk} {b : β}
    (he : ∀ n, w.walked + n < w.limit → ∀ c tag, h.along .tail w.cursor n = .ok c →
      h.project c .tag = .ok tag → ∀ b head, e b (tag, head) = e' b (tag, head)) :
    Walk.foldUntil h.nextCell e steps w b = Walk.foldUntil h.nextCell e' steps w b := by
  induction steps generalizing w b with
  | zero => rfl
  | succ steps ih =>
    rw [Walk.foldUntil, Walk.foldUntil]
    split
    · rfl
    · rfl
    · next cell w' hnext =>
      obtain ⟨tag, head⟩ := cell
      obtain ⟨hlt, htag, tail, htail, rfl⟩ := exists_of_nextCell hp hnext
      rw [he 0 hlt w.cursor tag rfl htag b head]
      split
      · rfl
      · rfl
      · refine ih fun n hn c tag hc ht ↦ he (n + 1) ?_ c tag ((along_cons htail n).trans hc) ht
        simp only [Walk.moveTo] at hn
        omega

theorem findHead_congr (hp : Proper h.arena) (ht : ∀ tag, h.Tags list tag → test tag = test' tag) :
    h.findHead test list = h.findHead test' list := by
  unfold findHead
  refine foldUntil_congr hp fun n hn c tag hc htag b head ↦ ?_
  rw [Walk.start, Nat.zero_add] at hn
  rw [ht tag ⟨n, hn, c, hc, htag⟩]

theorem foldUntil_ne {α β : Type} {next : Walk → Step α} {e : β → α → Except Failure (β ⊕ β)}
    {b b' : β} (he : ∀ a, e b a = .ok (.inr b)) (hne : b ≠ b') (steps : Nat) (w : Walk) :
    Walk.foldUntil next e steps w b ≠ .ok b' := by
  have hstart : (.ok b : Except Failure β) ≠ .ok b' := fun h ↦ hne (Except.ok.inj h)
  induction steps generalizing w with
  | zero => exact hstart
  | succ steps ih =>
    rw [Walk.foldUntil]
    split
    · exact hstart
    · intro h
      cases h
    · rw [he]
      exact ih _

theorem findHead_of_false (h : Heap) (list v : Handle) :
    h.findHead (fun _ ↦ .ok false) list ≠ .ok (some v) := by
  unfold findHead
  exact foldUntil_ne (fun _ ↦ rfl) (Option.some_ne_none v).symm _ _

end Search

section Tag

/-- The tag is `nil`, or a symbol of the table whose text is its name. -/
def Speaks (h : Heap) (tag : Handle) : Prop :=
  tag = h.nil ∨ ∃ name, (name, tag) ∈ h.symbols ∧ h.symbolText tag = .ok name

def hasText (h : Heap) (name : String) (tag : Handle) : Except Failure Bool :=
  if tag = h.nil then .ok false else (fun text ↦ text == name) <$> h.symbolText tag

theorem Named.ne_nil (hn : Named log h) (hnil : h.tagOf h.nil = .ok .null)
    (hs : (name, s) ∈ h.symbols) : s ≠ h.nil := by
  obtain ⟨r, hr, ht, -⟩ := hn.symbol name s hs
  exact ne_nil_of_tagOf hnil ((tagOf_of_get? hr).trans (congrArg _ ht)) nofun

theorem hasText_of_symbolText (hn : Named log h) (hnil : h.tagOf h.nil = .ok .null)
    (hs : (other, tag) ∈ h.symbols) (ht : h.symbolText tag = .ok other) :
    h.hasText name tag = .ok (other == name) := by
  rw [hasText, if_neg (hn.ne_nil hnil hs), ht]
  rfl

theorem Speaks.hasText_eq (ht : h.Speaks tag) (hn : Named log h)
    (hnil : h.tagOf h.nil = .ok .null) (hs : (name, s) ∈ h.symbols) :
    h.hasText name tag = .ok (tag == s) := by
  rcases ht with rfl | ⟨other, hother, htext⟩
  · rw [hasText, if_pos rfl, beq_false_of_ne (hn.ne_nil hnil hs).symm]
  · rw [hasText_of_symbolText hn hnil hother htext, Except.ok.injEq, Bool.eq_iff_iff, beq_iff_eq,
      beq_iff_eq]
    constructor
    · rintro rfl
      exact congrArg Prod.snd (List.inj_on_of_nodup_map hn.names hother hs rfl)
    · rintro rfl
      exact congrArg Prod.fst (List.inj_on_of_nodup_map hn.handles hother hs rfl)

theorem Speaks.hasText_eq_false (ht : h.Speaks tag) (hn : Named log h)
    (hnil : h.tagOf h.nil = .ok .null) (hname : h.symbols.lookup name = none) :
    h.hasText name tag = .ok false := by
  rcases ht with rfl | ⟨other, hother, htext⟩
  · rw [hasText, if_pos rfl]
  · have hne : other ≠ name :=
      bne_iff_ne.mp (List.lookup_eq_none_iff.mp hname (other, tag) hother) ∘ Eq.symm
    rw [hasText_of_symbolText hn hnil hother htext, beq_false_of_ne hne]

end Tag

theorem attributeByName_eq (hn : Named log h) (hp : Proper h.arena)
    (hnil : h.tagOf h.nil = .ok .null) (hs : (name, s) ∈ h.symbols)
    (ht : ∀ list tag, h.attributesOf x = .ok list → h.Tags list tag → h.Speaks tag) :
    h.attributeByName x name = h.attributeBySymbol x s := by
  rw [attributeByName, attributeBySymbol]
  refine bind_congr_of_ok fun list hlist ↦ findHead_congr hp fun tag htag ↦ ?_
  exact (ht list tag hlist htag).hasText_eq hn hnil hs

theorem attributeByName_ne_some (hn : Named log h) (hp : Proper h.arena)
    (hnil : h.tagOf h.nil = .ok .null) (hname : h.symbols.lookup name = none)
    (ht : ∀ list tag, h.attributesOf x = .ok list → h.Tags list tag → h.Speaks tag) :
    h.attributeByName x name ≠ .ok (some v) := by
  intro hv
  obtain ⟨list, hlist, hfind⟩ := exists_of_bind_eq_ok hv
  refine h.findHead_of_false list v (Eq.trans ?_ hfind)
  refine (findHead_congr hp fun tag htag ↦ ?_).symm
  exact (ht list tag hlist htag).hasText_eq_false hn hnil hname

/-- The tag is `nil`, or a symbol of the table whose print name the program has never changed. -/
def Unrenamed (h : Heap) (program : List Action) (tag : Handle) : Prop :=
  tag = (runAll h program).nil ∨ ∃ name, (name, tag) ∈ (runAll h program).symbols ∧
    ¬ Overwrites h program tag

/-- What searches for an attribute by name and by symbol have to do with each other. -/
structure Concord (h : Heap) (x : Handle) (name : String) : Prop where
  of_installed : ∀ s, h.install name = (s, h) →
    h.attributeByName x name = h.attributeBySymbol x s
  of_unknown : h.symbols.lookup name = none → ∀ v, h.attributeByName x name ≠ .ok (some v)

theorem mem_symbols_of_install_eq (hs : h.install name = (s, h)) : (name, s) ∈ h.symbols := by
  have hm := h.mem_symbols_install name
  rwa [hs] at hm

/-- After any program, searches by name and by symbol agree on the attributes of every value whose
tags have kept their names, be it that they find the same, nothing, or a defect of the list. A name
without a symbol is not found. The slots must not outnumber the 32 bits of their numbers. -/
theorem searches_in_concord (ordinal threshold : Nat) (program : List Action) (x : Handle)
    (name : String) :
    let h := runAll (create ordinal threshold) program
    Numbered h.arena →
      (∀ list tag, h.attributesOf x = .ok list → h.Tags list tag →
        Unrenamed (create ordinal threshold) program tag) →
      Concord h x name := by
  intro h hn ht
  have ha : Arises h := arises_runAll (.create ordinal threshold) program
  have hk := kempt_create ordinal threshold
  obtain ⟨-, log, hm, hd⟩ := moves_runAll (.create ordinal threshold) hk program hn
  have hnamed := hm.named hk.proper hn (named_create ordinal threshold)
  rw [List.append_nil] at hnamed
  have hspeaks : ∀ list tag, h.attributesOf x = .ok list → h.Tags list tag → h.Speaks tag := by
    intro list tag hlist htag
    refine (ht list tag hlist htag).imp_right fun ⟨other, hother, hover⟩ ↦ ⟨other, hother, ?_⟩
    obtain ⟨r, hr, -, hname⟩ := hnamed.symbol other tag hother
    obtain ⟨p, hprint, hs⟩ := hname.resolve_left fun hren ↦ hover (overwrites_of_done (hd _ hren))
    exact symbolText_of_spells ha.proper hr hprint hs
  have hnil := ha.tagOf_nil hn
  exact ⟨fun s hs ↦ attributeByName_eq hnamed ha.proper hnil (mem_symbols_of_install_eq hs) hspeaks,
    fun hname _ ↦ attributeByName_ne_some hnamed ha.proper hnil hname hspeaks⟩

theorem along_of_error {f : Field} {failure : Failure} (hx : h.project x f = .error failure)
    (n : Nat) : h.along f x (n + 1) = .error failure := by
  induction n with
  | zero => exact (along_succ rfl).trans hx
  | succ n ih => exact bind_of_error ih _

theorem searches_in_concord_of_attribute :
    let v : Handle := ⟨8, 0⟩
    let s : Handle := ⟨10, 0⟩
    let program : List Action := [.request (.update (.newInteger [1])),
      .request (.update (.protect v)), .request (.update (.install "a")),
      .request (.update (.setAttribute v s v))]
    let h := runAll (create 0 1) program
    Numbered h.arena ∧
      (∀ list tag, h.attributesOf v = .ok list → h.Tags list tag →
        Unrenamed (create 0 1) program tag) ∧
      h.install "a" = (s, h) ∧ h.attributeBySymbol v s = .ok (some v) ∧ Concord h v "a" := by
  intro v s program h
  have hn : Numbered h.arena := by decide +kernel
  have ht : ∀ list tag, h.attributesOf v = .ok list → h.Tags list tag →
      Unrenamed (create 0 1) program tag := by
    rintro list tag hlist ⟨n, -, c, hc, htag⟩
    obtain rfl : list = ⟨11, 0⟩ :=
      Except.ok.inj (hlist.symm.trans (by decide +kernel : h.attributesOf v = .ok ⟨11, 0⟩))
    have htail : h.project ⟨11, 0⟩ .tail = .ok h.nil := by decide +kernel
    have hend : h.project h.nil .tail = .error (.mismatch (.tag .pairlist) .null) := by
      decide +kernel
    -- The list has one cell, and there is no way on from `nil`.
    obtain rfl : n = 0 := by
      rcases n with _ | _ | n
      · rfl
      · rw [along_cons htail] at hc
        obtain rfl : h.nil = c := Except.ok.inj hc
        exact nomatch htag.symm.trans (by decide +kernel :
          h.project h.nil .tag = .error (.mismatch (.tag .pairlist) .null))
      · rw [along_cons htail, along_of_error hend] at hc
        cases hc
    obtain rfl : (⟨11, 0⟩ : Handle) = c := Except.ok.inj hc
    obtain rfl : tag = s :=
      Except.ok.inj (htag.symm.trans (by decide +kernel : h.project ⟨11, 0⟩ .tag = .ok s))
    refine .inr ⟨"a", by decide +kernel, ?_⟩
    rintro ⟨before, value, after, hp, -⟩
    have hmem : .request (.update (.setField s .printName value)) ∈ program := by
      rw [hp]
      exact List.mem_append_right _ List.mem_cons_self
    simp [program] at hmem
  exact ⟨hn, ht, by decide +kernel, by decide +kernel, searches_in_concord 0 1 program v "a" hn ht⟩

end TaggedHeap.Heap
