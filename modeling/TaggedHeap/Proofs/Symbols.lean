import TaggedHeap.Proofs.Chronicle

namespace TaggedHeap.Heap

open Arena TaggedHeap.Action

variable {g h h' : Heap} {x : Handle} {name other : String} {ds log log' since : List Deed}
  {ordinal threshold : Nat}

theorem Enters.not_mem (he : Enters h name x h') : name ∉ h.symbols.map Prod.fst := by
  intro hm
  obtain ⟨entry, hentry, rfl⟩ := List.mem_map.mp hm
  exact bne_iff_ne.mp (List.lookup_eq_none_iff.mp he.unknown entry hentry) rfl

/-- What is always true of the table of symbols. The log tells which symbols have been renamed. -/
structure Named (log : List Deed) (h : Heap) : Prop where
  names : (h.symbols.map Prod.fst).Nodup
  handles : (h.symbols.map Prod.snd).Nodup
  unbound : h.isLive h.unbound = true ∧ h.unbound ∉ h.symbols.map Prod.snd
  symbol : ∀ name x, (name, x) ∈ h.symbols → ∃ r, h.arena.get? x = some r ∧ r.tag = .symbol ∧
    (.renamed x ∈ log ∨ ∃ p, printName? r = some p ∧ h.Spells p (Text.Utf8.encode name))

theorem Named.mono (hn : Named log h) (hl : ∀ x, .renamed x ∈ log → .renamed x ∈ log') :
    Named log' h := by
  refine ⟨hn.names, hn.handles, hn.unbound, fun name x hx ↦ ?_⟩
  obtain ⟨r, hr, ht, hname⟩ := hn.symbol name x hx
  exact ⟨r, hr, ht, hname.imp_left (hl x)⟩

theorem Named.isLive (hn : Named log h) (hx : x ∈ h.symbols.map Prod.snd) : h.isLive x = true := by
  obtain ⟨⟨name, y⟩, hy, rfl⟩ := List.mem_map.mp hx
  obtain ⟨r, hr, -⟩ := hn.symbol name y hy
  exact contains_of_get? hr

theorem mem_linksOf_of_printName? {r : Record} {p : Handle} (hx : h.arena.get? x = some r)
    (hp : printName? r = some p) : p ∈ h.arena.linksOf x := by
  rw [linksOf_of_get? hx]
  exact List.mem_cons_of_mem _ (Payload.mem_children_iff.mpr (.inl ⟨_, hp⟩))

theorem Carries.symbol (hc : Carries h ds h') (hn : Named log h) (hx : (name, x) ∈ h.symbols) :
    ∃ r, h'.arena.get? x = some r ∧ r.tag = .symbol ∧
      (.renamed x ∈ ds ++ log ∨ ∃ p, printName? r = some p ∧
        h'.Spells p (Text.Utf8.encode name)) := by
  have hmem : x ∈ h.symbols.map Prod.snd := List.mem_map_of_mem hx
  obtain ⟨r, hr, ht, hname⟩ := hn.symbol name x hx
  have hl : h'.isLive x = true := hc.live x (by simp [core, hmem]) (hn.isLive hmem)
  obtain ⟨r', hr', hrev, hsame⟩ := hc.get? hr hl
  refine ⟨r', hr', hrev.tag.trans ht, ?_⟩
  rcases hname with hname | ⟨p, hp, hs⟩
  · exact .inl (List.mem_append_right _ hname)
  · rcases hsame with hsame | hsame
    · have hp' := hsame.trans hp
      have hlive := hc.linked x p hl (mem_linksOf_of_printName? hr' hp') hs.isLive
      exact .inr ⟨p, hp', hc.spells hs hlive⟩
    · exact .inl (List.mem_append_left _ hsame)

theorem Carries.named (hc : Carries h ds h') (hn : Named log h) : Named (ds ++ log) h' := by
  have hunbound : h'.unbound = h.unbound := congrArg (fun v ↦ v.2.2.1) hc.values
  have hlive : h'.isLive h'.unbound = true := by
    rw [hunbound]
    exact hc.live _ (by simp [core]) hn.unbound.1
  rcases hc.enters with hs | ⟨name, x, he⟩
  · refine ⟨hs ▸ hn.names, hs ▸ hn.handles, ⟨hlive, ?_⟩, fun name x hx ↦ hc.symbol hn (hs ▸ hx)⟩
    rw [hs, hunbound]
    exact hn.unbound.2
  · have hfresh : x ∉ h.symbols.map Prod.snd := fun hx ↦ he.fresh (hn.isLive hx)
    have hne : h.unbound ≠ x := fun hu ↦ he.fresh (hu ▸ hn.unbound.1)
    obtain ⟨r, p, hr, ht, hp, hspells⟩ := he.symbol
    have hs := he.symbols
    refine ⟨?_, ?_, ⟨hlive, ?_⟩, fun other y hy ↦ ?_⟩
    · rw [hs, List.map_cons, List.nodup_cons]
      exact ⟨he.not_mem, hn.names⟩
    · rw [hs, List.map_cons, List.nodup_cons]
      exact ⟨hfresh, hn.handles⟩
    · rw [hs, hunbound, List.map_cons, List.mem_cons, not_or]
      exact ⟨hne, hn.unbound.2⟩
    · rw [hs] at hy
      rcases List.mem_cons.mp hy with hy | hy
      · cases hy
        have hl := hc.linked x p (contains_of_get? hr) (mem_linksOf_of_printName? hr hp)
          hspells.isLive
        exact ⟨r, hr, ht, .inr ⟨p, hp, hc.spells hspells hl⟩⟩
      · exact hc.symbol hn hy

theorem Moves.named (hm : Moves h since h') (hp : Proper h.arena) (hn : Numbered h'.arena)
    (hh : Named log h) : Named (since ++ log) h' :=
  hm.preserve (I := Named) log hp hn hh fun _ _ _ _ hp hn hh hm ↦ (hm.carries hp hn).named hh

theorem named_create (ordinal threshold : Nat) : Named [] (create ordinal threshold) := by
  refine create_induction (I := Named []) (fun seed ↦ ?_) (fun g ds k _ _ hc hd hg ↦ ?_)
    (fun g x hx hs _ ↦ ?_) (fun g dim names threshold hg ↦ ?_) ordinal threshold
  · exact ⟨List.nodup_nil, List.nodup_nil, ⟨(coherent_bare seed).isLive_nil, List.not_mem_nil⟩,
      nofun⟩
  · refine (hc.named hg).mono fun x hx ↦ ?_
    rw [List.append_nil] at hx
    exact absurd hx (hd x)
  · refine ⟨?_, ?_, ⟨hx, ?_⟩, ?_⟩
    · simp [hs]
    · simp [hs]
    · simp [hs]
    · simp [hs]
  · exact ⟨hg.names, hg.handles, hg.unbound, hg.symbol⟩

theorem Named.lookup (hn : Named log h) (hx : (name, x) ∈ h.symbols) :
    h.symbols.lookup name = some x :=
  lookup_of_mem hn.names hx

theorem Named.install_eq (hn : Named log h) (hx : (name, x) ∈ h.symbols) :
    h.install name = (x, h) := by
  rw [install, hn.lookup hx]

theorem mem_symbols_install (h : Heap) (name : String) :
    (name, (h.install name).1) ∈ (h.install name).2.symbols := by
  unfold install
  split
  · next x hx => exact mem_of_lookup hx
  · exact List.mem_cons_self

theorem mem_symbols_link {items : List (Option String × Handle)} {value : Handle}
    (hi : (some name, value) ∈ items) : ∃ x, (name, x) ∈ (link items h).2.symbols := by
  induction items with
  | nil => cases hi
  | cons item items ih =>
    obtain ⟨name?, value'⟩ := item
    let p := link items h
    have hcell (q : Handle × Heap) (tail : Handle) :
        (q.2.alloc .pairlist (.cell value' tail q.1)).2.symbols = q.2.symbols :=
      q.2.symbols_alloc _ _
    rcases List.mem_cons.mp hi with hi | hi
    · cases hi
      exact ⟨_, (hcell (p.2.install name) p.1).symm ▸ p.2.mem_symbols_install name⟩
    · obtain ⟨x, hx⟩ := ih hi
      refine ⟨x, ?_⟩
      cases name? with
      | none => exact (hcell (p.2.nil, p.2) p.1).symm ▸ hx
      | some other =>
        have hx := (p.2.continues_install other).symbols.subset hx
        exact (hcell (p.2.install other) p.1).symm ▸ hx

end TaggedHeap.Heap

namespace TaggedHeap

/-- The action asks for the symbol of a name, by itself or on its way. -/
inductive Action.Installs (name : String) : Action → Prop
  | install : Installs name (.request (.update (.install name)))
  | define (x value : Handle) : Installs name (.request (.update (.define x name value)))
  | pairlist {items : List (Option String × Handle)} {value : Handle} :
      (some name, value) ∈ items → Installs name (.request (.update (.pairlist items)))

namespace Heap

open Arena TaggedHeap.Action

variable {h h' : Heap} {x : Handle} {name : String} {a : Action} {log : List Deed}

theorem mem_symbols_of_installs (ha : a.Installs name) (h : Heap) :
    ∃ x, (name, x) ∈ (a.run h).2.symbols ∧
      (a = .request (.update (.install name)) → (a.run h).1 = .ok (.handle x)) := by
  cases ha with
  | install => exact ⟨_, h.mem_symbols_install name, fun _ ↦ rfl⟩
  | define x value =>
    let q := (h.protect x).protect value
    have hb := (q.builds_of_install x name value).trans
      ((Builds.refl (q.defineProtected x name value).2).unprotectAfter 2)
    exact ⟨_, hb.keeps.symbols.subset (q.mem_symbols_install name), nofun⟩
  | pairlist hi =>
    obtain ⟨x, hx⟩ := mem_symbols_link hi
    exact ⟨x, (symbols_unprotect _ _).symm ▸ hx, nofun⟩

def Overwrites (h : Heap) (program : List Action) (x : Handle) : Prop :=
  ∃ before value after,
    program = before ++ .request (.update (.setField x .printName value)) :: after ∧
      ((Update.setField x .printName value).run (runAll h before)).1 = .ok .absent

theorem overwrites_of_done {program : List Action} (hd : Done h program (.renamed x)) :
    Overwrites h program x := by
  obtain ⟨before, a, after, rfl, u, rfl, value, rfl, he⟩ := hd
  exact ⟨before, value, after, rfl, he⟩

theorem Arises.named (ha : Arises h) (hn : Numbered h.arena) : ∃ log, Named log h := by
  obtain ⟨ordinal, threshold, program, rfl⟩ := exists_program ha
  have hk := kempt_create ordinal threshold
  obtain ⟨-, log, hl, -⟩ := moves_runAll (.create ordinal threshold) hk program hn
  exact ⟨_, hl.named hk.proper hn (named_create ordinal threshold)⟩

/-- The handle is the symbol of the name, now and as long as the heap moves on. -/
structure SymbolOf (h : Heap) (name : String) (x : Handle) : Prop where
  install_eq : h.install name = (x, h)
  install_eq_of_moves : ∀ log g, Moves h log g → Numbered g.arena → g.install name = (x, g)
  tagOf : h.tagOf x = .ok .symbol
  ne_unbound : x ≠ h.unbound
  eq_of_install : ∀ other, Numbered (h.install other).2.arena → (h.install other).1 = x →
    other = name

theorem Named.symbolOf (hn : Named log h) (hk : Kempt h) (hx : (name, x) ∈ h.symbols) :
    SymbolOf h name x := by
  have hmoves {since : List Deed} {g : Heap} (hm : Moves h since g) (hg : Numbered g.arena) :=
    hm.named hk.proper hg hn
  obtain ⟨r, hr, ht, -⟩ := hn.symbol name x hx
  refine ⟨hn.install_eq hx, fun since g hm hg ↦ ?_, ?_, fun he ↦ ?_, fun other hother he ↦ ?_⟩
  · exact (hmoves hm hg).install_eq (hm.keeps.symbols.subset hx)
  · rw [tagOf_of_get? hr, ht]
  · exact hn.unbound.2 (he ▸ List.mem_map_of_mem hx)
  · obtain ⟨since, hm, -⟩ := builds_install hk hother
    have hentry := he ▸ h.mem_symbols_install other
    have hsame := List.inj_on_of_nodup_map (hmoves hm hother).handles hentry
      (hm.keeps.symbols.subset hx) rfl
    exact congrArg Prod.fst hsame

theorem symbolText_of_spells {r : Record} {p : Handle} (hp : Proper h.arena)
    (hr : h.arena.get? x = some r) (hname : printName? r = some p)
    (hs : h.Spells p (Text.Utf8.encode name)) : h.symbolText x = .ok name := by
  have hproject : h.project x .printName = .ok p := by
    rw [project_of_get? hr (hp.wellFormed.get? hr), orRefuse_eq_ok_iff]
    exact hname
  have hdecode : Text.Utf8.decode (Text.Utf8.encode name) = .ok name :=
    (Text.Utf8.decode_eq_ok_iff _ _).mpr rfl
  rw [symbolText, hproject, ok_bind, charText, (charBytes_eq_ok_iff hp).mpr hs, ok_bind, hdecode]
  rfl

theorem runAll_append (h : Heap) (before after : List Action) :
    runAll h (before ++ after) = runAll (runAll h before) after :=
  List.foldl_append

/-- Once an action has asked for the symbol of a name, the name has this symbol for ever. The text
of the symbol is the name unless the program has changed it. The slots must not outnumber the 32
bits of their numbers. -/
theorem symbol_for_ever (ordinal threshold : Nat) (before : List Action) (ha : a.Installs name) :
    ∃ x, (a = .request (.update (.install name)) →
        (a.run (runAll (create ordinal threshold) before)).1 = .ok (.handle x)) ∧
      ∀ after, Numbered (runAll (create ordinal threshold) (before ++ a :: after)).arena →
        SymbolOf (runAll (create ordinal threshold) (before ++ a :: after)) name x ∧
        (¬ Overwrites (create ordinal threshold) (before ++ a :: after) x →
          (runAll (create ordinal threshold) (before ++ a :: after)).symbolText x = .ok name) := by
  obtain ⟨x, hx, hanswer⟩ := mem_symbols_of_installs ha (runAll (create ordinal threshold) before)
  refine ⟨x, hanswer, fun after hn ↦ ?_⟩
  have hk := kempt_create ordinal threshold
  obtain ⟨hkempt, log, hm, hd⟩ := moves_runAll (.create ordinal threshold) hk _ hn
  have hnamed := hm.named hk.proper hn (named_create ordinal threshold)
  have hlater : (name, x) ∈
      (runAll (create ordinal threshold) (before ++ a :: after)).symbols := by
    rw [runAll_append]
    exact (keeps_runAll after _).symbols.subset hx
  refine ⟨hnamed.symbolOf hkempt hlater, fun hover ↦ ?_⟩
  obtain ⟨r, hr, -, hname⟩ := hnamed.symbol name x hlater
  rcases hname with hname | ⟨p, hp, hs⟩
  · rw [List.append_nil] at hname
    exact absurd (overwrites_of_done (hd _ hname)) hover
  · exact symbolText_of_spells hkempt.proper hr hp hs

/-- The symbol of the empty name is not the marker of symbols without a value, which has the same
text, and outlives the collections that every allocation starts with. -/
theorem symbol_for_ever_of_empty_name :
    let h := runAll (create 0 1) [.request (.update (.install "")),
      .request (.update (.newInteger [1])), .request (.update .collect)]
    ∃ x, SymbolOf h "" x ∧ h.symbolText x = .ok "" := by
  obtain ⟨x, -, hx⟩ := symbol_for_ever 0 1 [] (Installs.install : Installs "" _)
  have hn : Numbered (runAll (create 0 1) [.request (.update (.install "")),
      .request (.update (.newInteger [1])), .request (.update .collect)]).arena := by
    decide +kernel
  obtain ⟨hs, htext⟩ := hx [.request (.update (.newInteger [1])), .request (.update .collect)] hn
  refine ⟨x, hs, htext ?_⟩
  rintro ⟨before, value, after, hp, -⟩
  have hmem : .request (.update (.setField x .printName value)) ∈
      before ++ .request (.update (.setField x .printName value)) :: after :=
    List.mem_append_right _ List.mem_cons_self
  rw [← hp] at hmem
  simp at hmem

end Heap

end TaggedHeap
