import TaggedHeap.Proofs.Atomicity
import TaggedHeap.Proofs.Moves
import TaggedHeap.Proofs.Program

namespace TaggedHeap

namespace Payload

variable {p q : Payload} {x : Handle} {f : Field}

theorem bytes?_setField? (h : p.setField? x f = some q) : q.bytes? = p.bytes? := by
  cases p <;> cases f <;> cases h <;> rfl

theorem texts_setField? (h : p.setField? x f = some q) : q.texts = p.texts := by
  cases p <;> cases f <;> cases h <;> rfl

theorem printName_setField? (h : p.setField? x f = some q) (hf : f ≠ .printName) :
    q.field? .printName = p.field? .printName := by
  cases p <;> cases f <;> cases h <;> first | rfl | exact absurd rfl hf

theorem bytes?_setValue (i : Nat) (x : Handle) (p : Payload) :
    (p.setValue i x).bytes? = p.bytes? := by
  cases p <;> rfl

theorem texts_setValue (i : Nat) (x : Handle) (p : Payload) : (p.setValue i x).texts = p.texts := by
  cases p <;> rfl

theorem printName_setValue (i : Nat) (x : Handle) (p : Payload) :
    (p.setValue i x).field? .printName = p.field? .printName := by
  cases p <;> rfl

end Payload

namespace Heap

open Arena

variable {a b c h h' : Heap} {x y : Handle} {k n : Nat} {r : Record} {tag : TypeTag}
  {payload : Payload} {f : Field} {α : Type}

/-- What operations rely on when they start, and keep while they make records. -/
structure Kempt (h : Heap) : Prop where
  proper : Proper h.arena
  interned : Interned h
  missing : h.IsText h.missingString

theorem Grows.isText (hg : Grows a k b) (hp : Proper a.arena) (hn : Numbered b.arena)
    (hx : Arena.Reach a.arena (a.rootHandles []) x) (ht : a.IsText x) : b.IsText x := by
  obtain ⟨bytes, r, hr, hb⟩ := ht
  exact ⟨bytes, r, (hg.get?_eq hp hn x hx).trans hr, hb⟩

theorem Grows.kempt (hg : Grows a k b) (ha : Kempt a) (hn : Numbered b.arena) : Kempt b where
  proper := hg.evolves.proper ha.proper
  interned := hg.interned ha.proper hn ha.interned
  missing := by
    have hm : b.missingString = a.missingString := congrArg (fun v ↦ v.2.1) hg.values
    have hroot : a.missingString ∈ a.rootHandles [] := mem_rootHandles.mpr (.inr (.inl rfl))
    rw [hm]
    exact hg.isText ha.proper hn (.root hroot ha.missing.isLive) ha.missing

/-- A run of moves that makes records and does nothing else worth an account. -/
def Builds (h h' : Heap) : Prop :=
  ∃ log, Moves h log h' ∧ ∀ d ∈ log, ∃ freed, d = .allocated freed

theorem Builds.refl (h : Heap) : Builds h h :=
  ⟨[], .refl, nofun⟩

theorem Builds.trans (hab : Builds a b) (hbc : Builds b c) : Builds a c := by
  obtain ⟨log, hl, hd⟩ := hab
  obtain ⟨since, hs, hd'⟩ := hbc
  exact ⟨since ++ log, hl.trans hs, List.forall_mem_append.mpr ⟨hd', hd⟩⟩

/-- Only what no account is kept of has changed. -/
def Aside (h h' : Heap) : Prop :=
  ∃ roots chars journal, h' = { h with roots := roots, chars := chars, journal := journal }

theorem Aside.moves (ha : Aside h h') : Moves h [] h' := by
  obtain ⟨roots, chars, journal, rfl⟩ := ha
  exact (Move.aside roots chars journal).moves

theorem Aside.builds (ha : Aside h h') : Builds h h' :=
  ⟨[], ha.moves, nofun⟩

theorem Aside.refl (h : Heap) : Aside h h :=
  ⟨_, _, _, rfl⟩

theorem Aside.report (ha : Aside h h') (e : Event) : Aside h (h'.report e) := by
  obtain ⟨roots, chars, journal, rfl⟩ := ha
  exact ⟨_, _, _, rfl⟩

theorem aside_unprotect (h : Heap) (n : Nat) : Aside h (h.unprotect n) := by
  unfold unprotect
  split <;> exact ⟨_, _, _, rfl⟩

theorem aside_unprotectHandle (h : Heap) (x : Handle) : Aside h (h.unprotectHandle x) := by
  unfold unprotectHandle
  split <;> exact ⟨_, _, _, rfl⟩

theorem aside_release (h : Heap) (x : Handle) : Aside h (h.release x) := by
  unfold release
  split <;> exact ⟨_, _, _, rfl⟩

theorem builds_protect (h : Heap) (x : Handle) : Builds h (h.protect x) :=
  Aside.builds ⟨_, _, _, rfl⟩

theorem builds_unprotect (h : Heap) (n : Nat) : Builds h (h.unprotect n) :=
  (h.aside_unprotect n).builds

theorem Builds.keeps (hb : Builds a b) : Keeps a b := by
  obtain ⟨log, hl, -⟩ := hb
  exact hl.keeps

theorem Builds.unprotectAfter {o : Outcome α} (n : Nat) (ho : Builds h o.2) :
    Builds h (unprotectAfter n o).2 := by
  refine ho.trans ?_
  unfold Heap.unprotectAfter
  split
  · exact .refl _
  · exact builds_unprotect _ n

theorem builds_alloc_of_texts (hf : payload.fits tag = true)
    (ht : ∀ y ∈ payload.texts, h.IsText y) : Builds h (h.alloc tag payload).2 :=
  ⟨_, (Move.alloc hf ht).moves, List.forall_mem_singleton.mpr ⟨_, rfl⟩⟩

theorem builds_alloc (h : Heap) (tag : TypeTag) (payload : Payload) (hf : payload.fits tag = true)
    (ht : payload.texts = []) : Builds h (h.alloc tag payload).2 :=
  builds_alloc_of_texts hf fun _ hy ↦ absurd hy (ht ▸ List.not_mem_nil)

theorem builds_rewrite {g : Record → Record}
    (hg : ∀ r, h.arena.get? x = some r → h.Revises r (g r) ∧ printName? (g r) = printName? r) :
    Builds h { h with arena := h.arena.modify x g } :=
  ⟨[], (Move.rewrite hg).moves, nofun⟩

theorem builds_replace {r' : Record} (hx : h.arena.get? x = some r) (hr : h.Revises r r')
    (hp : printName? r' = printName? r) :
    Builds h { h with arena := h.arena.modify x fun _ ↦ r' } := by
  apply builds_rewrite
  intro q hq
  obtain rfl := Option.some.inj (hx.symm.trans hq)
  exact ⟨hr, hp⟩

theorem builds_intern (h : Heap) (bytes : List UInt8) : Builds h (h.intern bytes).2 := by
  unfold intern
  split
  · exact .refl h
  · exact (h.builds_alloc .char (.char bytes) rfl rfl).trans (Aside.builds ⟨_, _, _, rfl⟩)

theorem spells_intern {bytes : List UInt8} (hk : Kempt h) (hn : Numbered (h.intern bytes).2.arena) :
    (h.intern bytes).2.Spells (h.intern bytes).1 bytes := by
  obtain ⟨hi, hx⟩ := hk.interned.intern hk.proper bytes hn
  exact hi.spells bytes _ hx

theorem builds_install {name : String} (hk : Kempt h) (hn : Numbered (h.install name).2.arena) :
    Builds h (h.install name).2 := by
  unfold install at hn ⊢
  split
  · exact .refl h
  · next hname =>
    rw [hname] at hn
    dsimp only at hn
    rw [arena_unprotect] at hn
    let p := h.internText name
    let q := p.2.protect p.1
    let s := q.alloc .symbol (.symbol p.1 q.unbound q.nil)
    have hpn : Numbered p.2.arena := (q.continues_alloc .symbol _ rfl).numbered hn
    have hlookup : q.symbols.lookup name = none := by
      rw [← hname, ← h.symbols_intern (Text.Utf8.encode name)]
      rfl
    have hs : q.Spells p.1 (Text.Utf8.encode name) := spells_intern hk hpn
    have hm : Builds q { s.2 with symbols := (name, s.1) :: q.symbols } :=
      ⟨_, (Move.enter hlookup hs).moves, List.forall_mem_singleton.mpr ⟨_, rfl⟩⟩
    have hq : Builds h q := (h.builds_intern _).trans (p.2.builds_protect p.1)
    refine (hq.trans hm).trans (Aside.builds ?_)
    dsimp only
    rw [symbols_unprotect, symbols_alloc]
    obtain ⟨roots, chars, journal, he⟩ := s.2.aside_unprotect 1
    refine ⟨roots, chars, journal, ?_⟩
    exact congrArg (fun h ↦ { h with symbols := (name, s.1) :: q.symbols }) he

theorem builds_internAll (values : List (Option String)) (h : Heap) :
    Builds h (internAll values h).2 := by
  induction values generalizing h with
  | nil => exact .refl h
  | cons value values ih =>
    cases value with
    | none => exact (h.builds_protect h.missingString).trans (ih _)
    | some text =>
      let p := h.internText text
      exact ((h.builds_intern _).trans (p.2.builds_protect p.1)).trans (ih _)

theorem isText_internAll (values : List (Option String)) (hk : Kempt h)
    (hn : Numbered (internAll values h).2.arena) :
    ∀ y ∈ (internAll values h).1, (internAll values h).2.IsText y := by
  induction values generalizing h with
  | nil => exact nofun
  | cons value values ih =>
    have hcons (p : Handle × Heap) (hp : Kempt p.2) (hx : p.2.IsText p.1)
        (hn : Numbered (internAll values (p.2.protect p.1)).2.arena) :
        ∀ y ∈ p.1 :: (internAll values (p.2.protect p.1)).1,
          (internAll values (p.2.protect p.1)).2.IsText y := by
      have hg := grows_internAll values (p.2.protect p.1)
      have hq := (p.2.grows_protect p.1).kempt hp (hg.toContinues.numbered hn)
      have hroot := p.2.mem_rootHandles_protect p.1
      refine List.forall_mem_cons.mpr ⟨?_, ih hq hn⟩
      exact hg.isText hq.proper hn (.root hroot hx.isLive) hx
    cases value with
    | none => exact hcons (h.missingString, h) hk hk.missing hn
    | some text =>
      let p := h.internText text
      have hpn : Numbered p.2.arena :=
        (grows_internAll values (p.2.protect p.1)).toContinues.numbered hn
      exact hcons p ((h.grows_intern _).kempt hk hpn) ⟨_, spells_intern hk hpn⟩ hn

theorem builds_newString (values : List (Option String)) (hk : Kempt h)
    (hn : Numbered (h.newString values).2.arena) : Builds h (h.newString values).2 := by
  unfold newString at hn ⊢
  dsimp only at hn ⊢
  rw [arena_unprotect] at hn
  let p := internAll values h
  have hpn : Numbered p.2.arena := (p.2.continues_alloc .string _ rfl).numbered hn
  have ha : Builds p.2 (p.2.alloc .string (.strings p.1.toArray)).2 :=
    builds_alloc_of_texts rfl (isText_internAll values hk hpn)
  exact ((builds_internAll values h).trans ha).trans (builds_unprotect _ _)

theorem builds_link (items : List (Option String × Handle)) (hk : Kempt h)
    (hn : Numbered (link items h).2.arena) : Builds h (link items h).2 := by
  induction items with
  | nil => exact .refl h
  | cons item items ih =>
    obtain ⟨name, value⟩ := item
    have hcell (q : Handle × Heap) (tail : Handle) :
        Builds q.2 ((q.2.alloc .pairlist (.cell value tail q.1)).2.protect
          (q.2.alloc .pairlist (.cell value tail q.1)).1) :=
      (q.2.builds_alloc .pairlist (.cell value tail q.1) rfl rfl).trans (builds_protect _ _)
    let p := link items h
    cases name with
    | none =>
      have hpn : Numbered p.2.arena := (p.2.continues_alloc .pairlist _ rfl).numbered hn
      exact (ih hpn).trans (hcell (p.2.nil, p.2) p.1)
    | some name =>
      have hqn : Numbered (p.2.install name).2.arena :=
        (continues_alloc _ .pairlist _ rfl).numbered hn
      have hpn : Numbered p.2.arena := (p.2.continues_install name).numbered hqn
      have hp := (grows_link items h).kempt hk hpn
      exact ((ih hpn).trans (builds_install hp hqn)).trans (hcell (p.2.install name) p.1)

theorem builds_foldl_protect (g : α → Handle) (items : List α) (h : Heap) :
    Builds h (items.foldl (fun h item ↦ h.protect (g item)) h) := by
  induction items generalizing h with
  | nil => exact .refl h
  | cons item items ih => exact (h.builds_protect (g item)).trans (ih _)

theorem builds_pairlist {items : List (Option String × Handle)} (hk : Kempt h)
    (hn : Numbered (h.pairlist items).2.arena) : Builds h (h.pairlist items).2 := by
  unfold pairlist at hn ⊢
  dsimp only at hn ⊢
  rw [arena_unprotect] at hn
  let g := items.foldl (fun h item ↦ h.protect item.2) h
  have hgn : Numbered g.arena := (continues_link g items).numbered hn
  have hg : Kempt g := (grows_foldl_protect Prod.snd items h).kempt hk hgn
  have hl := (builds_foldl_protect Prod.snd items h).trans (builds_link items hg hn)
  exact hl.trans (builds_unprotect _ _)

theorem revises_setField? {q : Payload} {value : Handle}
    (hp : r.payload.setField? value f = some q) : h.Revises r { r with payload := q } where
  marked := rfl
  tag := rfl
  wellFormed := (Payload.fits_setField? hp r.tag).trans
  bytes := Payload.bytes?_setField? hp
  texts _ hy := .inl (Payload.texts_setField? hp ▸ hy)

theorem moves_setField (h : Heap) (x : Handle) (f : Field) (value : Handle) :
    ∃ log, Moves h log (h.setField x f value).2 ∧
      ∀ d ∈ log, d = .renamed x ∧ f = .printName ∧ (h.setField x f value).1 = .ok () := by
  rcases h.setField_cases x f value with ⟨r, q, hx, hp, he⟩ | ⟨failure, he⟩
  · rw [he]
    have hr : ∀ r', h.arena.get? x = some r' → h.Revises r' { r with payload := q } := by
      intro r' hr'
      obtain rfl := Option.some.inj (hx.symm.trans hr')
      exact revises_setField? hp
    by_cases hf : f = .printName
    · exact ⟨_, (Move.rename hr).moves, List.forall_mem_singleton.mpr ⟨rfl, hf, rfl⟩⟩
    · refine ⟨[], (Move.rewrite fun r' hr' ↦ ⟨hr r' hr', ?_⟩).moves, nofun⟩
      obtain rfl := Option.some.inj (hx.symm.trans hr')
      exact Payload.printName_setField? hp hf
  · rw [he]
    exact ⟨[], .refl, nofun⟩

theorem builds_setField (h : Heap) (x value : Handle) (hf : f ≠ .printName) :
    Builds h (h.setField x f value).2 := by
  obtain ⟨log, hl, hd⟩ := h.moves_setField x f value
  exact ⟨log, hl, fun d hdl ↦ absurd (hd d hdl).2.1 hf⟩

theorem tagOf_of_setString {offset : Nat} {value : Handle}
    (he : (h.setString x offset value).1 = .ok ()) : h.tagOf value = .ok .char := by
  unfold setString at he
  split at he
  · cases he
  · next char hr =>
    split at he
    · next ht => rw [tagOf, hr, ok_bind, ht]; rfl
    · cases he

theorem builds_setString {offset : Nat} {value : Handle} (hp : Proper h.arena) :
    Builds h (h.setString x offset value).2 := by
  rcases h.setString_cases x offset value with ⟨r, elements, hx, hs, he⟩ | ⟨failure, he⟩
  · have hv := (tagOf_eq_char_iff hp).mp (tagOf_of_setString (congrArg Prod.fst he))
    rw [he]
    refine builds_replace hx ⟨rfl, rfl, fun hw ↦ ?_, ?_, fun y hy ↦ ?_⟩ ?_
    · rw [Record.WellFormed, hs] at hw
      exact hw
    · rw [hs]
      rfl
    · rw [hs]
      rcases Payload.mem_toList_setIfInBounds hy with rfl | hy
      · exact .inr hv
      · exact .inl hy
    · rw [printName?, printName?, hs]
      rfl
  · rw [he]
    exact .refl h

theorem builds_setAttributes (h : Heap) (x attributes : Handle) :
    Builds h (h.setAttributes x attributes).2 := by
  rcases h.setAttributes_cases x attributes with ⟨r, hx, he⟩ | ⟨failure, he⟩
  · rw [he]
    exact builds_replace hx ⟨rfl, rfl, id, rfl, fun _ ↦ .inl⟩ rfl
  · rw [he]
    exact .refl h

theorem builds_force (h : Heap) (x value : Handle) : Builds h (h.force x value).2 := by
  have hv := h.builds_setField (f := .promiseValue) x value (by decide)
  unfold force
  split
  · next h' he =>
    rw [he] at hv
    exact hv.trans (h'.builds_setField x h'.nil (by decide))
  · next he =>
    rw [he] at hv
    exact hv

theorem builds_hashedEnvironment (h : Heap) (enclosing : Handle) (buckets : Nat) :
    Builds h (h.hashedEnvironment enclosing buckets).2 := by
  have hp := h.builds_protect enclosing
  unfold hashedEnvironment
  dsimp only
  split
  · exact hp
  · let p := h.protect enclosing
    let slots := Array.replicate (max buckets 1) p.nil
    let t := p.alloc .list (.values slots)
    let q := t.2.protect t.1
    have ht := hp.trans (p.builds_alloc .list (.values slots) rfl rfl)
    have hx := (ht.trans (t.2.builds_protect t.1)).trans
      (q.builds_alloc .environment (.environment q.nil enclosing t.1) rfl rfl)
    exact hx.trans (builds_unprotect _ 2)

theorem builds_defineHashed (h : Heap) (table : Handle) (name : String) (symbol value : Handle) :
    Builds h (h.defineHashed table name symbol value).2 := by
  unfold defineHashed
  split
  · dsimp only
    split
    · next bucket _ =>
      have hy := h.builds_alloc .pairlist (.cell value bucket symbol) rfl rfl
      refine hy.trans (builds_rewrite fun r _ ↦ ⟨⟨rfl, rfl, ?_, ?_, fun y hy ↦ .inl ?_⟩, ?_⟩)
      · exact (Payload.fits_setValue _ _ _ _).trans
      · exact Payload.bytes?_setValue _ _ _
      · rwa [← Payload.texts_setValue]
      · exact Payload.printName_setValue _ _ _
    · exact .refl h
  · exact .refl h

theorem builds_of_install (h : Heap) (x : Handle) (name : String) (value : Handle) :
    Builds (h.install name).2 (h.defineProtected x name value).2 := by
  let p := h.install name
  unfold defineProtected
  dsimp only
  split
  · exact .refl p.2
  · split
    · next frame _ table _ =>
      split
      · have ha := p.2.builds_alloc .pairlist (.cell value frame p.1) rfl rfl
        exact ha.trans (builds_setField _ _ _ (by decide))
      · exact builds_defineHashed _ _ _ _ _
    · exact .refl p.2

theorem builds_defineProtected {name : String} {value : Handle} (hk : Kempt h)
    (hn : Numbered (h.defineProtected x name value).2.arena) :
    Builds h (h.defineProtected x name value).2 :=
  (builds_install hk ((course_of_install h x name value).numbered hn)).trans
    (h.builds_of_install x name value)

theorem builds_define {name : String} {value : Handle} (hk : Kempt h)
    (hn : Numbered (h.define x name value).2.arena) : Builds h (h.define x name value).2 := by
  rw [define, arena_unprotectAfter] at hn
  let q := (h.protect x).protect value
  have hg := (h.grows_protect x).trans ((h.protect x).grows_protect value)
  have hq : Kempt q := hg.kempt hk ((course_defineProtected q x name value).numbered hn)
  have hb := (h.builds_protect x).trans ((h.protect x).builds_protect value)
  exact (hb.trans (builds_defineProtected hq hn)).unprotectAfter 2

theorem builds_setAttributeProtected (h : Heap) (x name value : Handle) :
    Builds h (h.setAttributeProtected x name value).2 := by
  unfold setAttributeProtected
  split
  · exact .refl h
  · split
    · exact builds_setField _ _ _ (by decide)
    · exact .refl h
    · exact .refl h
    · refine (h.builds_alloc .pairlist (.cell value h.nil name) rfl rfl).trans ?_
      dsimp only
      split
      · exact builds_setAttributes _ _ _
      · exact builds_setField _ _ _ (by decide)

theorem builds_setAttribute (h : Heap) (x name value : Handle) :
    Builds h (h.setAttribute x name value).2 := by
  have hb := (h.builds_protect x).trans ((h.protect x).builds_protect value)
  exact (hb.trans (builds_setAttributeProtected _ x name value)).unprotectAfter 2

theorem builds_attach (p : Handle × Heap) (x symbol : Handle) :
    Builds p.2 (unprotectAfter 1 ((p.2.protect p.1).setAttribute x symbol p.1)).2 :=
  ((p.2.builds_protect p.1).trans (builds_setAttribute _ x symbol p.1)).unprotectAfter 1

theorem builds_setDimensions (h : Heap) (x : Handle) (nrow ncol : Nat) :
    Builds h (h.setDimensions x nrow ncol).2 := by
  unfold setDimensions
  split
  · exact .refl h
  · split
    · exact .refl h
    · split
      · exact .refl h
      · let elements := [Int32.ofNat nrow, Int32.ofNat ncol]
        exact (h.builds_alloc .integer (.integer elements.toArray) rfl rfl).trans
          (builds_attach (h.newInteger elements) x _)

theorem builds_setNames {names : List String} (hk : Kempt h)
    (hn : Numbered (h.setNames x names).2.arena) : Builds h (h.setNames x names).2 := by
  have hv := builds_newString (names.map some) hk ((course_attach _ x _).numbered hn)
  exact hv.trans (builds_attach (h.newString (names.map some)) x _)

end Heap

def Update.Does (h : Heap) (u : Update) : Deed → Prop
  | .founded => False
  | .allocated _ => True
  | .collected freed => u = .collect ∧ freed = h.collect.1
  | .retuned threshold => u = .setThreshold threshold
  | .renamed x => ∃ value, u = .setField x .printName value ∧ (u.run h).1 = .ok .absent

namespace Heap

open Arena

variable {h h' : Heap} {u : Update}

theorem Builds.does (hb : Builds h h') (u : Update) :
    ∃ log, Moves h log h' ∧ ∀ d ∈ log, u.Does h d := by
  obtain ⟨log, hl, hd⟩ := hb
  refine ⟨log, hl, fun d hdl ↦ ?_⟩
  obtain ⟨freed, rfl⟩ := hd d hdl
  trivial

theorem moves_update (u : Update) (hk : Kempt h) (hn : Numbered (u.run h).2.arena) :
    ∃ log, Moves h log (u.run h).2 ∧ ∀ d ∈ log, u.Does h d := by
  cases u with
  | intern bytes => exact (h.builds_intern bytes).does _
  | internText text => exact (h.builds_intern _).does _
  | install name => exact (builds_install hk hn).does _
  | newString values => exact (builds_newString values hk hn).does _
  | newLogical _ | newRawLogical _ | newInteger _ | newReal _ | newList _ | newExpression _
  | cons _ _ | call _ _ | closure _ _ _ | environment _ | promise _ _ =>
    exact (h.builds_alloc _ _ rfl rfl).does _
  | setString x offset value => exact (builds_setString hk.proper).does _
  | pairlist items => exact (builds_pairlist hk hn).does _
  | setField x f value =>
    obtain ⟨log, hl, hd⟩ := h.moves_setField x f value
    refine ⟨log, hl, fun d hdl ↦ ?_⟩
    obtain ⟨rfl, rfl, he⟩ := hd d hdl
    exact ⟨value, rfl, congrArg (Functor.map fun _ ↦ Datum.absent) he⟩
  | hashedEnvironment enclosing buckets => exact (h.builds_hashedEnvironment _ _).does _
  | define x name value => exact (builds_define hk hn).does _
  | force x value => exact (h.builds_force x value).does _
  | primitive tag offset =>
    cases tag with
    | special => exact (h.builds_alloc .special (.primitive offset) rfl rfl).does _
    | builtin => exact (h.builds_alloc .builtin (.primitive offset) rfl rfl).does _
    | _ => exact (Builds.refl h).does _
  | setAttributes x attributes => exact (h.builds_setAttributes x attributes).does _
  | setAttribute x name value => exact (h.builds_setAttribute x name value).does _
  | setDimensions x nrow ncol => exact (h.builds_setDimensions x nrow ncol).does _
  | setNames x names => exact (builds_setNames hk hn).does _
  | protect _ | preserve _ => exact (Aside.builds ⟨_, _, _, rfl⟩).does _
  | unprotect n => exact (h.aside_unprotect n).builds.does _
  | unprotectHandle x => exact (h.aside_unprotectHandle x).builds.does _
  | release x => exact (h.aside_release x).builds.does _
  | collect => exact ⟨_, Move.collect.moves, List.forall_mem_singleton.mpr ⟨rfl, rfl⟩⟩
  | setThreshold threshold =>
    exact ⟨_, (Move.retune threshold).moves, List.forall_mem_singleton.mpr rfl⟩

end Heap

namespace Action

open Heap Arena

def Does (h : Heap) (a : Action) (d : Deed) : Prop :=
  ∃ u, a = .request (.update u) ∧ u.Does h d

theorem moves {h : Heap} (a : Action) (hk : Kempt h) (hn : Numbered (a.run h).2.arena) :
    ∃ log, Moves h log (a.run h).2 ∧ ∀ d ∈ log, a.Does h d := by
  cases a with
  | request r =>
    cases r with
    | query q =>
      refine ⟨[], Aside.moves ?_, nofun⟩
      change Aside h (q.run h).2
      rcases q.run_cases h with he | ⟨e, he⟩
      · rw [he]
        exact .refl h
      · rw [he]
        exact (Aside.refl h).report e
    | update u =>
      obtain ⟨log, hl, hd⟩ := moves_update u hk hn
      exact ⟨log, hl, fun d hdl ↦ ⟨u, rfl, hd d hdl⟩⟩
  | letGo x => exact ⟨[], ((h.aside_release x).report _).moves, nofun⟩
  | take _ | report _ | drain => exact ⟨[], Aside.moves ⟨_, _, _, rfl⟩, nofun⟩

end Action

end TaggedHeap
