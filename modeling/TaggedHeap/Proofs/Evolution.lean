import TaggedHeap.Proofs.Continuation

namespace TaggedHeap

namespace Heap

open Arena Relation

variable (h : Heap)

theorem continues_intern (bytes : List UInt8) : Continues h 0 (h.intern bytes).2 := by
  unfold intern
  split
  · exact .refl h
  · have ha := h.continues_alloc .char (.char bytes) rfl
    exact ⟨ha.evolves, ha.values, ha.symbols, ha.roots, ha.live⟩

theorem continues_internText (text : String) : Continues h 0 (h.internText text).2 :=
  h.continues_intern _

theorem continues_install (name : String) : Continues h 0 (h.install name).2 := by
  unfold install
  split
  · exact .refl h
  · let p := h.internText name
    let q := p.2.protect p.1
    have hp := (h.continues_internText name).trans (p.2.continues_protect p.1)
    let s := q.alloc .symbol (.symbol p.1 q.unbound q.nil)
    have hs := hp.trans (q.continues_alloc .symbol (.symbol p.1 q.unbound q.nil) rfl)
    have ha : Continues h 0 (s.2.unprotect 1) := hs.unprotect rfl
    exact ⟨ha.evolves, ha.values, ha.symbols.trans (List.suffix_cons _ _), ha.roots, ha.live⟩

theorem continues_internAll (values : List (Option String)) :
    Continues h values.length (internAll values h).2 := by
  induction values generalizing h with
  | nil => exact .refl h
  | cons value values ih =>
    rw [List.length_cons, Nat.add_comm]
    cases value with
    | none => exact (h.continues_protect h.missingString).trans (ih _)
    | some text =>
      have hp := (h.continues_internText text).trans (continues_protect _ (h.internText text).1)
      rw [Nat.zero_add] at hp
      exact hp.trans (ih _)

theorem continues_newString (values : List (Option String)) :
    Continues h 0 (h.newString values).2 := by
  let p := internAll values h
  have ha := (h.continues_internAll values).trans
    (p.2.continues_alloc .string (.strings p.1.toArray) rfl)
  exact ha.unprotect (Nat.add_comm _ _)

theorem continues_link (items : List (Option String × Handle)) :
    Continues h items.length (link items h).2 := by
  induction items with
  | nil => exact .refl h
  | cons item items ih =>
    obtain ⟨name, value⟩ := item
    cases name with
    | none =>
      let p := link items h
      have ha := ih.trans (p.2.continues_alloc .pairlist (.cell value p.1 p.2.nil) rfl)
      exact ha.trans (continues_protect _ _)
    | some name =>
      let p := link items h
      let q := p.2.install name
      have hi := ih.trans (p.2.continues_install name)
      have ha := hi.trans (q.2.continues_alloc .pairlist (.cell value p.1 q.1) rfl)
      exact ha.trans (continues_protect _ _)

theorem continues_foldl_protect {α : Type} (f : α → Handle) (items : List α) :
    Continues h items.length (items.foldl (fun h item ↦ h.protect (f item)) h) := by
  induction items generalizing h with
  | nil => exact .refl h
  | cons item items ih =>
    rw [List.length_cons, Nat.add_comm]
    exact (h.continues_protect (f item)).trans (ih _)

theorem continues_pairlist (items : List (Option String × Handle)) :
    Continues h 0 (h.pairlist items).2 := by
  have hl := (h.continues_foldl_protect Prod.snd items).trans (continues_link _ items)
  exact hl.unprotect (Nat.zero_add _).symm

theorem concludes_setString (x : Handle) (offset : Nat) (value : Handle) :
    Concludes h (h.setString x offset value) := by
  rcases h.setString_cases x offset value with ⟨r, elements, hx, hp, he⟩ | ⟨failure, he⟩
  · rw [he]
    refine concludes_rewrite hx rfl fun hw ↦ ?_
    rw [Record.WellFormed, hp] at hw
    exact hw
  · rw [he]
    exact (Continues.refl h).concludes

theorem concludes_setField (x : Handle) (f : Field) (value : Handle) :
    Concludes h (h.setField x f value) := by
  rcases h.setField_cases x f value with ⟨r, payload, hx, hp, he⟩ | ⟨failure, he⟩
  · rw [he]
    exact concludes_rewrite hx rfl (Payload.fits_setField? hp r.tag).trans
  · rw [he]
    exact (Continues.refl h).concludes

theorem concludes_force (x value : Handle) : Concludes h (h.force x value) := by
  have hv := h.concludes_setField x .promiseValue value
  unfold force
  split
  · next h' he =>
    rw [he] at hv
    obtain ⟨k, hk, h0⟩ := hv
    obtain rfl := h0 (answered_ok ())
    exact (h'.concludes_setField x .promiseEnvironment h'.nil).after hk
  · next he =>
    rw [he] at hv
    exact hv

theorem concludes_hashedEnvironment (enclosing : Handle) (buckets : Nat) :
    Concludes h (h.hashedEnvironment enclosing buckets) := by
  have hp := h.continues_protect enclosing
  unfold hashedEnvironment
  dsimp only
  split
  · exact ⟨1, hp, fun hn ↦ absurd rfl (hn .oversizedTable)⟩
  · let p := h.protect enclosing
    let slots := Array.replicate (max buckets 1) p.nil
    let t := p.alloc .list (.values slots)
    let q := t.2.protect t.1
    have ht := hp.trans (p.continues_alloc .list (.values slots) rfl)
    have hx := (ht.trans (t.2.continues_protect t.1)).trans
      (q.continues_alloc .environment (.environment q.nil enclosing t.1) rfl)
    exact (hx.unprotect (n := 2) rfl).concludes

theorem concludes_defineHashed (table : Handle) (name : String) (symbol value : Handle) :
    Concludes h (h.defineHashed table name symbol value) := by
  unfold defineHashed
  split
  · next buckets _ =>
    dsimp only
    split
    · next bucket _ =>
      let y := h.alloc .pairlist (.cell value bucket symbol)
      have hy := h.continues_alloc .pairlist (.cell value bucket symbol) rfl
      have hm := y.2.continues_modify table (f := fun r ↦
        { r with payload := r.payload.setValue (bucketOf name buckets.size) y.1 })
        fun r _ ↦ ⟨rfl, (Payload.fits_setValue _ _ _ _).trans⟩
      exact (hy.trans hm).concludes
    · exact (Continues.refl h).concludes
  · exact (Continues.refl h).concludes

theorem concludes_defineProtected (x : Handle) (name : String) (value : Handle) :
    Concludes h (h.defineProtected x name value) := by
  let p := h.install name
  unfold defineProtected
  refine Concludes.after (h.continues_install name) ?_
  dsimp only
  split
  · exact (Continues.refl p.2).concludes
  · split
    · next frame _ table _ =>
      split
      · have ha := p.2.continues_alloc .pairlist (.cell value frame p.1) rfl
        exact (concludes_setField _ _ _ _).after ha
      · exact concludes_defineHashed _ _ _ _ _
    · exact (Continues.refl p.2).concludes

theorem concludes_define (x : Handle) (name : String) (value : Handle) :
    Concludes h (h.define x name value) :=
  Concludes.unprotectAfter
    ((h.continues_protect x).trans ((h.protect x).continues_protect value))
    (concludes_defineProtected _ x name value)

theorem concludes_setAttributes (x attributes : Handle) :
    Concludes h (h.setAttributes x attributes) := by
  rcases h.setAttributes_cases x attributes with ⟨r, hx, he⟩ | ⟨failure, he⟩
  · rw [he]
    exact concludes_rewrite hx rfl id
  · rw [he]
    exact (Continues.refl h).concludes

theorem concludes_setAttributeProtected (x name value : Handle) :
    Concludes h (h.setAttributeProtected x name value) := by
  unfold setAttributeProtected
  split
  · exact (Continues.refl h).concludes
  · split
    · exact concludes_setField _ _ _ _
    · exact (Continues.refl h).concludes
    · exact (Continues.refl h).concludes
    · have ha := h.continues_alloc .pairlist (.cell value h.nil name) rfl
      refine Concludes.after ha ?_
      dsimp only
      split
      · exact concludes_setAttributes _ _ _
      · exact concludes_setField _ _ _ _

theorem concludes_setAttribute (x name value : Handle) :
    Concludes h (h.setAttribute x name value) :=
  Concludes.unprotectAfter
    ((h.continues_protect x).trans ((h.protect x).continues_protect value))
    (concludes_setAttributeProtected _ x name value)

theorem concludes_setDimensions (x : Handle) (nrow ncol : Nat) :
    Concludes h (h.setDimensions x nrow ncol) := by
  unfold setDimensions
  split
  · exact (Continues.refl h).concludes
  · split
    · exact (Continues.refl h).concludes
    · split
      · exact (Continues.refl h).concludes
      · let elements := [Int32.ofNat nrow, Int32.ofNat ncol]
        let dim := h.newInteger elements
        have hd := (h.continues_alloc .integer (.integer elements.toArray) rfl).trans
          (dim.2.continues_protect dim.1)
        exact Concludes.unprotectAfter hd (concludes_setAttribute _ _ _ _)

theorem concludes_setNames (x : Handle) (names : List String) :
    Concludes h (h.setNames x names) := by
  let vector := h.newString (names.map some)
  have hv := (h.continues_newString (names.map some)).trans
    (vector.2.continues_protect vector.1)
  exact Concludes.unprotectAfter hv (concludes_setAttribute _ _ _ _)

/-- The values that every collection spares, whatever the program has done to the roots. -/
def core (h : Heap) : List Handle :=
  h.nil :: h.missingString :: h.unbound :: h.symbols.map Prod.snd

variable {h} {h' : Heap} {k : Nat} {α : Type}

theorem mem_rootHandles_of_mem_core {x : Handle} {pending : List Handle} (hx : x ∈ h.core) :
    x ∈ h.rootHandles pending := by
  simp only [core, List.mem_cons] at hx
  rw [mem_rootHandles]
  tauto

/-- What holds between a heap and any later one. -/
structure Keeps (h h' : Heap) : Prop where
  evolves : Evolves h.arena h'.arena
  values : h'.values = h.values
  symbols : h.symbols <:+ h'.symbols
  live : ∀ x ∈ h.core, h.isLive x = true → h'.isLive x = true

theorem Keeps.nil (hk : Keeps h h') : h'.nil = h.nil :=
  congrArg Prod.fst hk.values

theorem Keeps.mem_core {x : Handle} (hk : Keeps h h') (hx : x ∈ h.core) : x ∈ h'.core := by
  obtain ⟨hn, hm, hu, _⟩ : h'.nil = h.nil ∧ h'.missingString = h.missingString ∧
      h'.unbound = h.unbound ∧ _ := by simpa only [Heap.values, Prod.mk.injEq] using hk.values
  have hs : x ∈ h.symbols.map Prod.snd → x ∈ h'.symbols.map Prod.snd := fun hx ↦
    (hk.symbols.map Prod.snd).subset hx
  simp only [core, List.mem_cons, hn, hm, hu] at hx ⊢
  tauto

theorem Continues.keeps (hc : Continues h k h') : Keeps h h' where
  evolves := hc.evolves
  values := hc.values
  symbols := hc.symbols
  live x hx hl := hc.live x (mem_rootHandles_of_mem_core hx) hl

theorem Concludes.keeps {o : Outcome α} (ho : Concludes h o) : Keeps h o.2 := by
  obtain ⟨k, hk, _⟩ := ho
  exact hk.keeps

theorem keeps_of_eq (ha : h'.arena = h.arena) (hv : h'.values = h.values)
    (hs : h'.symbols = h.symbols) : Keeps h h' where
  evolves := ha ▸ .refl
  values := hv
  symbols := hs ▸ List.suffix_refl _
  live x _ hl := by rwa [isLive, ha]

theorem keeps_unprotect (h : Heap) (n : Nat) : Keeps h (h.unprotect n) := by
  unfold unprotect
  split <;> exact keeps_of_eq rfl rfl rfl

theorem keeps_unprotectHandle (h : Heap) (x : Handle) : Keeps h (h.unprotectHandle x) := by
  unfold unprotectHandle
  split <;> exact keeps_of_eq rfl rfl rfl

theorem keeps_release (h : Heap) (x : Handle) : Keeps h (h.release x) := by
  unfold release
  split <;> exact keeps_of_eq rfl rfl rfl

theorem keeps_collect (h : Heap) : Keeps h h.collect.2 where
  evolves := .single (.collect _)
  values := rfl
  symbols := List.suffix_refl _
  live _ hx hl := contains_collect_of_mem (mem_rootHandles_of_mem_core hx) hl

end Heap

theorem Update.fst_ofOutcome_eq_error_iff {α : Type} {datum : α → Datum} {o : Outcome α}
    {failure : Failure} :
    (Update.ofOutcome datum o).1 = .error failure ↔ o.1 = .error failure :=
  ⟨eq_error_of_map, fun ho ↦ map_of_error ho datum⟩

theorem Update.keeps (u : Update) (h : Heap) : h.Keeps (u.run h).2 := by
  cases u with
  | intern bytes => exact (h.continues_intern bytes).keeps
  | internText text => exact (h.continues_internText text).keeps
  | install name => exact (h.continues_install name).keeps
  | newString values => exact (h.continues_newString values).keeps
  | newLogical _ | newRawLogical _ | newInteger _ | newReal _ | newList _ | newExpression _
  | cons _ _ | call _ _ | closure _ _ _ | environment _ | promise _ _ =>
    exact (h.continues_alloc _ _ rfl).keeps
  | setString x offset value => exact (h.concludes_setString x offset value).keeps
  | pairlist items => exact (h.continues_pairlist items).keeps
  | setField x f value => exact (h.concludes_setField x f value).keeps
  | hashedEnvironment enclosing buckets =>
    exact (h.concludes_hashedEnvironment enclosing buckets).keeps
  | define x name value => exact (h.concludes_define x name value).keeps
  | force x value => exact (h.concludes_force x value).keeps
  | primitive tag offset =>
    cases tag with
    | special => exact (h.continues_alloc .special (.primitive offset) rfl).keeps
    | builtin => exact (h.continues_alloc .builtin (.primitive offset) rfl).keeps
    | _ => exact Heap.keeps_of_eq rfl rfl rfl
  | setAttributes x attributes => exact (h.concludes_setAttributes x attributes).keeps
  | setAttribute x name value => exact (h.concludes_setAttribute x name value).keeps
  | setDimensions x nrow ncol => exact (h.concludes_setDimensions x nrow ncol).keeps
  | setNames x names => exact (h.concludes_setNames x names).keeps
  | collect => exact h.keeps_collect
  | protect _ | preserve _ | setThreshold _ => exact Heap.keeps_of_eq rfl rfl rfl
  | unprotect n => exact h.keeps_unprotect n
  | unprotectHandle x => exact h.keeps_unprotectHandle x
  | release x => exact h.keeps_release x

theorem Query.run_cases (q : Query) (h : Heap) :
    (q.run h).2 = h ∨ ∃ e, (q.run h).2 = h.report e := by
  unfold run
  dsimp only
  split
  · exact .inr ⟨_, rfl⟩
  · exact .inl rfl

theorem Query.keeps (q : Query) (h : Heap) : h.Keeps (q.run h).2 := by
  rcases q.run_cases h with he | ⟨e, he⟩
  · rw [he]
    exact Heap.keeps_of_eq rfl rfl rfl
  · rw [he]
    exact Heap.keeps_of_eq rfl rfl rfl

theorem Request.keeps (r : Request) (h : Heap) : h.Keeps (r.run h).2 := by
  cases r with
  | query q => exact q.keeps h
  | update u => exact u.keeps h

end TaggedHeap
