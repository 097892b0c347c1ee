import TaggedHeap.Proofs.Interning

namespace TaggedHeap

namespace Payload

theorem char_setField?_iff {p q : Payload} {x : Handle} {f : Field} {bytes : List UInt8}
    (h : p.setField? x f = some q) : q = .char bytes ↔ p = .char bytes := by
  cases p <;> cases f <;> cases h <;> simp

theorem char_setValue_iff (p : Payload) (i : Nat) (x : Handle) {bytes : List UInt8} :
    p.setValue i x = .char bytes ↔ p = .char bytes := by
  cases p <;> simp [setValue]

end Payload

namespace Arena

variable {a : Arena} {x : Handle} {roots roots' : List Handle}

theorem Reach.mono (h : Reach a roots x) (hs : roots ⊆ roots') : Reach a roots' x :=
  h.trans fun _ hy hc ↦ .root (hs hy) hc

end Arena

namespace Heap

open Arena

variable {a b c h g : Heap} {x y : Handle} {j k n : Nat} {α : Type}

/-- What happens to a heap before an operation rewrites anything. -/
structure Grows (h : Heap) (k : Nat) (h' : Heap) : Prop extends Continues h k h' where
  interned : Proper h.arena → Numbered h'.arena → Interned h → Interned h'
  get?_eq : Proper h.arena → Numbered h'.arena →
    ∀ x, Arena.Reach h.arena (h.rootHandles []) x → h'.arena.get? x = h.arena.get? x
  origin : Proper h.arena → ∀ x r, h'.arena.get? x = some r →
    h.arena.get? x = some r ∨ r.attributes = h.nil

theorem Grows.reach (hg : Grows a k b) (hp : Proper a.arena) (hn : Numbered b.arena)
    (hx : Arena.Reach a.arena (a.rootHandles []) x) :
    Arena.Reach b.arena (b.rootHandles []) x := by
  have hget := hg.get?_eq hp hn
  have hc {y : Handle} (hy : Arena.Reach a.arena (a.rootHandles []) y) :
      b.arena.contains y = true := by
    rw [contains, hget y hy]
    exact hy.contains
  induction hx with
  | root hx hl => exact .root (hg.toContinues.mem_rootHandles hx) (hc (.root hx hl))
  | link hx hy hl ih =>
    refine .link ih ?_ (hc (.link hx hy hl))
    rw [linksOf, hget _ hx]
    exact hy

theorem Grows.refl (h : Heap) : Grows h 0 h where
  toContinues := .refl h
  interned _ _ hi := hi
  get?_eq _ _ _ _ := rfl
  origin _ _ _ hr := .inl hr

theorem Grows.trans (hab : Grows a j b) (hbc : Grows b k c) : Grows a (j + k) c where
  toContinues := hab.toContinues.trans hbc.toContinues
  interned hp hn hi := by
    have hb := hbc.toContinues.numbered hn
    exact hbc.interned (hab.evolves.proper hp) hn (hab.interned hp hb hi)
  get?_eq hp hn x hx := by
    have hb := hbc.toContinues.numbered hn
    rw [hbc.get?_eq (hab.evolves.proper hp) hn x (hab.reach hp hb hx), hab.get?_eq hp hb x hx]
  origin hp x r hr := by
    rcases hbc.origin (hab.evolves.proper hp) x r hr with hr | hr
    · exact hab.origin hp x r hr
    · exact .inr (hr.trans hab.toContinues.nil)

theorem Grows.of_eq (hg : Grows a j b) (hc : Continues a k c) (ha : c.arena = b.arena)
    (hch : c.chars = b.chars) : Grows a k c where
  toContinues := hc
  interned hp hn hi := by
    have hm : c.missingString = b.missingString :=
      congrArg (fun v ↦ v.2.1) (hc.values.trans hg.values.symm)
    exact (hg.interned hp (ha ▸ hn) hi).of_eq ha hch hm
  get?_eq hp hn x hx := ha ▸ hg.get?_eq hp (ha ▸ hn) x hx
  origin hp x r hr := hg.origin hp x r (ha ▸ hr)

theorem chars_unprotect (h : Heap) (n : Nat) : (h.unprotect n).chars = h.chars := by
  unfold unprotect
  split <;> rfl

theorem Grows.unprotect (hg : Grows a j b) (hj : j = k + n) : Grows a k (b.unprotect n) :=
  hg.of_eq (hg.toContinues.unprotect hj) (b.arena_unprotect n) (b.chars_unprotect n)

theorem grows_protect (h : Heap) (x : Handle) : Grows h 1 (h.protect x) :=
  (Grows.refl h).of_eq (h.continues_protect x) rfl rfl

theorem grows_collectWith (h : Heap) (pending : List Handle) :
    Grows h 0 (h.collectWith pending).2 where
  toContinues := ⟨.single (.collect _), rfl, List.suffix_refl _, ⟨[], rfl, rfl⟩,
    fun _ hx hl ↦ contains_collect_of_mem (mem_rootHandles_of_mem hx) hl⟩
  interned hp _ hi := hi.collectWith hp pending
  get?_eq hp _ _ hx := get?_collect_of_reach hp.unmarked (hx.mono fun _ ↦ mem_rootHandles_of_mem)
  origin hp _ _ hr := .inl (get?_of_get?_collect hp.unmarked hr)

theorem grows_settle (h : Heap) (pending : List Handle) : Grows h 0 (h.settle pending) := by
  unfold settle
  split
  · exact h.grows_collectWith pending
  · exact .refl h

variable {tag : TypeTag} {payload : Payload}

theorem get?_alloc_of_reach (hp : Proper h.arena) (hn : Numbered (h.alloc tag payload).2.arena)
    (hx : Arena.Reach h.arena (h.rootHandles []) x) :
    (h.alloc tag payload).2.arena.get? x = h.arena.get? x := by
  have hs := h.grows_settle payload.children
  have hsn : Numbered (h.settle payload.children).arena := by
    rw [alloc_eq] at hn
    exact (size_slots_insert _ _).1.trans hn
  rw [get?_alloc_of_ne (ne_alloc_of_isLive hp hn (hs.reach hp hsn hx).contains)]
  exact hs.get?_eq hp hsn x hx

theorem origin_alloc {r : Record} (hp : Proper h.arena)
    (hr : (h.alloc tag payload).2.arena.get? x = some r) :
    h.arena.get? x = some r ∨ r.attributes = h.nil := by
  rw [alloc_eq] at hr
  rcases get?_insert_cases hr with rfl | hr
  · exact .inr rfl
  · exact (h.grows_settle payload.children).origin hp x r hr

theorem grows_alloc (h : Heap) (tag : TypeTag) (payload : Payload)
    (hf : payload.fits tag = true) (ht : tag ≠ .char) : Grows h 0 (h.alloc tag payload).2 where
  toContinues := h.continues_alloc tag payload hf
  interned hp hn hi := hi.alloc hp hn fun bytes hb ↦ by
    rw [hb] at hf
    exact ht (eq_of_beq hf)
  get?_eq hp hn _ := get?_alloc_of_reach hp hn
  origin hp _ _ := origin_alloc hp

theorem grows_intern (h : Heap) (bytes : List UInt8) : Grows h 0 (h.intern bytes).2 where
  toContinues := h.continues_intern bytes
  interned hp hn hi := (hi.intern hp bytes hn).1
  get?_eq hp hn x hx := by
    unfold intern at hn ⊢
    split
    · rfl
    · next hl =>
      rw [hl] at hn
      exact get?_alloc_of_reach hp hn hx
  origin hp x r hr := by
    unfold intern at hr
    split at hr
    · exact .inl hr
    · exact origin_alloc hp hr

theorem grows_install (h : Heap) (name : String) : Grows h 0 (h.install name).2 := by
  have hc := h.continues_install name
  unfold install at hc ⊢
  split
  · exact .refl h
  · next hn =>
    rw [hn] at hc
    let p := h.internText name
    let q := p.2.protect p.1
    have hp : Grows h 1 q := (h.grows_intern _).trans (p.2.grows_protect p.1)
    have hs : Grows h 1 (q.alloc .symbol (.symbol p.1 q.unbound q.nil)).2 :=
      hp.trans (q.grows_alloc .symbol (.symbol p.1 q.unbound q.nil) rfl (by decide))
    have hu : Grows h 0 ((q.alloc .symbol (.symbol p.1 q.unbound q.nil)).2.unprotect 1) :=
      hs.unprotect rfl
    exact hu.of_eq hc rfl rfl

theorem grows_internAll (values : List (Option String)) (h : Heap) :
    Grows h values.length (internAll values h).2 := by
  induction values generalizing h with
  | nil => exact .refl h
  | cons value values ih =>
    rw [List.length_cons, Nat.add_comm]
    cases value with
    | none => exact (h.grows_protect h.missingString).trans (ih _)
    | some text =>
      have hp : Grows h (0 + 1) ((h.internText text).2.protect (h.internText text).1) :=
        (h.grows_intern _).trans (grows_protect _ _)
      exact hp.trans (ih _)

theorem grows_newString (h : Heap) (values : List (Option String)) :
    Grows h 0 (h.newString values).2 := by
  have ha := (grows_internAll values h).trans
    (grows_alloc _ .string (.strings (internAll values h).1.toArray) rfl (by decide))
  exact ha.unprotect (Nat.add_comm _ _)

theorem grows_link (items : List (Option String × Handle)) (h : Heap) :
    Grows h items.length (link items h).2 := by
  induction items with
  | nil => exact .refl h
  | cons item items ih =>
    obtain ⟨name, value⟩ := item
    let p := link items h
    cases name with
    | none =>
      exact (ih.trans (p.2.grows_alloc .pairlist (.cell value p.1 p.2.nil) rfl (by decide))).trans
        (grows_protect _ _)
    | some name =>
      let q := p.2.install name
      have hi := ih.trans (p.2.grows_install name)
      exact (hi.trans (q.2.grows_alloc .pairlist (.cell value p.1 q.1) rfl (by decide))).trans
        (grows_protect _ _)

theorem grows_foldl_protect {α : Type} (f : α → Handle) (items : List α) (h : Heap) :
    Grows h items.length (items.foldl (fun h item ↦ h.protect (f item)) h) := by
  induction items generalizing h with
  | nil => exact .refl h
  | cons item items ih =>
    rw [List.length_cons, Nat.add_comm]
    exact (h.grows_protect (f item)).trans (ih _)

theorem grows_pairlist (h : Heap) (items : List (Option String × Handle)) :
    Grows h 0 (h.pairlist items).2 := by
  have hl := (grows_foldl_protect Prod.snd items h).trans (grows_link items _)
  exact hl.unprotect (Nat.zero_add _).symm

/-- What an operation does once it makes no more records. -/
structure Rewrites (g h : Heap) : Prop where
  preserved : h.roots.preserved = g.roots.preserved
  isLive_eq : ∀ x, h.isLive x = g.isLive x
  size_eq : h.arena.slots.size = g.arena.slots.size
  interned : Interned g → Interned h

theorem Rewrites.refl (h : Heap) : Rewrites h h :=
  ⟨rfl, fun _ ↦ rfl, rfl, id⟩

theorem Rewrites.trans (hab : Rewrites a b) (hbc : Rewrites b c) : Rewrites a c where
  preserved := hbc.preserved.trans hab.preserved
  isLive_eq x := (hbc.isLive_eq x).trans (hab.isLive_eq x)
  size_eq := hbc.size_eq.trans hab.size_eq
  interned hi := hbc.interned (hab.interned hi)

theorem rewrites_of_eq (ha : h.arena = g.arena) (hr : h.roots.preserved = g.roots.preserved)
    (hc : h.chars = g.chars) (hm : h.missingString = g.missingString) : Rewrites g h where
  preserved := hr
  isLive_eq x := by rw [isLive, ha, isLive]
  size_eq := by rw [ha]
  interned hi := hi.of_eq ha hc hm

theorem rewrites_unprotect (h : Heap) (n : Nat) : Rewrites h (h.unprotect n) := by
  unfold unprotect Roots.unprotect?
  split
  · next he =>
    split at he
    · cases he
      exact rewrites_of_eq rfl rfl rfl rfl
    · cases he
  · exact rewrites_of_eq rfl rfl rfl rfl

theorem rewrites_unprotectAfter (n : Nat) (o : Outcome α) :
    Rewrites o.2 (unprotectAfter n o).2 := by
  unfold unprotectAfter
  split
  · exact .refl _
  · exact rewrites_unprotect _ n

theorem rewrites_unprotectHandle (h : Heap) (x : Handle) : Rewrites h (h.unprotectHandle x) := by
  unfold unprotectHandle Roots.unprotectHandle?
  split
  · next he =>
    split at he
    · cases he
      exact rewrites_of_eq rfl rfl rfl rfl
    · cases he
  · exact rewrites_of_eq rfl rfl rfl rfl

theorem rewrites_modify (h : Heap) (x : Handle) {f : Record → Record}
    (hf : ∀ r, h.arena.get? x = some r →
      ∀ bytes, (f r).payload = .char bytes ↔ r.payload = .char bytes) :
    Rewrites h { h with arena := h.arena.modify x f } where
  preserved := rfl
  isLive_eq _ := contains_modify f
  size_eq := size_slots_modify f
  interned hi := by
    have hs (y : Handle) (bytes : List UInt8) :
        Spells { h with arena := h.arena.modify x f } y bytes ↔ h.Spells y bytes := by
      unfold Spells
      simp only [get?_modify]
      by_cases hxy : x = y
      · subst hxy
        cases hx : h.arena.get? x with
        | none => simp
        | some r => simp [hf r hx]
      · simp [hxy]
    exact ⟨hi.nodup, fun bytes y hy ↦ (hs y bytes).mpr (hi.spells bytes y hy), hi.ne_missing,
      fun bytes y hy ↦ hi.known bytes y ((hs y bytes).mp hy),
      (contains_modify f).trans hi.missing⟩

theorem rewrites_setField (h : Heap) (x : Handle) (f : Field) (value : Handle) :
    Rewrites h (h.setField x f value).2 := by
  rcases h.setField_cases x f value with ⟨r, payload, hx, hp, he⟩ | ⟨failure, he⟩
  · rw [he]
    refine h.rewrites_modify x fun q hq bytes ↦ ?_
    rw [hx, Option.some_inj] at hq
    subst hq
    exact Payload.char_setField?_iff hp
  · rw [he]
    exact .refl h

theorem rewrites_setString (h : Heap) (x : Handle) (offset : Nat) (value : Handle) :
    Rewrites h (h.setString x offset value).2 := by
  rcases h.setString_cases x offset value with ⟨r, elements, hx, hp, he⟩ | ⟨failure, he⟩
  · rw [he]
    refine h.rewrites_modify x fun q hq bytes ↦ ?_
    rw [hx, Option.some_inj] at hq
    subst hq
    simp [hp]
  · rw [he]
    exact .refl h

theorem rewrites_setAttributes (h : Heap) (x attributes : Handle) :
    Rewrites h (h.setAttributes x attributes).2 := by
  rcases h.setAttributes_cases x attributes with ⟨r, hx, he⟩ | ⟨failure, he⟩
  · rw [he]
    refine h.rewrites_modify x fun q hq bytes ↦ ?_
    rw [hx, Option.some_inj] at hq
    subst hq
    exact Iff.rfl
  · rw [he]
    exact .refl h

theorem rewrites_force (h : Heap) (x value : Handle) : Rewrites h (h.force x value).2 := by
  have hv := h.rewrites_setField x .promiseValue value
  unfold force
  split
  · next h' he =>
    rw [he] at hv
    exact hv.trans (h'.rewrites_setField x .promiseEnvironment h'.nil)
  · next he =>
    rw [he] at hv
    exact hv

/-- An operation grows the heap, and rewrites records when all the records it needs are there. -/
def Course (h h' : Heap) : Prop :=
  ∃ k g, Grows h k g ∧ Rewrites g h'

theorem Grows.course (hg : Grows a k b) : Course a b :=
  ⟨k, b, hg, .refl b⟩

theorem Rewrites.course (hr : Rewrites a b) : Course a b :=
  ⟨0, a, .refl a, hr⟩

theorem Course.refl (h : Heap) : Course h h :=
  (Grows.refl h).course

theorem Course.after (hab : Grows a j b) (hbc : Course b c) : Course a c := by
  obtain ⟨k, g, hg, hr⟩ := hbc
  exact ⟨j + k, g, hab.trans hg, hr⟩

theorem Course.rewrites (hab : Course a b) (hbc : Rewrites b c) : Course a c := by
  obtain ⟨k, g, hg, hr⟩ := hab
  exact ⟨k, g, hg, hr.trans hbc⟩

theorem Course.unprotectAfter {o : Outcome α} (n : Nat) (ho : Course h o.2) :
    Course h (unprotectAfter n o).2 :=
  ho.rewrites (rewrites_unprotectAfter n o)

theorem Course.isLive_of_reach (hc : Course a b) (hp : Proper a.arena) (hn : Numbered b.arena)
    (hx : Arena.Reach a.arena (a.rootHandles []) x) : b.isLive x = true := by
  obtain ⟨k, g, hg, hr⟩ := hc
  have hgn : Numbered g.arena := by rwa [Numbered, ← hr.size_eq]
  rw [hr.isLive_eq, isLive, contains, hg.get?_eq hp hgn x hx]
  exact hx.contains

theorem Course.numbered (hc : Course a b) (hn : Numbered b.arena) : Numbered a.arena := by
  obtain ⟨k, g, hg, hr⟩ := hc
  have hgn : Numbered g.arena := by rwa [Numbered, ← hr.size_eq]
  exact hg.toContinues.numbered hgn

theorem Course.isLive (hc : Course a b) (hx : x ∈ a.rootHandles []) (hl : a.isLive x = true) :
    b.isLive x = true := by
  obtain ⟨k, g, hg, hr⟩ := hc
  rw [hr.isLive_eq]
  exact hg.live x hx hl

theorem Course.preserved (hc : Course a b) : b.roots.preserved = a.roots.preserved := by
  obtain ⟨k, g, hg, hr⟩ := hc
  obtain ⟨pushed, _, hroots⟩ := hg.roots
  rw [hr.preserved, hroots]

theorem Course.interned (hc : Course a b) (hp : Proper a.arena) (hn : Numbered b.arena)
    (hi : Interned a) : Interned b := by
  obtain ⟨k, g, hg, hr⟩ := hc
  have hgn : Numbered g.arena := by rwa [Numbered, ← hr.size_eq]
  exact hr.interned (hg.interned hp hgn hi)

theorem course_hashedEnvironment (h : Heap) (enclosing : Handle) (buckets : Nat) :
    Course h (h.hashedEnvironment enclosing buckets).2 := by
  have hp := h.grows_protect enclosing
  unfold hashedEnvironment
  dsimp only
  split
  · exact hp.course
  · let p := h.protect enclosing
    let slots := Array.replicate (max buckets 1) p.nil
    let t := p.alloc .list (.values slots)
    let q := t.2.protect t.1
    have ht := hp.trans (p.grows_alloc .list (.values slots) rfl (by decide))
    have hx := (ht.trans (t.2.grows_protect t.1)).trans
      (q.grows_alloc .environment (.environment q.nil enclosing t.1) rfl (by decide))
    exact hx.course.rewrites (rewrites_unprotect _ 2)

theorem course_defineHashed (h : Heap) (table : Handle) (name : String) (symbol value : Handle) :
    Course h (h.defineHashed table name symbol value).2 := by
  unfold defineHashed
  split
  · next buckets _ =>
    dsimp only
    split
    · next bucket _ =>
      let y := h.alloc .pairlist (.cell value bucket symbol)
      have hy := h.grows_alloc .pairlist (.cell value bucket symbol) rfl (by decide)
      exact hy.course.rewrites (y.2.rewrites_modify table fun r _ bytes ↦
        Payload.char_setValue_iff _ _ _)
    · exact .refl h
  · exact .refl h

theorem course_of_install (h : Heap) (x : Handle) (name : String) (value : Handle) :
    Course (h.install name).2 (h.defineProtected x name value).2 := by
  let p := h.install name
  unfold defineProtected
  dsimp only
  split
  · exact .refl p.2
  · split
    · next frame _ table _ =>
      split
      · have ha := p.2.grows_alloc .pairlist (.cell value frame p.1) rfl (by decide)
        exact ha.course.rewrites (rewrites_setField _ _ _ _)
      · exact course_defineHashed _ _ _ _ _
    · exact .refl p.2

theorem course_defineProtected (h : Heap) (x : Handle) (name : String) (value : Handle) :
    Course h (h.defineProtected x name value).2 :=
  .after (h.grows_install name) (h.course_of_install x name value)

theorem course_define (h : Heap) (x : Handle) (name : String) (value : Handle) :
    Course h (h.define x name value).2 :=
  .unprotectAfter 2 (.after ((h.grows_protect x).trans ((h.protect x).grows_protect value))
    (course_defineProtected _ x name value))

theorem course_setAttributeProtected (h : Heap) (x name value : Handle) :
    Course h (h.setAttributeProtected x name value).2 := by
  unfold setAttributeProtected
  split
  · exact .refl h
  · split
    · exact (rewrites_setField _ _ _ _).course
    · exact .refl h
    · exact .refl h
    · have ha := h.grows_alloc .pairlist (.cell value h.nil name) rfl (by decide)
      refine .after ha ?_
      dsimp only
      split
      · exact (rewrites_setAttributes _ _ _).course
      · exact (rewrites_setField _ _ _ _).course

theorem course_setAttribute (h : Heap) (x name value : Handle) :
    Course h (h.setAttribute x name value).2 :=
  .unprotectAfter 2 (.after ((h.grows_protect x).trans ((h.protect x).grows_protect value))
    (course_setAttributeProtected _ x name value))

theorem course_attach (p : Handle × Heap) (x symbol : Handle) :
    Course p.2 (unprotectAfter 1 ((p.2.protect p.1).setAttribute x symbol p.1)).2 :=
  .unprotectAfter 1 (.after (p.2.grows_protect p.1) (course_setAttribute _ x symbol p.1))

theorem course_setDimensions (h : Heap) (x : Handle) (nrow ncol : Nat) :
    Course h (h.setDimensions x nrow ncol).2 := by
  unfold setDimensions
  split
  · exact .refl h
  · split
    · exact .refl h
    · split
      · exact .refl h
      · let elements := [Int32.ofNat nrow, Int32.ofNat ncol]
        exact .after (h.grows_alloc .integer (.integer elements.toArray) rfl (by decide))
          (course_attach (h.newInteger elements) x _)

theorem course_setNames (h : Heap) (x : Handle) (names : List String) :
    Course h (h.setNames x names).2 :=
  .after (h.grows_newString (names.map some)) (course_attach _ x _)

end Heap

def Update.Ordinary : Update → Prop
  | preserve _ | release _ => False
  | _ => True

theorem Update.course (u : Update) (h : Heap) (hu : u.Ordinary) : h.Course (u.run h).2 := by
  cases u with
  | intern bytes => exact (h.grows_intern bytes).course
  | internText text => exact (h.grows_intern _).course
  | install name => exact (h.grows_install name).course
  | newString values => exact (h.grows_newString values).course
  | newLogical _ | newRawLogical _ | newInteger _ | newReal _ | newList _ | newExpression _
  | cons _ _ | call _ _ | closure _ _ _ | environment _ | promise _ _ =>
    exact (h.grows_alloc _ _ rfl (by decide)).course
  | setString x offset value => exact (h.rewrites_setString x offset value).course
  | pairlist items => exact (h.grows_pairlist items).course
  | setField x f value => exact (h.rewrites_setField x f value).course
  | hashedEnvironment enclosing buckets => exact h.course_hashedEnvironment enclosing buckets
  | define x name value => exact h.course_define x name value
  | force x value => exact (h.rewrites_force x value).course
  | primitive tag offset =>
    cases tag with
    | special => exact (h.grows_alloc .special (.primitive offset) rfl (by decide)).course
    | builtin => exact (h.grows_alloc .builtin (.primitive offset) rfl (by decide)).course
    | _ => exact .refl h
  | setAttributes x attributes => exact (h.rewrites_setAttributes x attributes).course
  | setAttribute x name value => exact h.course_setAttribute x name value
  | setDimensions x nrow ncol => exact h.course_setDimensions x nrow ncol
  | setNames x names => exact h.course_setNames x names
  | protect x => exact (h.grows_protect x).course
  | unprotect n => exact (h.rewrites_unprotect n).course
  | unprotectHandle x => exact (h.rewrites_unprotectHandle x).course
  | preserve _ | release _ => exact hu.elim
  | collect => exact (h.grows_collectWith []).course
  | setThreshold _ => exact Heap.Rewrites.course (Heap.rewrites_of_eq rfl rfl rfl rfl)

end TaggedHeap
