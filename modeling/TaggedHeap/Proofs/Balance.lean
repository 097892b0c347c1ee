import TaggedHeap.Proofs.Evolution

namespace TaggedHeap

namespace Heap

open Arena

variable {a b c h : Heap} {j k n : Nat} {α : Type}

/-- From the one heap to the other no removal has found too few protections: what has been reported
says of none that it did. -/
def Quiet (h h' : Heap) : Prop :=
  ∃ new, h'.journal = new ++ h.journal ∧ ∀ n, .unbalanced n ∉ new

theorem quiet_of_eq (hj : b.journal = a.journal) : Quiet a b :=
  ⟨[], hj, fun _ ↦ List.not_mem_nil⟩

theorem Quiet.refl (h : Heap) : Quiet h h :=
  quiet_of_eq rfl

theorem Quiet.trans (hab : Quiet a b) (hbc : Quiet b c) : Quiet a c := by
  obtain ⟨p, hp, hpe⟩ := hab
  obtain ⟨q, hq, hqe⟩ := hbc
  refine ⟨q ++ p, by rw [hq, hp, List.append_assoc], fun n hn ↦ ?_⟩
  rcases List.mem_append.mp hn with hn | hn
  · exact hqe n hn
  · exact hpe n hn

theorem Quiet.of_eq (hab : Quiet a b) (hj : c.journal = b.journal) : Quiet a c :=
  hab.trans (quiet_of_eq hj)

theorem quiet_report {e : Event} (hj : b.journal = e :: a.journal) (he : ∀ n, .unbalanced n ≠ e) :
    Quiet a b :=
  ⟨[e], hj, fun n hn ↦ he n (List.mem_singleton.mp hn)⟩

theorem quiet_collectWith (h : Heap) (pending : List Handle) :
    Quiet h (h.collectWith pending).2 :=
  quiet_report rfl nofun

theorem quiet_alloc (h : Heap) (tag : TypeTag) (payload : Payload) :
    Quiet h (h.alloc tag payload).2 := by
  have hs : Quiet h (h.settle payload.children) := by
    unfold settle
    split
    · exact h.quiet_collectWith payload.children
    · exact .refl h
  rw [alloc_eq]
  exact hs.of_eq rfl

theorem Continues.journal_unprotect (hc : Continues a k b) (hn : n ≤ k) :
    (b.unprotect n).journal = b.journal := by
  obtain ⟨pushed, hp, hr⟩ := hc.roots
  have hle : n ≤ b.roots.stack.length := by
    rw [hr, List.length_append, hp]
    omega
  rw [Heap.unprotect, Roots.unprotect?, if_pos hle]

theorem Quiet.unprotectAfter {o : Outcome α} (hq : Quiet a o.2) (hab : Continues a n b)
    (ho : Concludes b o) : Quiet a (unprotectAfter n o).2 := by
  obtain ⟨k, hk, _⟩ := ho
  unfold Heap.unprotectAfter
  split
  · exact hq
  · exact hq.of_eq ((hab.trans hk).journal_unprotect (Nat.le_add_right n k))

theorem quiet_intern (h : Heap) (bytes : List UInt8) : Quiet h (h.intern bytes).2 := by
  unfold intern
  split
  · exact .refl h
  · exact (h.quiet_alloc .char (.char bytes)).of_eq rfl

theorem quiet_install (h : Heap) (name : String) : Quiet h (h.install name).2 := by
  unfold install
  split
  · exact .refl h
  · let p := h.internText name
    let q := p.2.protect p.1
    let s := q.alloc .symbol (.symbol p.1 q.unbound q.nil)
    have hp := (h.continues_internText name).trans (p.2.continues_protect p.1)
    have hs := hp.trans (q.continues_alloc .symbol (.symbol p.1 q.unbound q.nil) rfl)
    have hq : Quiet h q := (h.quiet_intern _).of_eq rfl
    exact (hq.trans (q.quiet_alloc _ _)).of_eq (hs.journal_unprotect le_rfl)

theorem quiet_internAll (values : List (Option String)) (h : Heap) :
    Quiet h (internAll values h).2 := by
  induction values generalizing h with
  | nil => exact .refl h
  | cons value values ih =>
    cases value with
    | none => exact ih (h.protect h.missingString)
    | some text => exact (h.quiet_intern (Text.Utf8.encode text)).trans (ih (protect _ _))

theorem quiet_newString (h : Heap) (values : List (Option String)) :
    Quiet h (h.newString values).2 := by
  let p := internAll values h
  have hc := (h.continues_internAll values).trans
    (p.2.continues_alloc .string (.strings p.1.toArray) rfl)
  have hq := (quiet_internAll values h).trans (p.2.quiet_alloc .string (.strings p.1.toArray))
  exact hq.of_eq (hc.journal_unprotect le_rfl)

theorem quiet_link (items : List (Option String × Handle)) (h : Heap) :
    Quiet h (link items h).2 := by
  induction items with
  | nil => exact .refl h
  | cons item items ih =>
    obtain ⟨name, value⟩ := item
    let p := link items h
    cases name with
    | none => exact ih.trans (p.2.quiet_alloc .pairlist (.cell value p.1 p.2.nil))
    | some name =>
      let q := p.2.install name
      have hq : Quiet h q.2 := ih.trans (p.2.quiet_install name)
      exact hq.trans (q.2.quiet_alloc .pairlist (.cell value p.1 q.1))

theorem quiet_foldl_protect {β : Type} (f : β → Handle) (items : List β) (h : Heap) :
    Quiet h (items.foldl (fun h item ↦ h.protect (f item)) h) := by
  induction items generalizing h with
  | nil => exact .refl h
  | cons item items ih => exact ih (h.protect (f item))

theorem quiet_pairlist (h : Heap) (items : List (Option String × Handle)) :
    Quiet h (h.pairlist items).2 := by
  let p := items.foldl (fun h item ↦ h.protect item.2) h
  have hc := (h.continues_foldl_protect Prod.snd items).trans (continues_link p items)
  have hq : Quiet h (link items p).2 :=
    (quiet_foldl_protect Prod.snd items h).trans (quiet_link items p)
  exact hq.of_eq (hc.journal_unprotect (Nat.le_of_eq (by omega)))

theorem quiet_update (h : Heap) (x : Handle) (f : Record → Except Failure Record) :
    Quiet h (h.update x f).2 := by
  rcases h.update_cases x f with ⟨r, r', _, _, he⟩ | ⟨failure, he⟩
  · rw [he]
    exact quiet_of_eq rfl
  · rw [he]
    exact .refl h

theorem quiet_setString (h : Heap) (x : Handle) (offset : Nat) (value : Handle) :
    Quiet h (h.setString x offset value).2 := by
  unfold setString
  split
  · exact .refl h
  · split
    · exact h.quiet_update x _
    · exact .refl h

theorem quiet_force (h : Heap) (x value : Handle) : Quiet h (h.force x value).2 := by
  have hv : Quiet h (h.setField x .promiseValue value).2 := h.quiet_update x _
  unfold force
  split
  · next h' he =>
    rw [he] at hv
    exact hv.trans (h'.quiet_update x _)
  · next he =>
    rw [he] at hv
    exact hv

theorem quiet_hashedEnvironment (h : Heap) (enclosing : Handle) (buckets : Nat) :
    Quiet h (h.hashedEnvironment enclosing buckets).2 := by
  have hp := h.continues_protect enclosing
  unfold hashedEnvironment
  dsimp only
  split
  · exact quiet_of_eq rfl
  · let p := h.protect enclosing
    let slots := Array.replicate (max buckets 1) p.nil
    let t := p.alloc .list (.values slots)
    let q := t.2.protect t.1
    have ht := hp.trans (p.continues_alloc .list (.values slots) rfl)
    have hx := (ht.trans (t.2.continues_protect t.1)).trans
      (q.continues_alloc .environment (.environment q.nil enclosing t.1) rfl)
    have hq : Quiet h q := (p.quiet_alloc .list (.values slots)).of_eq rfl
    exact (hq.trans (q.quiet_alloc _ _)).of_eq (hx.journal_unprotect le_rfl)

theorem quiet_defineHashed (h : Heap) (table : Handle) (name : String) (symbol value : Handle) :
    Quiet h (h.defineHashed table name symbol value).2 := by
  unfold defineHashed
  split
  · dsimp only
    split
    · next bucket _ =>
      have hq := h.quiet_alloc .pairlist (.cell value bucket symbol)
      exact hq.of_eq rfl
    · exact .refl h
  · exact .refl h

theorem quiet_defineProtected (h : Heap) (x : Handle) (name : String) (value : Handle) :
    Quiet h (h.defineProtected x name value).2 := by
  let p := h.install name
  unfold defineProtected
  refine Quiet.trans (h.quiet_install name) ?_
  dsimp only
  split
  · exact .refl p.2
  · split
    · split
      · exact (p.2.quiet_alloc _ _).trans (quiet_update _ x _)
      · exact quiet_defineHashed _ _ _ _ _
    · exact .refl p.2

theorem quiet_define (h : Heap) (x : Handle) (name : String) (value : Handle) :
    Quiet h (h.define x name value).2 :=
  Quiet.unprotectAfter (a := h) (quiet_defineProtected _ x name value)
    ((h.continues_protect x).trans ((h.protect x).continues_protect value))
    (concludes_defineProtected _ x name value)

theorem quiet_setAttributeProtected (h : Heap) (x name value : Handle) :
    Quiet h (h.setAttributeProtected x name value).2 := by
  unfold setAttributeProtected
  split
  · exact .refl h
  · split
    · exact h.quiet_update _ _
    · exact .refl h
    · exact .refl h
    · refine Quiet.trans (h.quiet_alloc .pairlist (.cell value h.nil name)) ?_
      dsimp only
      split
      · exact quiet_update _ _ _
      · exact quiet_update _ _ _

theorem quiet_setAttribute (h : Heap) (x name value : Handle) :
    Quiet h (h.setAttribute x name value).2 :=
  Quiet.unprotectAfter (a := h) (quiet_setAttributeProtected _ x name value)
    ((h.continues_protect x).trans ((h.protect x).continues_protect value))
    (concludes_setAttributeProtected _ x name value)

theorem quiet_attach {p : Handle × Heap} (hq : Quiet h p.2) (x symbol : Handle) :
    Quiet h (unprotectAfter 1 ((p.2.protect p.1).setAttribute x symbol p.1)).2 :=
  hq.trans (Quiet.unprotectAfter (a := p.2) (quiet_setAttribute _ x symbol p.1)
    (p.2.continues_protect p.1) (concludes_setAttribute _ x symbol p.1))

theorem quiet_setDimensions (h : Heap) (x : Handle) (nrow ncol : Nat) :
    Quiet h (h.setDimensions x nrow ncol).2 := by
  unfold setDimensions
  split
  · exact .refl h
  · split
    · exact .refl h
    · split
      · exact .refl h
      · exact quiet_attach (p := h.newInteger _) (h.quiet_alloc _ _) x _

theorem quiet_setNames (h : Heap) (x : Handle) (names : List String) :
    Quiet h (h.setNames x names).2 :=
  quiet_attach (h.quiet_newString (names.map some)) x _

theorem quiet_release (h : Heap) (x : Handle) : Quiet h (h.release x) := by
  unfold release
  split
  · exact quiet_of_eq rfl
  · exact quiet_report rfl nofun

theorem stack_release (h : Heap) (x : Handle) : (h.release x).roots.stack = h.roots.stack := by
  unfold release Roots.release?
  split
  · next roots hr =>
    split at hr
    · cases hr
      rfl
    · cases hr
  · rfl

/-- The part of the stack that an operation finds stays under its own protections, and these are
gone when it answers. -/
def KeepsStack (h : Heap) (o : Outcome α) : Prop :=
  h.roots.stack <:+ o.2.roots.stack ∧ (Answered o.1 → o.2.roots.stack = h.roots.stack)

theorem keepsStack_of_eq {o : Outcome α} (ho : o.2.roots.stack = h.roots.stack) :
    KeepsStack h o :=
  ⟨ho ▸ List.suffix_refl _, fun _ ↦ ho⟩

theorem Concludes.keepsStack {o : Outcome α} (ho : Concludes h o) : KeepsStack h o := by
  obtain ⟨k, hk, h0⟩ := ho
  obtain ⟨pushed, hp, hr⟩ := hk.roots
  rw [KeepsStack, hr]
  refine ⟨List.suffix_append pushed _, fun ha ↦ ?_⟩
  rw [h0 ha, List.length_eq_zero_iff] at hp
  rw [hp, List.nil_append]

theorem Concludes.ofOutcome {o : Outcome α} (ho : Concludes h o) (datum : α → Datum) :
    Concludes h (Update.ofOutcome datum o) := by
  obtain ⟨k, hk, h0⟩ := ho
  exact ⟨k, hk, fun ha ↦ h0 fun f hf ↦ ha f (Update.fst_ofOutcome_eq_error_iff.mpr hf)⟩

end Heap

def Update.HandlesStack : Update → Prop
  | protect _ | unprotect _ | unprotectHandle _ => True
  | _ => False

def Request.HandlesStack : Request → Prop
  | query _ => False
  | update u => u.HandlesStack

theorem Update.keepsStack_run (u : Update) (h : Heap) (hu : ¬ u.HandlesStack) :
    h.KeepsStack (u.run h) := by
  cases u with
  | intern bytes => exact (h.continues_intern bytes).concludes.keepsStack
  | internText text => exact (h.continues_internText text).concludes.keepsStack
  | install name => exact (h.continues_install name).concludes.keepsStack
  | newString values => exact (h.continues_newString values).concludes.keepsStack
  | newLogical _ | newRawLogical _ | newInteger _ | newReal _ | newList _ | newExpression _
  | cons _ _ | call _ _ | closure _ _ _ | environment _ | promise _ _ =>
    exact (h.continues_alloc _ _ rfl).concludes.keepsStack
  | setString x offset value =>
    exact ((h.concludes_setString x offset value).ofOutcome _).keepsStack
  | pairlist items => exact (h.continues_pairlist items).concludes.keepsStack
  | setField x f value => exact ((h.concludes_setField x f value).ofOutcome _).keepsStack
  | hashedEnvironment enclosing buckets =>
    exact ((h.concludes_hashedEnvironment enclosing buckets).ofOutcome _).keepsStack
  | define x name value => exact ((h.concludes_define x name value).ofOutcome _).keepsStack
  | force x value => exact ((h.concludes_force x value).ofOutcome _).keepsStack
  | primitive tag offset =>
    cases tag with
    | special => exact (h.continues_alloc .special (.primitive offset) rfl).concludes.keepsStack
    | builtin => exact (h.continues_alloc .builtin (.primitive offset) rfl).concludes.keepsStack
    | _ => exact Heap.keepsStack_of_eq rfl
  | setAttributes x attributes =>
    exact ((h.concludes_setAttributes x attributes).ofOutcome _).keepsStack
  | setAttribute x name value =>
    exact ((h.concludes_setAttribute x name value).ofOutcome _).keepsStack
  | setDimensions x nrow ncol =>
    exact ((h.concludes_setDimensions x nrow ncol).ofOutcome _).keepsStack
  | setNames x names => exact ((h.concludes_setNames x names).ofOutcome _).keepsStack
  | release x => exact Heap.keepsStack_of_eq (h.stack_release x)
  | preserve _ | collect | setThreshold _ => exact Heap.keepsStack_of_eq rfl
  | protect _ | unprotect _ | unprotectHandle _ => exact absurd trivial hu

theorem Update.quiet_run (u : Update) (h : Heap) (hu : ¬ u.HandlesStack) :
    h.Quiet (u.run h).2 := by
  cases u with
  | intern bytes => exact h.quiet_intern bytes
  | internText text => exact h.quiet_intern _
  | install name => exact h.quiet_install name
  | newString values => exact h.quiet_newString values
  | newLogical _ | newRawLogical _ | newInteger _ | newReal _ | newList _ | newExpression _
  | cons _ _ | call _ _ | closure _ _ _ | environment _ | promise _ _ =>
    exact h.quiet_alloc _ _
  | setString x offset value => exact h.quiet_setString x offset value
  | pairlist items => exact h.quiet_pairlist items
  | setField x _ _ | setAttributes x _ => exact h.quiet_update x _
  | hashedEnvironment enclosing buckets => exact h.quiet_hashedEnvironment enclosing buckets
  | define x name value => exact h.quiet_define x name value
  | force x value => exact h.quiet_force x value
  | primitive tag offset =>
    cases tag with
    | special | builtin => exact h.quiet_alloc _ (.primitive offset)
    | _ => exact .refl h
  | setAttribute x name value => exact h.quiet_setAttribute x name value
  | setDimensions x nrow ncol => exact h.quiet_setDimensions x nrow ncol
  | setNames x names => exact h.quiet_setNames x names
  | release x => exact h.quiet_release x
  | collect => exact h.quiet_collectWith []
  | preserve _ | setThreshold _ => exact Heap.quiet_of_eq rfl
  | protect _ | unprotect _ | unprotectHandle _ => exact absurd trivial hu

theorem Query.event?_ne_unbalanced (answer : Except Failure Datum) (n : Nat) :
    event? answer ≠ some (.unbalanced n) := by
  intro he
  unfold event? at he
  split at he <;>
    simp only [Option.map_eq_some_iff, reduceCtorEq, and_false, exists_false] at he

theorem Query.quiet_run (q : Query) (h : Heap) :
    h.Quiet (q.run h).2 ∧ (q.run h).2.roots = h.roots := by
  unfold run
  dsimp only
  split
  · next e he =>
    refine ⟨Heap.quiet_report rfl fun n hn ↦ ?_, rfl⟩
    exact event?_ne_unbalanced _ n (hn ▸ he)
  · exact ⟨.refl h, rfl⟩

/-- Every operation that is not about the stack itself hands the stack back as it found it, whatever
its answer, and none of its removals finds too few protections. -/
theorem Request.balances_stack (r : Request) (h : Heap) (hr : ¬ r.HandlesStack) :
    h.KeepsStack (r.run h) ∧ h.Quiet (r.run h).2 := by
  cases r with
  | query q =>
    obtain ⟨hq, hroots⟩ := q.quiet_run h
    exact ⟨Heap.keepsStack_of_eq (congrArg Roots.stack hroots), hq⟩
  | update u => exact ⟨u.keepsStack_run h hr, u.quiet_run h hr⟩

theorem Request.balances_stack_of_pairlist :
    let h := (Heap.create 0 1).protect (Heap.create 0 1).nil
    let r := Request.update (.pairlist [(some "a", h.nil), (some "b", ⟨9, 0⟩)])
    ¬ r.HandlesStack ∧ Answered (r.run h).1 ∧
      (r.run h).2.roots.stack = [h.nil] ∧ h.Quiet (r.run h).2 := by
  intro h r
  have ha : Answered (r.run h).1 := nofun
  obtain ⟨⟨_, hs⟩, hq⟩ := Request.balances_stack r h id
  exact ⟨id, ha, hs ha, hq⟩

namespace Heap

variable {h : Heap}

theorem quiet_letGo (h : Heap) (x : Handle) : Quiet h (h.letGo x) :=
  (h.quiet_release x).trans (quiet_report rfl nofun)

theorem stack_dropGuard (g : Guard) :
    (h.dropGuard g).roots.stack = h.roots.stack ∧ Quiet h (h.dropGuard g) := by
  unfold dropGuard
  induction g.values generalizing h with
  | nil => exact ⟨rfl, .refl h⟩
  | cons x values ih =>
    obtain ⟨hs, hq⟩ := ih (h := h.letGo x)
    exact ⟨hs.trans (h.stack_release x), (h.quiet_letGo x).trans hq⟩

end Heap

end TaggedHeap
