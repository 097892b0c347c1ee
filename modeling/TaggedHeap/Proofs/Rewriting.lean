import TaggedHeap.Proofs.Lockstep

namespace TaggedHeap

theorem Arena.modify_eq_of_get? {a : Arena} {x : Handle} {r : Record} (hx : a.get? x = some r)
    (f : Record → Record) : a.modify x f = a.modify x fun _ ↦ f r := by
  obtain ⟨s, hs, hg, hr⟩ := get?_eq_some_iff.mp hx
  rw [modify, modify, Arena.mk.injEq]
  refine ⟨Array.ext_getElem? fun i ↦ ?_, rfl, rfl, rfl⟩
  rw [Array.getElem?_modify, Array.getElem?_modify]
  by_cases hi : x.slot.toNat = i
  · subst hi
    rw [if_pos rfl, if_pos rfl, hs, Option.map_some, Option.map_some, if_pos hg, if_pos hg, hr]
    rfl
  · rw [if_neg hi, if_neg hi]

namespace Heap

open Arena

def Search.rename (f : Handle → Handle) : Search → Search
  | found cell => found (f cell)
  | absent last => absent (f last)
  | broken cell => broken (f cell)
  | endless => endless

def Search.handles : Search → List Handle
  | found x | absent x | broken x => [x]
  | endless => []

theorem Search.rename_eq_endless_iff {f : Handle → Handle} {s : Search} :
    s.rename f = .endless ↔ s = .endless := by
  cases s <;> simp [rename]

variable {h g h₁ h₂ g₁ g₂ : Heap} {x y z : Handle} {r : Record} {payload : Payload}
  {P Q : List Handle} {σ σ' : Equiv.Perm Handle} {A : Set (Handle × Handle)} {k n : Nat}
  {o o₁ o₂ : Outcome Unit}

/-- Both heaps have gone through an operation, or have refused it, and are still twins. -/
def Tallies (A : Set (Handle × Handle)) (σ : Equiv.Perm Handle) (P : List Handle)
    (o₁ o₂ : Outcome Unit) : Prop :=
  Mirrors σ (fun _ ↦ True) id o₁.1 o₂.1 ∧ Twin A σ P o₁.2 o₂.2

/-- The same after new records have been paired. -/
def Concurs (A : Set (Handle × Handle)) (σ : Equiv.Perm Handle) (h : Heap)
    (o₁ o₂ : Outcome Unit) : Prop :=
  ∃ σ', (∀ x, h.Rooted [] x → σ' x = σ x) ∧ Tallies A σ' [] o₁ o₂

theorem Tallies.narrow (ht : Tallies A σ P o₁ o₂) (hQ : Q ⊆ P) : Tallies A σ Q o₁ o₂ :=
  ⟨ht.1, ht.2.narrow fun _ hx ↦ ht.2.rooted_pending (hQ hx)⟩

theorem Tallies.concurs (ht : Tallies A σ' P o₁ o₂) (ha : ∀ x, h.Rooted [] x → σ' x = σ x) :
    Concurs A σ h o₁ o₂ :=
  ⟨σ', ha, ht.narrow (List.nil_subset P)⟩

theorem Rooted.pending (hx : h.Rooted P x) (hQ : P ⊆ Q) : h.Rooted Q x := by
  refine hx.mono fun y hy ↦ ?_
  rw [rootHandles_eq, List.mem_append] at hy ⊢
  exact hy.imp_right (hQ ·)

theorem Twin.refuses (ht : Twin A σ P h₁ h₂) (failure : Failure) :
    Tallies A σ P (.error failure, h₁) (.error (failure.rename σ), h₂) :=
  ⟨.error failure, ht⟩

theorem Concurs.after (hc : Concurs A σ' g o₁ o₂) (ha : Advances σ h σ' g) :
    Concurs A σ h o₁ o₂ := by
  obtain ⟨σ'', hagree, ht⟩ := hc
  exact ⟨σ'', fun x hx ↦ (hagree x (ha.rooted x hx)).trans (ha.agree x hx), ht⟩

theorem Concurs.unprotectAfter (n : Nat) (hc : Concurs A σ h o₁ o₂) :
    Concurs A σ h (unprotectAfter n o₁) (unprotectAfter n o₂) := by
  obtain ⟨σ', ha, hm, ht⟩ := hc
  obtain ⟨e₁, g₁⟩ := o₁
  obtain ⟨e₂, g₂⟩ := o₂
  refine ⟨σ', ha, ?_⟩
  cases hm with
  | ok hu => exact ⟨.ok hu, ht.unprotect n nofun⟩
  | error failure =>
    cases failure with
    | denied cause => exact ⟨.error (.denied cause), ht.unprotect n nofun⟩
    | fault cause => exact ⟨.error (.fault cause), ht⟩

/-- A value that may be given attributes: anything but interned text, unless these are expected. -/
def Adornable (A : Set (Handle × Handle)) (σ : Equiv.Perm Handle) (h : Heap) (x : Handle) : Prop :=
  ∀ bytes, h.Spells x bytes → Expects A σ h x

theorem Adornable.grows (hb : Adornable A σ h x) (hg : Grows h k g) (hp : Proper h.arena)
    (hn : Numbered g.arena) (hx : h.Rooted [] x) (he : σ' x = σ x) : Adornable A σ' g x := by
  intro bytes hs
  rw [Spells, hg.get?_eq hp hn x hx] at hs
  have hm : g.missingString = h.missingString := congrArg (fun v ↦ v.2.1) hg.values
  rw [Expects, hm, he]
  exact hb bytes hs

theorem replaces_payload {p : Prop} (hf : payload.fits r.tag = r.payload.fits r.tag)
    (hc : ∀ bytes, payload = .char bytes ↔ r.payload = .char bytes) :
    Replaces p r { r with payload := payload } where
  marked := rfl
  wellFormed hw := hf.trans hw
  char_iff := hc
  attributes := .inl rfl

namespace Twin

theorem update (ht : Twin A σ P h₁ h₂) (hx : h₁.Rooted P x) {f₁ f₂ : Record → Except Failure Record}
    (hf : ∀ r, h₁.arena.get? x = some r → (∀ y ∈ r.links, h₁.Rooted P y) →
      Mirrors σ (fun r' ↦ (∀ y ∈ r'.links, h₁.Rooted P y) ∧
          Replaces (Expects A σ h₁ x) r r') (Record.rename σ)
        (f₁ r) (f₂ (r.rename σ))) :
    Tallies A σ P (h₁.update x f₁) (h₂.update (σ x) f₂) := by
  obtain ⟨r, hr, hr₂, hl⟩ := ht.exists_records hx
  have hf := hf r hr hl
  rw [Heap.update, Heap.update, record_of_get? hr, record_of_get? hr₂, ok_bind, ok_bind]
  revert hf
  generalize f₁ r = e₁
  generalize f₂ (r.rename σ) = e₂
  intro hf
  cases hf with
  | ok hr' => exact ⟨.ok trivial, ht.rewrite hx hr hr'.1 hr'.2⟩
  | error failure => exact ht.refuses failure

theorem setField (ht : Twin A σ P h₁ h₂) (hx : h₁.Rooted P x) (hy : h₁.Rooted P y) (f : Field) :
    Tallies A σ P (h₁.setField x f y) (h₂.setField (σ x) f (σ y)) := by
  refine ht.update hx fun r hr hl ↦ ?_
  dsimp only [Record.rename]
  rw [Payload.setField?_rename]
  split
  · cases hp : r.payload.setField? y f with
    | none => exact .refusal rfl
    | some payload =>
      have hlinks : ∀ z ∈ Record.links { r with payload := payload }, h₁.Rooted P z := by
        refine List.forall_mem_cons.mpr ⟨hl _ List.mem_cons_self, fun z hz ↦ ?_⟩
        rcases Payload.mem_children_setField? hp hz with rfl | hz
        · exact hy
        · exact hl z (List.mem_cons_of_mem _ hz)
      have hreplaces : Replaces (Expects A σ h₁ x) r { r with payload := payload } :=
        replaces_payload (Payload.fits_setField? hp r.tag) fun _ ↦ Payload.char_setField?_iff hp
      refine .same (a := { r with payload := payload }) ?_ rfl
      exact ⟨hlinks, hreplaces⟩
  · exact .refusal rfl

theorem setString (ht : Twin A σ P h₁ h₂) (hx : h₁.Rooted P x) (hy : h₁.Rooted P y) (offset : Nat) :
    Tallies A σ P (h₁.setString x offset y) (h₂.setString (σ x) offset (σ y)) := by
  obtain ⟨c, hc, hc₂, -⟩ := ht.exists_records hy
  unfold Heap.setString
  rw [record_of_get? hc, record_of_get? hc₂]
  dsimp only [Record.rename]
  split
  · refine ht.update hx fun r hr hl ↦ ?_
    obtain ⟨tag, marked, attributes, payload⟩ := r
    cases payload with
    | strings elements =>
      dsimp only [Record.rename, Payload.rename]
      rw [Array.size_map]
      split
      · let payload : Payload := .strings (elements.setIfInBounds offset y)
        have hlinks : ∀ z ∈ Record.links ⟨tag, marked, attributes, payload⟩, h₁.Rooted P z := by
          refine List.forall_mem_cons.mpr ⟨hl _ List.mem_cons_self, fun z hz ↦ ?_⟩
          rcases Payload.mem_toList_setIfInBounds hz with rfl | hz
          · exact hy
          · exact hl z (List.mem_cons_of_mem _ hz)
        have hreplaces : Replaces (Expects A σ h₁ x) ⟨tag, marked, attributes, .strings elements⟩
            ⟨tag, marked, attributes, payload⟩ :=
          replaces_payload rfl fun _ ↦ by simp [payload]
        refine .same (a := Record.mk tag marked attributes payload) ?_ ?_
        · exact ⟨hlinks, hreplaces⟩
        rw [Record.rename, Payload.rename, Array.map_setIfInBounds]
      · exact .refusal rfl
    | _ => exact .refusal rfl
  · exact ht.refuses (.mismatch (.tag .char) c.tag)

theorem setAttributes (ht : Twin A σ P h₁ h₂) (hx : h₁.Rooted P x) (hy : h₁.Rooted P y)
    (hb : Adornable A σ h₁ x) :
    Tallies A σ P (h₁.setAttributes x y) (h₂.setAttributes (σ x) (σ y)) := by
  refine ht.update hx fun r hr hl ↦ ?_
  have hlinks : ∀ z ∈ Record.links { r with attributes := y }, h₁.Rooted P z :=
    List.forall_mem_cons.mpr ⟨hy, fun z hz ↦ hl z (List.mem_cons_of_mem _ hz)⟩
  have hreplaces : Replaces (Expects A σ h₁ x) r { r with attributes := y } :=
    ⟨rfl, id, fun _ ↦ Iff.rfl, .inr fun bytes hp ↦ hb bytes ⟨r, hr, hp⟩⟩
  refine .same (a := { r with attributes := y }) ?_ rfl
  exact ⟨hlinks, hreplaces⟩

theorem force (ht : Twin A σ P h₁ h₂) (hx : h₁.Rooted P x) (hy : h₁.Rooted P y) :
    Tallies A σ P (h₁.force x y) (h₂.force (σ x) (σ y)) := by
  have ht' : Twin A σ (x :: P) h₁ h₂ :=
    ht.narrow (List.forall_mem_cons.mpr ⟨hx, fun _ ↦ ht.rooted_pending⟩)
  have hsub : P ⊆ x :: P := List.subset_cons_self x P
  obtain ⟨hm, hs⟩ := ht'.setField (hx.pending hsub) (hy.pending hsub) .promiseValue
  unfold Heap.force
  revert hm hs
  generalize h₁.setField x .promiseValue y = o₁
  generalize h₂.setField (σ x) .promiseValue (σ y) = o₂
  intro hm hs
  obtain ⟨e₁, g₁⟩ := o₁
  obtain ⟨e₂, g₂⟩ := o₂
  cases hm with
  | ok _ =>
    have he := hs.setField (hs.rooted_pending List.mem_cons_self) hs.rooted_nil .promiseEnvironment
    rw [← hs.nil] at he
    exact he.narrow fun y hy ↦ List.mem_cons_of_mem x hy
  | error failure => exact (hs.refuses failure).narrow fun y hy ↦ List.mem_cons_of_mem x hy

theorem setValue (ht : Twin A σ P h₁ h₂) (hx : h₁.Rooted P x) (hy : h₁.Rooted P y) (i : Nat) :
    Twin A σ P
      { h₁ with arena :=
        h₁.arena.modify x fun r ↦ { r with payload := r.payload.setValue i y } }
      { h₂ with arena :=
        h₂.arena.modify (σ x) fun r ↦ { r with payload := r.payload.setValue i (σ y) } } := by
  obtain ⟨r, hr, hr₂, hl⟩ := ht.exists_records hx
  have hlinks : ∀ z ∈ Record.links { r with payload := r.payload.setValue i y },
      h₁.Rooted P z := by
    refine List.forall_mem_cons.mpr ⟨hl _ List.mem_cons_self, fun z hz ↦ ?_⟩
    rcases Payload.mem_children_setValue hz with rfl | hz
    · exact hy
    · exact hl _ (List.mem_cons_of_mem _ hz)
  have hreplaces : Replaces (Expects A σ h₁ x) r { r with payload := r.payload.setValue i y } :=
    replaces_payload (Payload.fits_setValue ..) fun _ ↦ Payload.char_setValue_iff ..
  have ht' := ht.rewrite hx hr hlinks hreplaces
  rw [modify_eq_of_get? hr, modify_eq_of_get? hr₂]
  simpa only [Record.rename, Payload.setValue_rename] using ht'

theorem defineHashed (ht : Twin A σ [] h₁ h₂) {table symbol value : Handle}
    (htable : h₁.Rooted [] table) (hsymbol : h₁.Rooted [] symbol) (hvalue : h₁.Rooted [] value)
    (name : String) (hn₁ : Numbered (h₁.defineHashed table name symbol value).2.arena)
    (hn₂ : Numbered (h₂.defineHashed (σ table) name (σ symbol) (σ value)).2.arena) :
    Concurs A σ h₁ (h₁.defineHashed table name symbol value)
      (h₂.defineHashed (σ table) name (σ symbol) (σ value)) := by
  obtain ⟨r, hr, hr₂, hl⟩ := ht.exists_records htable
  unfold Heap.defineHashed at hn₁ hn₂ ⊢
  rw [hr] at hn₁ ⊢
  rw [hr₂] at hn₂ ⊢
  have hlinks : ∀ y ∈ r.payload.children, h₁.Rooted [] y := fun y hy ↦
    hl _ (List.mem_cons_of_mem _ hy)
  obtain ⟨tag, marked, attributes, payload⟩ := r
  cases payload with
  | values buckets =>
    dsimp only [Option.map_some, Record.rename, Payload.rename] at hn₁ hn₂ ⊢
    rw [Array.size_map, Array.getElem?_map] at hn₂ ⊢
    cases hb : buckets[bucketOf name buckets.size]? with
    | none => exact (ht.refuses (.fault .emptyTable)).concurs fun _ _ ↦ rfl
    | some bucket =>
      rw [hb] at hn₁ hn₂
      have hbucket : h₁.Rooted [] bucket :=
        hlinks bucket (Array.mem_toList_iff.mpr (Array.mem_of_getElem? hb))
      obtain ⟨σ', ha, hx, ht'⟩ := ht.alloc (.cell value bucket symbol) rfl rfl
        (by decide) (forall_mem_three hvalue hbucket hsymbol) (numbered_modify_iff.mp hn₁)
        (numbered_modify_iff.mp hn₂)
      have hset := ht'.setValue ((ha.rooted table htable).pending (List.nil_subset _))
        (ht'.rooted_pending List.mem_cons_self) (bucketOf name buckets.size)
      rw [hx, ha.agree table htable] at hset
      exact Tallies.concurs ⟨.ok trivial, hset⟩ ha.agree
  | _ => exact (ht.refuses (.stale table)).concurs fun _ _ ↦ rfl

theorem setField_alloc (ht : Twin A σ [] h₁ h₂) {head tail tag : Handle} (hx : h₁.Rooted [] x)
    (hhead : h₁.Rooted [] head) (htail : h₁.Rooted [] tail) (htag : h₁.Rooted [] tag) (f : Field)
    {p₁ p₂ : Handle × Heap} (hp₁ : h₁.alloc .pairlist (.cell head tail tag) = p₁)
    (hp₂ : h₂.alloc .pairlist (.cell (σ head) (σ tail) (σ tag)) = p₂)
    (hn₁ : Numbered (p₁.2.setField x f p₁.1).2.arena)
    (hn₂ : Numbered (p₂.2.setField (σ x) f p₂.1).2.arena) :
    Concurs A σ h₁ (p₁.2.setField x f p₁.1) (p₂.2.setField (σ x) f p₂.1) := by
  subst hp₁ hp₂
  obtain ⟨σ', ha, hp, ht'⟩ := ht.alloc (.cell head tail tag) rfl rfl (by decide)
    (forall_mem_three hhead htail htag) ((rewrites_setField _ _ _ _).course.numbered hn₁)
    ((rewrites_setField _ _ _ _).course.numbered hn₂)
  have hset := ht'.setField ((ha.rooted x hx).pending (List.nil_subset _))
    (ht'.rooted_pending List.mem_cons_self) f
  rw [hp, ha.agree x hx] at hset
  exact hset.concurs ha.agree

theorem defineProtected (ht : Twin A σ [] h₁ h₂) (hk : Retains A σ h₁) (hx : h₁.Rooted [] x)
    (hy : h₁.Rooted [] y) (name : String) (hn₁ : Numbered (h₁.defineProtected x name y).2.arena)
    (hn₂ : Numbered (h₂.defineProtected (σ x) name (σ y)).2.arena) :
    Concurs A σ h₁ (h₁.defineProtected x name y) (h₂.defineProtected (σ x) name (σ y)) := by
  obtain ⟨σ₁, ha₁, hs, ht₁⟩ := ht.install hk name
    ((h₁.course_of_install x name y).numbered hn₁)
    ((h₂.course_of_install (σ x) name (σ y)).numbered hn₂)
  have ht₁ := ht₁.narrow (Q := []) nofun
  have hx₁ := ha₁.rooted x hx
  have hy₁ := ha₁.rooted y hy
  have hs₁ := ht₁.rooted_core (h₁.mem_core_install name)
  rw [← ha₁.agree x hx, ← ha₁.agree y hy] at hn₂ ⊢
  refine Concurs.after ?_ ha₁
  obtain ⟨r, hr, hr₂, hl⟩ := ht₁.exists_records hx₁
  unfold Heap.defineProtected at hn₁ hn₂ ⊢
  dsimp only at hn₁ hn₂ ⊢
  rw [record_of_get? hr] at hn₁ ⊢
  rw [record_of_get? hr₂, ← hs] at hn₂ ⊢
  have hlinks : ∀ z ∈ r.payload.children, (h₁.install name).2.Rooted [] z := fun z hz ↦
    hl _ (List.mem_cons_of_mem _ hz)
  obtain ⟨tag, marked, attributes, payload⟩ := r
  cases payload with
  | environment frame enclosing table =>
    have hframe := hlinks frame (by simp [Payload.children])
    have htable := hlinks table (by simp [Payload.children])
    dsimp only [Record.rename, Payload.rename] at hn₁ hn₂ ⊢
    simp only [ht₁.eq_nil_iff] at hn₂ ⊢
    by_cases hn : table = (h₁.install name).2.nil
    · simp only [hn, if_true] at hn₁ hn₂ ⊢
      exact ht₁.setField_alloc hx₁ hy₁ hframe hs₁ .frame rfl rfl hn₁ hn₂
    · simp only [hn, if_false] at hn₁ hn₂ ⊢
      exact ht₁.defineHashed htable hs₁ hy₁ name hn₁ hn₂
  | _ => exact (ht₁.refuses (.mismatch (.tag .environment) tag)).concurs fun _ _ ↦ rfl

theorem define (ht : Twin A σ [] h₁ h₂) (hk : Retains A σ h₁) (hx : h₁.Rooted [] x)
    (hy : h₁.Rooted [] y) (name : String) (hn₁ : Numbered (h₁.define x name y).2.arena)
    (hn₂ : Numbered (h₂.define (σ x) name (σ y)).2.arena) :
    Concurs A σ h₁ (h₁.define x name y) (h₂.define (σ x) name (σ y)) := by
  unfold Heap.define at hn₁ hn₂ ⊢
  rw [arena_unprotectAfter] at hn₁ hn₂
  have hx' := hx.protect x
  have hy' := hy.protect x
  have ht' := (ht.protect (Q := []) hx nofun).protect (Q := []) hy' nofun
  have ha : Advances σ h₁ σ ((h₁.protect x).protect y) :=
    ⟨fun z hz ↦ (hz.protect x).protect y, fun _ _ ↦ rfl⟩
  have hc := ht'.defineProtected (ha.retains hk) (hx'.protect y) (hy'.protect y) name hn₁ hn₂
  exact (hc.after ha).unprotectAfter 2

theorem searchFrom (ht : Twin A σ P h₁ h₂) (name : Handle) (n : Nat) {cell last : Handle}
    (hc : h₁.Rooted P cell) (hl : h₁.Rooted P last) :
    h₂.searchFrom (σ name) n (σ cell) (σ last) = (h₁.searchFrom name n cell last).rename σ ∧
      ∀ y ∈ (h₁.searchFrom name n cell last).handles, h₁.Rooted P y := by
  induction n generalizing cell last with
  | zero =>
    simp only [Heap.searchFrom, ht.eq_nil_iff]
    split
    · exact ⟨rfl, List.forall_mem_singleton.mpr hl⟩
    · exact ⟨rfl, List.forall_mem_nil _⟩
  | succ n ih =>
    obtain ⟨r, hr, hr₂, hlinks⟩ := ht.exists_records hc
    have hlinks : ∀ y ∈ r.payload.children, h₁.Rooted P y := fun y hy ↦
      hlinks y (List.mem_cons_of_mem _ hy)
    simp only [Heap.searchFrom, ht.eq_nil_iff, hr, hr₂, Option.map_some]
    obtain ⟨t, marked, attributes, payload⟩ := r
    split
    · exact ⟨rfl, List.forall_mem_singleton.mpr hl⟩
    · cases payload with
      | cell head tail tag =>
        dsimp only [Record.rename, Payload.rename]
        simp only [σ.injective.eq_iff]
        split
        · exact ⟨rfl, List.forall_mem_singleton.mpr hc⟩
        · exact ih (hlinks tail (by simp [Payload.children])) hc
      | _ => exact ⟨rfl, List.forall_mem_singleton.mpr hc⟩

/-- The heaps may differ in size, but a search does not depend on it. -/
theorem search (ht : Twin A σ P h₁ h₂) (name : Handle) {cell : Handle} (hc : h₁.Rooted P cell) :
    h₂.search (σ name) (σ cell) = (h₁.search name cell).rename σ ∧
      ∀ y ∈ (h₁.search name cell).handles, h₁.Rooted P y := by
  have hfrom (n : Nat) := ht.searchFrom name n hc ht.rooted_nil
  rw [← ht.nil] at hfrom
  refine ⟨?_, (hfrom _).2⟩
  by_cases he : h₁.search name cell = .endless
  · rw [he]
    refine search_eq_endless_iff.mpr fun n ↦ ?_
    rw [(hfrom n).1, search_eq_endless_iff.mp he n]
    rfl
  · have hs := (hfrom (h₁.arena.slots.size + 1)).1
    exact (search_eq (hs ▸ mt Search.rename_eq_endless_iff.mp he)).trans hs

theorem setAttributeProtected (ht : Twin A σ [] h₁ h₂) {name : Handle} (hx : h₁.Rooted [] x)
    (hname : h₁.Rooted [] name) (hy : h₁.Rooted [] y)
    (hb : Adornable A σ h₁ x)
    (hn₁ : Numbered (h₁.setAttributeProtected x name y).2.arena)
    (hn₂ : Numbered (h₂.setAttributeProtected (σ x) (σ name) (σ y)).2.arena) :
    Concurs A σ h₁ (h₁.setAttributeProtected x name y)
      (h₂.setAttributeProtected (σ x) (σ name) (σ y)) := by
  obtain ⟨r, hr, hr₂, hl⟩ := ht.exists_records hx
  obtain ⟨hs, hroots⟩ := ht.search name (hl _ List.mem_cons_self)
  unfold Heap.setAttributeProtected at hn₁ hn₂ ⊢
  rw [record_of_get? hr] at hn₁ ⊢
  rw [record_of_get? hr₂] at hn₂ ⊢
  dsimp only [Record.rename] at hn₁ hn₂ ⊢
  rw [hs] at hn₂ ⊢
  cases hsearch : h₁.search name r.attributes with
  | found cell =>
    have hcell := hroots cell (by simp [hsearch, Search.handles])
    exact (ht.setField hcell hy .head).concurs fun _ _ ↦ rfl
  | broken cell => exact (ht.refuses (.stale cell)).concurs fun _ _ ↦ rfl
  | endless => exact (ht.refuses (.fault .endlessChain)).concurs fun _ _ ↦ rfl
  | absent last =>
    have hlast := hroots last (by simp [hsearch, Search.handles])
    have hg₁ := h₁.grows_alloc .pairlist (.cell y h₁.nil name) rfl (by decide)
    have hg₂ := h₂.grows_alloc .pairlist (.cell (σ y) h₂.nil (σ name)) rfl (by decide)
    rw [hsearch] at hn₁ hn₂
    dsimp only [Search.rename] at hn₁ hn₂ ⊢
    rw [hg₁.toContinues.nil] at hn₁ ⊢
    rw [hg₂.toContinues.nil] at hn₂ ⊢
    simp only [ht.eq_nil_iff] at hn₂ ⊢
    by_cases hn : last = h₁.nil
    · simp only [hn, if_true] at hn₁ hn₂ ⊢
      have hn₁' := (rewrites_setAttributes _ _ _).course.numbered hn₁
      obtain ⟨σ', ha, hp, ht'⟩ := ht.alloc (.cell y h₁.nil name)
        (by rw [ht.nil]; rfl) rfl (by decide) (forall_mem_three hy ht.rooted_nil hname) hn₁'
        ((rewrites_setAttributes _ _ _).course.numbered hn₂)
      have hset := ht'.setAttributes ((ha.rooted x hx).pending (List.nil_subset _))
        (ht'.rooted_pending List.mem_cons_self)
        (hb.grows hg₁ ht.left.proper hn₁' hx (ha.agree x hx))
      rw [hp, ha.agree x hx] at hset
      exact hset.concurs ha.agree
    · simp only [hn, if_false] at hn₁ hn₂ ⊢
      exact ht.setField_alloc hlast hy ht.rooted_nil hname .tail rfl (by rw [ht.nil]) hn₁ hn₂

theorem setAttribute (ht : Twin A σ [] h₁ h₂) {name : Handle} (hx : h₁.Rooted [] x)
    (hname : h₁.Rooted [] name) (hy : h₁.Rooted [] y) (hb : Adornable A σ h₁ x)
    (hn₁ : Numbered (h₁.setAttribute x name y).2.arena)
    (hn₂ : Numbered (h₂.setAttribute (σ x) (σ name) (σ y)).2.arena) :
    Concurs A σ h₁ (h₁.setAttribute x name y) (h₂.setAttribute (σ x) (σ name) (σ y)) := by
  unfold Heap.setAttribute at hn₁ hn₂ ⊢
  rw [arena_unprotectAfter] at hn₁ hn₂
  have hx' := (hx.protect x).protect y
  have hname' := (hname.protect x).protect y
  have hy' := hy.protect x
  have ht' := (ht.protect (Q := []) hx nofun).protect (Q := []) hy' nofun
  have hc := ht'.setAttributeProtected hx' hname' (hy'.protect y) hb hn₁ hn₂
  exact (hc.after ⟨fun z hz ↦ (hz.protect x).protect y, fun _ _ ↦ rfl⟩).unprotectAfter 2

theorem attach (ht : Twin A σ [] h₁ h₂) {p₁ p₂ : Handle × Heap} (hp : Pairs A σ h₁ p₁ p₂)
    (hg : Grows h₁ 0 p₁.2) (hx : h₁.Rooted [] x) (hb : Adornable A σ h₁ x) (symbol : Heap → Handle)
    (hs : ∀ {σ' g₁ g₂}, Twin A σ' [] g₁ g₂ → symbol g₁ ∈ g₁.core ∧ symbol g₂ = σ' (symbol g₁))
    (hsp : ∀ g z, symbol (Heap.protect g z) = symbol g)
    (hn₁ : Numbered (unprotectAfter 1
      ((p₁.2.protect p₁.1).setAttribute x (symbol p₁.2) p₁.1)).2.arena)
    (hn₂ : Numbered (unprotectAfter 1
      ((p₂.2.protect p₂.1).setAttribute (σ x) (symbol p₂.2) p₂.1)).2.arena) :
    Concurs A σ h₁ (unprotectAfter 1 ((p₁.2.protect p₁.1).setAttribute x (symbol p₁.2) p₁.1))
      (unprotectAfter 1 ((p₂.2.protect p₂.1).setAttribute (σ x) (symbol p₂.2) p₂.1)) := by
  rw [arena_unprotectAfter] at hn₁ hn₂
  have hn : Numbered (p₁.2.protect p₁.1).arena := (course_setAttribute _ _ _ _).numbered hn₁
  obtain ⟨σ', ha, hpair, ht', hroot⟩ := hp.protect
  obtain ⟨hcore, hsymbol⟩ := hs ht'
  rw [hsp] at hcore
  rw [hsp, hsp] at hsymbol
  rw [← hpair, hsymbol, ← ha.agree x hx] at hn₂
  rw [← hpair, hsymbol, ← ha.agree x hx]
  rw [← hpair] at ht'
  have hb' : Adornable A σ' (p₁.2.protect p₁.1) x :=
    hb.grows (hg.trans (p₁.2.grows_protect p₁.1)) ht.left.proper hn hx (ha.agree x hx)
  have hc := ht'.setAttribute (ha.rooted x hx) (ht'.rooted_core hcore) hroot hb' hn₁ hn₂
  exact (hc.after ha).unprotectAfter 1

theorem setDimensions (ht : Twin A σ [] h₁ h₂) (hx : h₁.Rooted [] x) (hb : Adornable A σ h₁ x)
    (nrow ncol : Nat) (hn₁ : Numbered (h₁.setDimensions x nrow ncol).2.arena)
    (hn₂ : Numbered (h₂.setDimensions (σ x) nrow ncol).2.arena) :
    Concurs A σ h₁ (h₁.setDimensions x nrow ncol) (h₂.setDimensions (σ x) nrow ncol) := by
  obtain ⟨r, hr, hr₂, -⟩ := ht.exists_records hx
  unfold Heap.setDimensions at hn₁ hn₂ ⊢
  rw [record_of_get? hr] at hn₁ ⊢
  rw [record_of_get? hr₂] at hn₂ ⊢
  dsimp only [Record.rename] at hn₁ hn₂ ⊢
  rw [Payload.length?_rename] at hn₂ ⊢
  cases hl : r.payload.length? with
  | none => exact (ht.refuses (.mismatch .vector r.tag)).concurs fun _ _ ↦ rfl
  | some length =>
    rw [hl] at hn₁ hn₂
    dsimp only at hn₁ hn₂ ⊢
    cases hd : dimensionDefect? length nrow ncol with
    | some defect => exact (ht.refuses (.dimensions defect)).concurs fun _ _ ↦ rfl
    | none =>
      rw [hd] at hn₁ hn₂
      dsimp only at hn₁ hn₂ ⊢
      let elements := [Int32.ofNat nrow, Int32.ofNat ncol]
      have hg (h : Heap) : Grows h 0 (h.newInteger elements).2 :=
        h.grows_alloc .integer (.integer elements.toArray) rfl (by decide)
      have hp : Pairs A σ h₁ (h₁.newInteger elements) (h₂.newInteger elements) :=
        ht.alloc _ rfl rfl (by decide) nofun ((course_attach _ x _).numbered hn₁)
          ((course_attach _ (σ x) _).numbered hn₂)
      exact ht.attach hp (hg h₁) hx hb Heap.dimSymbol (fun ht ↦ ⟨ht.dim_mem, ht.dimSymbol⟩)
        (fun _ _ ↦ rfl) hn₁ hn₂

theorem setNames (ht : Twin A σ [] h₁ h₂) (hk : Retains A σ h₁) (hx : h₁.Rooted [] x)
    (hb : Adornable A σ h₁ x) (names : List String) (hn₁ : Numbered (h₁.setNames x names).2.arena)
    (hn₂ : Numbered (h₂.setNames (σ x) names).2.arena) :
    Concurs A σ h₁ (h₁.setNames x names) (h₂.setNames (σ x) names) := by
  have hp := ht.newString hk (names.map some) ((course_attach _ x _).numbered hn₁)
    ((course_attach _ (σ x) _).numbered hn₂)
  exact ht.attach hp (h₁.grows_newString _) hx hb Heap.namesSymbol
    (fun ht ↦ ⟨ht.names_mem, ht.namesSymbol⟩) (fun _ _ ↦ rfl) hn₁ hn₂

end Twin

end Heap

end TaggedHeap
