import TaggedHeap.Proofs.Rewriting

namespace TaggedHeap.Heap

open Arena

variable {h h₁ h₂ : Heap} {x y : Handle} {P Q : List Handle} {σ σ' : Equiv.Perm Handle}
  {A : Set (Handle × Handle)}

/-- The same outcome in two heaps, which are twins together with what it hands out. -/
def Agrees (A : Set (Handle × Handle)) (σ : Equiv.Perm Handle) (o₁ o₂ : Outcome Datum) :
    Prop :=
  o₂.1 = renameOutcome σ o₁.1 ∧ Twin A σ (handlesOf o₁.1) o₁.2 o₂.2

/-- The same with a renaming that may be new for what the roots did not lead to. -/
def Follows (A : Set (Handle × Handle)) (σ : Equiv.Perm Handle) (h : Heap)
    (o₁ o₂ : Outcome Datum) : Prop :=
  ∃ σ', (∀ x, h.Rooted [] x → σ' x = σ x) ∧ Agrees A σ' o₁ o₂

theorem Agrees.follows {o₁ o₂ : Outcome Datum} (ha : Agrees A σ o₁ o₂) : Follows A σ h o₁ o₂ :=
  ⟨σ, fun _ _ ↦ rfl, ha⟩

theorem Twin.agrees (ht : Twin A σ P h₁ h₂) {e₁ e₂ : Except Failure Datum}
    (he : Mirrors σ (Datum.Within (h₁.Rooted P)) (Datum.rename σ) e₁ e₂) :
    Agrees A σ (e₁, h₁) (e₂, h₂) := by
  cases he with
  | ok hd => exact ⟨rfl, ht.narrow hd⟩
  | error failure => exact ⟨rfl, ht.narrow nofun⟩

theorem Tallies.agrees {o₁ o₂ : Outcome Unit} (ht : Tallies A σ P o₁ o₂) :
    Agrees A σ (Update.ofOutcome (fun _ ↦ .absent) o₁) (Update.ofOutcome (fun _ ↦ .absent) o₂) :=
  ht.2.agrees (ht.1.plain fun _ ↦ ⟨rfl, rfl⟩)

theorem Concurs.follows {o₁ o₂ : Outcome Unit} (hc : Concurs A σ h o₁ o₂) :
    Follows A σ h (Update.ofOutcome (fun _ ↦ .absent) o₁)
      (Update.ofOutcome (fun _ ↦ .absent) o₂) := by
  obtain ⟨σ', ha, ht⟩ := hc
  exact ⟨σ', ha, ht.agrees⟩

theorem Pairs.follows {p₁ p₂ : Handle × Heap} (hp : Pairs A σ h p₁ p₂) :
    Follows A σ h (Update.ofHandle p₁) (Update.ofHandle p₂) := by
  obtain ⟨σ', ha, hx, ht⟩ := hp
  exact ⟨σ', ha.agree, congrArg (fun y ↦ Except.ok (Datum.handle y)) hx.symm, ht⟩

namespace Twin

theorem hashedEnvironment (ht : Twin A σ [] h₁ h₂) (hx : h₁.Rooted [] x) (buckets : Nat)
    (hn₁ : Numbered (h₁.hashedEnvironment x buckets).2.arena)
    (hn₂ : Numbered (h₂.hashedEnvironment (σ x) buckets).2.arena) :
    Follows A σ h₁ (Update.ofOutcome .handle (h₁.hashedEnvironment x buckets))
      (Update.ofOutcome .handle (h₂.hashedEnvironment (σ x) buckets)) := by
  have hq := ht.protect (Q := []) hx nofun
  have hxq := hx.protect x
  have haq : Advances σ h₁ σ (h₁.protect x) := ⟨fun _ hy ↦ hy.protect x, fun _ _ ↦ rfl⟩
  unfold Heap.hashedEnvironment at hn₁ hn₂ ⊢
  dsimp only at hn₁ hn₂ ⊢
  by_cases hb : tableLimit ≤ buckets
  · simp only [hb, if_true]
    exact Agrees.follows ⟨rfl, hq⟩
  · simp only [hb, if_false] at hn₁ hn₂ ⊢
    generalize h₁.protect x = q₁ at hq hxq haq hn₁ ⊢
    generalize h₂.protect (σ x) = q₂ at hq hn₂ ⊢
    rw [arena_unprotect] at hn₁ hn₂
    let slots (h : Heap) : Payload := .values (Array.replicate (max buckets 1) h.nil)
    have hslots : slots q₂ = (slots q₁).rename σ := by
      rw [Payload.rename, Array.map_replicate, ← hq.nil]
    have hchildren : ∀ y ∈ (slots q₁).children, q₁.Rooted [] y := by
      intro y hy
      rw [Payload.children, Array.toList_replicate] at hy
      exact List.eq_of_mem_replicate hy ▸ hq.rooted_nil
    let t₁ := q₁.alloc .list (slots q₁)
    let t₂ := q₂.alloc .list (slots q₂)
    let r₁ := t₁.2.protect t₁.1
    let r₂ := t₂.2.protect t₂.1
    have htn₁ : Numbered t₁.2.arena :=
      (r₁.continues_alloc .environment (.environment r₁.nil x t₁.1) rfl).numbered hn₁
    have htn₂ : Numbered t₂.2.arena :=
      (r₂.continues_alloc .environment (.environment r₂.nil (σ x) t₂.1) rfl).numbered hn₂
    have ht : Pairs A σ q₁ t₁ t₂ := hq.alloc _ hslots rfl (by decide) hchildren htn₁ htn₂
    obtain ⟨σ₁, ha₁, ht₁, hr, htable⟩ := ht.protect
    have hpay : Payload.environment r₂.nil (σ x) t₂.1 =
        (Payload.environment r₁.nil x t₁.1).rename σ₁ := by
      rw [Payload.rename, ht₁, ha₁.agree x hxq, ← hr.nil]
    obtain ⟨σ₂, ha₂, hx₂, ht₂⟩ := hr.alloc _ hpay rfl (by decide)
      (forall_mem_three hr.rooted_nil (ha₁.rooted x hxq) htable) hn₁ hn₂
    exact ⟨σ₂, (haq.trans (ha₁.trans ha₂)).agree,
      congrArg (fun y ↦ Except.ok (Datum.handle y)) hx₂.symm,
      ht₂.unprotect 2 fun _ ↦ ht₂.rooted_pending⟩

theorem runs_quietly (ht : Twin A σ P h₁ h₂) (u : Update) (hu : u.NeverAllocates)
    (hx : ∀ x ∈ u.handles, h₁.Rooted P x) (ha : ∀ x, u.adorned? = some x → Adornable A σ h₁ x) :
    Agrees A σ (u.run h₁) ((u.rename σ).run h₂) := by
  cases u with
  | setString x offset y =>
    obtain ⟨hx, hy⟩ : h₁.Rooted P x ∧ h₁.Rooted P y := by
      simpa [Update.handles, Update.operands] using hx
    exact (ht.setString hx hy offset).agrees
  | setField x f y =>
    obtain ⟨hx, hy⟩ : h₁.Rooted P x ∧ h₁.Rooted P y := by
      simpa [Update.handles, Update.operands] using hx
    exact (ht.setField hx hy f).agrees
  | force x y =>
    obtain ⟨hx, hy⟩ : h₁.Rooted P x ∧ h₁.Rooted P y := by
      simpa [Update.handles, Update.operands] using hx
    exact (ht.force hx hy).agrees
  | setAttributes x y =>
    obtain ⟨hx, hy⟩ : h₁.Rooted P x ∧ h₁.Rooted P y := by
      simpa [Update.handles, Update.operands] using hx
    exact (ht.setAttributes hx hy (ha x rfl)).agrees
  | protect x =>
    have hx := hx x List.mem_cons_self
    exact ⟨rfl, ht.protect hx (List.forall_mem_singleton.mpr hx)⟩
  | unprotect n => exact ⟨rfl, ht.unprotect n (List.forall_mem_nil _)⟩
  | unprotectHandle x => exact ⟨rfl, (ht.unprotectHandle x).narrow (List.forall_mem_nil _)⟩
  | preserve x => exact ⟨rfl, ht.preserve (hx x List.mem_cons_self) (List.forall_mem_nil _)⟩
  | release x => exact ⟨rfl, (ht.release x).narrow (List.forall_mem_nil _)⟩
  | setThreshold threshold =>
    exact ⟨rfl, (ht.setThreshold threshold).narrow (List.forall_mem_nil _)⟩
  | _ => exact hu.elim

theorem agrees_query (ht : Twin A σ P h₁ h₂) (q : Query) (hq : ∀ x ∈ q.handles, h₁.Rooted P x) :
    Agrees A σ (q.run h₁) ((q.rename σ).run h₂) := by
  have hrun (q : Query) (h : Heap) : (q.run h).1 = q.answer h := by
    unfold Query.run
    dsimp only
    split <;> rfl
  have hto (q : Query) (h : Heap) : Reframes h (q.run h).2 ∧ (q.run h).2.symbols = h.symbols ∧
      (q.run h).2.roots = h.roots := by
    rcases q.run_cases h with he | ⟨e, he⟩ <;> rw [he]
    · exact ⟨.refl h, rfl, rfl⟩
    · exact ⟨⟨rfl, rfl, rfl, List.suffix_refl _⟩, rfl, rfl⟩
  obtain ⟨hr₁, hs₁, hk₁⟩ := hto q h₁
  obtain ⟨hr₂, hs₂, hk₂⟩ := hto (q.rename σ) h₂
  obtain ⟨he, ha⟩ := ht.agrees (ht.answer q hq)
  rw [← hrun, ← hrun] at he
  rw [← hrun] at ha
  refine ⟨he, ha.reroot hr₁ hr₂ hs₁ hs₂ (by rw [hk₁, hk₂, ha.roots]) (fun x hx ↦ ?_)
    fun _ ↦ ha.rooted_pending⟩
  exact ha.rooted_of_mem_toList (hk₁ ▸ hx)

theorem follows_update (ht : Twin A σ [] h₁ h₂) (hk : Retains A σ h₁) (u : Update)
    (hu : u ≠ .collect) (hx : ∀ x ∈ u.handles, h₁.Rooted [] x)
    (ha : ∀ x, u.adorned? = some x → Adornable A σ h₁ x)
    (hn₁ : Numbered (u.run h₁).2.arena) (hn₂ : Numbered ((u.rename σ).run h₂).2.arena) :
    Follows A σ h₁ (u.run h₁) ((u.rename σ).run h₂) := by
  by_cases hq : u.NeverAllocates
  · exact (ht.runs_quietly u hq hx ha).follows
  cases u with
  | setString _ _ _ | setField _ _ _ | force _ _ | setAttributes _ _ | protect _ | unprotect _
  | unprotectHandle _ | preserve _ | release _ | setThreshold _ => exact absurd trivial hq
  | intern bytes => exact (ht.intern hk bytes hn₁ hn₂).follows
  | internText text => exact (ht.intern hk _ hn₁ hn₂).follows
  | install name => exact (ht.install hk name hn₁ hn₂).follows
  | newLogical _ | newRawLogical _ | newInteger _ | newReal _ =>
    exact (ht.alloc _ rfl rfl (by decide) (fun _ hy ↦ by cases hy) hn₁ hn₂).follows
  | newString values => exact (ht.newString hk values hn₁ hn₂).follows
  | newList elements | newExpression elements =>
    refine (ht.alloc _ ?_ rfl (by decide) (fun y hy ↦ hx y ?_) hn₁ hn₂).follows
    · rw [Payload.rename, List.map_toArray]
    · simpa [Payload.children, Update.handles, Update.operands] using hy
  | cons head tail | call head tail =>
    obtain ⟨hhead, htail⟩ : h₁.Rooted [] head ∧ h₁.Rooted [] tail := by
      simpa [Update.handles, Update.operands] using hx
    refine (ht.alloc (.cell head tail h₁.nil) ?_ rfl (by decide)
      (forall_mem_three hhead htail ht.rooted_nil) hn₁ hn₂).follows
    rw [Payload.rename, ← ht.nil]
  | pairlist items =>
    exact (ht.pairlist hk items (fun item hi ↦ hx _ (List.mem_map_of_mem hi)) hn₁ hn₂).follows
  | closure formals body env =>
    exact (ht.alloc (.closure formals body env) rfl rfl (by decide) hx hn₁ hn₂).follows
  | environment enclosing =>
    have hx := hx enclosing List.mem_cons_self
    refine (ht.alloc (.environment h₁.nil enclosing h₁.nil) ?_ rfl (by decide)
      (forall_mem_three ht.rooted_nil hx ht.rooted_nil) hn₁ hn₂).follows
    rw [Payload.rename, ← ht.nil]
  | hashedEnvironment enclosing buckets =>
    exact ht.hashedEnvironment (hx enclosing List.mem_cons_self) buckets hn₁ hn₂
  | define x name y =>
    obtain ⟨hx, hy⟩ : h₁.Rooted [] x ∧ h₁.Rooted [] y := by
      simpa [Update.handles, Update.operands] using hx
    exact (ht.define hk hx hy name hn₁ hn₂).follows
  | promise expression env =>
    obtain ⟨hx, hy⟩ : h₁.Rooted [] expression ∧ h₁.Rooted [] env := by
      simpa [Update.handles, Update.operands] using hx
    refine (ht.alloc (.promise h₁.unbound expression env) ?_ rfl (by decide)
      (forall_mem_three ht.rooted_unbound hx hy) hn₁ hn₂).follows
    rw [Payload.rename, ← ht.unbound]
  | primitive tag offset =>
    cases tag with
    | special | builtin =>
      exact (ht.alloc (.primitive offset) rfl rfl (by decide) (fun _ hy ↦ by cases hy)
        hn₁ hn₂).follows
    | _ => exact Agrees.follows ⟨rfl, ht⟩
  | setAttribute x name y =>
    obtain ⟨hx, hname, hy⟩ : h₁.Rooted [] x ∧ h₁.Rooted [] name ∧ h₁.Rooted [] y := by
      simpa [Update.handles, Update.operands] using hx
    exact (ht.setAttribute hx hname hy (ha x rfl) hn₁ hn₂).follows
  | setDimensions x nrow ncol =>
    exact (ht.setDimensions (hx x List.mem_cons_self) (ha x rfl) nrow ncol hn₁ hn₂).follows
  | setNames x names =>
    exact (ht.setNames hk (hx x List.mem_cons_self) (ha x rfl) names hn₁ hn₂).follows
  | collect => exact absurd rfl hu

/-- A collection leaves what the roots lead to, but may free more in the one heap than in the
other. -/
theorem collect (ht : Twin A σ [] h₁ h₂) (hn₁ : Numbered h₁.collect.2.arena)
    (hn₂ : Numbered h₂.collect.2.arena) : Twin A σ [] h₁.collect.2 h₂.collect.2 :=
  ht.grow (h₁.grows_collectWith []) (h₂.grows_collectWith []) hn₁ hn₂ rfl rfl

end Twin

end TaggedHeap.Heap
