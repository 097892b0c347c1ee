import TaggedHeap.Guard
import TaggedHeap.Request
import TaggedHeap.Proofs.Kind
import TaggedHeap.Proofs.Occupancy
import Mathlib.Logic.Relation

namespace TaggedHeap

namespace Arena

variable {a b : Arena} {x : Handle}

/-- Whatever a program does to a heap, it reaches the arena in these three ways only. -/
inductive Change : Arena → Arena → Prop
  | insert {a : Arena} {r : Record} :
      r.marked = false → r.WellFormed → Change a (a.insert r).2
  | rewrite {a : Arena} {x : Handle} {f : Record → Record} :
      (∀ r, a.get? x = some r → (f r).marked = r.marked ∧ (r.WellFormed → (f r).WellFormed)) →
      Change a (a.modify x f)
  | collect {a : Arena} (roots : List Handle) : Change a (a.mark roots).2.sweep.2

abbrev Evolves : Arena → Arena → Prop :=
  Relation.ReflTransGen Change

theorem Marking.wellFormed {work : List Handle} {n : Nat} (h : Marking a work n b)
    (ha : All Record.WellFormed a) : All Record.WellFormed b := by
  induction h with
  | done => exact ha
  | mark _ _ _ ih => exact ih (ha.modify fun _ _ hr ↦ hr)

theorem Change.unmarked (h : Change a b) (ha : Unmarked a) : Unmarked b := by
  cases h with
  | insert hm _ => exact ha.insert hm
  | rewrite hf => exact All.modify ha fun r hr hm ↦ (hf r hr).1.trans hm
  | collect roots => exact Unmarked.sweep

theorem Change.wellFormed (h : Change a b) (ha : All Record.WellFormed a) :
    All Record.WellFormed b := by
  cases h with
  | insert _ hw => exact ha.insert hw
  | rewrite hf => exact ha.modify fun r hr ↦ (hf r hr).2
  | collect roots => exact ((marking_mark a roots).wellFormed ha).sweep fun _ hr ↦ hr

theorem Change.size_slots_le (h : Change a b) : a.slots.size ≤ b.slots.size := by
  cases h with
  | insert _ _ => exact (a.size_slots_insert _).1
  | rewrite _ => exact (size_slots_modify _).ge
  | collect roots => rw [size_slots_sweep, (marking_mark a roots).size_slots]

theorem Change.accounted (h : Change a b) (ha : Accounted a) (hb : Numbered b) :
    Accounted b := by
  cases h with
  | insert _ _ => exact ha.insert _
  | rewrite _ => exact ha.modify _ _
  | collect roots =>
    refine ((marking_mark a roots).accounted ha).sweep ?_
    rwa [Numbered, size_slots_sweep] at hb

structure Proper (a : Arena) : Prop where
  unmarked : Unmarked a
  wellFormed : All Record.WellFormed a
  accounted : Numbered a → Accounted a

theorem Proper.empty (seed : UInt32) : Proper (empty seed) where
  unmarked := All.empty seed
  wellFormed := All.empty seed
  accounted _ := .empty seed

theorem Change.proper (h : Change a b) (ha : Proper a) : Proper b where
  unmarked := h.unmarked ha.unmarked
  wellFormed := h.wellFormed ha.wellFormed
  accounted hb := h.accounted (ha.accounted (h.size_slots_le.trans hb)) hb

theorem Evolves.proper (h : Evolves a b) (ha : Proper a) : Proper b := by
  induction h with
  | refl => exact ha
  | tail _ hc ih => exact hc.proper ih

theorem Evolves.size_slots_le (h : Evolves a b) : a.slots.size ≤ b.slots.size := by
  induction h with
  | refl => exact le_rfl
  | tail _ hc ih => exact ih.trans hc.size_slots_le

end Arena

namespace Heap

open Arena

variable (h : Heap) {x y : Handle}

@[simp] theorem arena_unprotect (n : Nat) : (h.unprotect n).arena = h.arena := by
  unfold unprotect
  split <;> rfl

@[simp] theorem arena_unprotectAfter {α : Type} (n : Nat) (o : Outcome α) :
    (unprotectAfter n o).2.arena = o.2.arena := by
  unfold unprotectAfter
  split
  · rfl
  · exact arena_unprotect _ n

/-- The heap at the moment when an allocation stores its record. -/
def settle (pending : List Handle) : Heap :=
  if h.isDue then (h.collectWith pending).2 else h

theorem nil_settle (pending : List Handle) : (h.settle pending).nil = h.nil := by
  unfold settle
  split <;> rfl

theorem alloc_eq (tag : TypeTag) (payload : Payload) :
    h.alloc tag payload =
      (((h.settle payload.children).arena.insert (.new tag h.nil payload)).1,
        { h.settle payload.children with
          arena := ((h.settle payload.children).arena.insert (.new tag h.nil payload)).2
          allocations := (h.settle payload.children).allocations + 1 }) := by
  rw [← nil_settle h payload.children]
  rfl

theorem evolves_settle (pending : List Handle) : Evolves h.arena (h.settle pending).arena := by
  unfold settle
  split
  · exact .single (.collect _)
  · exact .refl

theorem evolves_alloc (tag : TypeTag) (payload : Payload) (hf : payload.fits tag = true) :
    Evolves h.arena (h.alloc tag payload).2.arena := by
  rw [alloc_eq]
  exact (h.evolves_settle _).tail (.insert rfl hf)

/-- Where slots have numbers of their own, an allocation returns a handle of what it stored. -/
theorem get?_alloc {tag : TypeTag} {payload : Payload} (hp : Proper h.arena)
    (hn : Numbered (h.alloc tag payload).2.arena) :
    (h.alloc tag payload).2.arena.get? (h.alloc tag payload).1 =
      some (.new tag h.nil payload) := by
  rw [alloc_eq] at hn ⊢
  have hs := Evolves.proper (h.evolves_settle payload.children) hp
  exact (hs.accounted ((size_slots_insert _ _).1.trans hn)).get?_insert _ hn

theorem get?_alloc_of_ne {h : Heap} {tag : TypeTag} {payload : Payload}
    (hx : x ≠ (h.alloc tag payload).1) :
    (h.alloc tag payload).2.arena.get? x = (h.settle payload.children).arena.get? x := by
  rw [alloc_eq] at hx ⊢
  exact get?_insert_of_ne hx

theorem size_slots_settle (pending : List Handle) :
    (h.settle pending).arena.slots.size = h.arena.slots.size := by
  unfold settle
  split
  · exact (size_slots_sweep _).trans (marking_mark _ _).size_slots
  · rfl

theorem size_slots_alloc_le (tag : TypeTag) (payload : Payload) :
    (h.alloc tag payload).2.arena.slots.size ≤ h.arena.slots.size + 1 := by
  rw [alloc_eq, ← size_slots_settle h payload.children]
  exact (size_slots_insert _ _).2

theorem update_cases (x : Handle) (f : Record → Except Failure Record) :
    (∃ r r', h.arena.get? x = some r ∧ f r = .ok r' ∧
        h.update x f = (.ok (), { h with arena := h.arena.modify x fun _ ↦ r' })) ∨
      ∃ failure, h.update x f = (.error failure, h) := by
  unfold update record
  cases hx : h.arena.get? x with
  | none => exact .inr ⟨_, rfl⟩
  | some r =>
    cases hr : f r with
    | error failure => exact .inr ⟨failure, by simp [bind, Except.bind, hr]⟩
    | ok r' => exact .inl ⟨r, r', rfl, hr, by simp [bind, Except.bind, hr]⟩

theorem setField_cases (x : Handle) (f : Field) (value : Handle) :
    (∃ r payload, h.arena.get? x = some r ∧ r.payload.setField? value f = some payload ∧
        h.setField x f value =
          (.ok (), { h with arena := h.arena.modify x fun _ ↦ { r with payload := payload } })) ∨
      ∃ failure, h.setField x f value = (.error failure, h) := by
  unfold setField
  refine (h.update_cases x _).imp ?_ id
  rintro ⟨r, r', hx, hr, he⟩
  split at hr
  · split at hr
    · next payload hp =>
      cases hr
      exact ⟨r, payload, hx, hp, he⟩
    · cases hr
  · cases hr

theorem setString_cases (x : Handle) (offset : Nat) (value : Handle) :
    (∃ r elements, h.arena.get? x = some r ∧ r.payload = .strings elements ∧
        h.setString x offset value =
          (.ok (), { h with arena := h.arena.modify x fun _ ↦
            { r with payload := .strings (elements.setIfInBounds offset value) } })) ∨
      ∃ failure, h.setString x offset value = (.error failure, h) := by
  unfold setString
  split
  · exact .inr ⟨_, rfl⟩
  · split
    · refine (h.update_cases x _).imp ?_ id
      rintro ⟨r, r', hx, hr, he⟩
      split at hr
      · next elements hp =>
        split at hr
        · cases hr
          exact ⟨r, elements, hx, hp, he⟩
        · cases hr
      · cases hr
    · exact .inr ⟨_, rfl⟩

theorem setAttributes_cases (x attributes : Handle) :
    (∃ r, h.arena.get? x = some r ∧
        h.setAttributes x attributes =
          (.ok (), { h with arena := h.arena.modify x fun _ ↦
            { r with attributes := attributes } })) ∨
      ∃ failure, h.setAttributes x attributes = (.error failure, h) := by
  rcases h.update_cases x fun r ↦ .ok { r with attributes := attributes } with
    ⟨r, r', hx, hr, he⟩ | hfail
  · cases hr
    exact .inl ⟨r, hx, he⟩
  · exact .inr hfail

@[simp] theorem isLive_setField (x : Handle) (f : Field) (value : Handle) :
    (h.setField x f value).2.isLive y = h.isLive y := by
  rcases h.setField_cases x f value with ⟨r, payload, _, _, he⟩ | ⟨failure, he⟩
  · rw [he]
    exact contains_modify _
  · rw [he]

@[simp] theorem isLive_setString (x : Handle) (offset : Nat) (value : Handle) :
    (h.setString x offset value).2.isLive y = h.isLive y := by
  rcases h.setString_cases x offset value with ⟨r, elements, _, _, he⟩ | ⟨failure, he⟩
  · rw [he]
    exact contains_modify _
  · rw [he]

@[simp] theorem isLive_setAttributes (x attributes : Handle) :
    (h.setAttributes x attributes).2.isLive y = h.isLive y := by
  rcases h.setAttributes_cases x attributes with ⟨r, _, he⟩ | ⟨failure, he⟩
  · rw [he]
    exact contains_modify _
  · rw [he]

end Heap

end TaggedHeap
