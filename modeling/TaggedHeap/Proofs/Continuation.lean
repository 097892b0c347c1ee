import TaggedHeap.Proofs.Formation
import TaggedHeap.Proofs.Reading

namespace TaggedHeap.Heap

open Arena

variable {a b c h : Heap} {x y : Handle} {j k n : Nat} {α : Type}

def values (h : Heap) : Handle × Handle × Handle × Handle × Handle :=
  (h.nil, h.missingString, h.unbound, h.dimSymbol, h.namesSymbol)

/-- The second heap arises from the first in the course of an operation that has `k` protections
of its own at the time. -/
structure Continues (h : Heap) (k : Nat) (h' : Heap) : Prop where
  evolves : Evolves h.arena h'.arena
  values : h'.values = h.values
  symbols : h.symbols <:+ h'.symbols
  roots : ∃ pushed : List Handle, pushed.length = k ∧
    h'.roots = { h.roots with stack := pushed ++ h.roots.stack }
  live : ∀ x ∈ h.rootHandles [], h.isLive x = true → h'.isLive x = true

theorem Continues.nil (hc : Continues a k b) : b.nil = a.nil :=
  congrArg Prod.fst hc.values

theorem mem_rootHandles {pending : List Handle} :
    x ∈ h.rootHandles pending ↔
      x = h.nil ∨ x = h.missingString ∨ x = h.unbound ∨ x ∈ h.symbols.map Prod.snd ∨
        x ∈ h.roots.stack ∨ x ∈ h.roots.preserved ∨ x ∈ pending := by
  simp only [rootHandles, Roots.toList, List.mem_cons, List.mem_append, or_assoc]

theorem rootHandles_eq (h : Heap) (pending : List Handle) :
    h.rootHandles pending = h.rootHandles [] ++ pending := by
  simp [rootHandles]

theorem mem_rootHandles_of_mem {pending : List Handle} (hx : x ∈ h.rootHandles []) :
    x ∈ h.rootHandles pending :=
  h.rootHandles_eq pending ▸ List.mem_append_left _ hx

theorem Continues.mem_rootHandles (hc : Continues a k b) (hx : x ∈ a.rootHandles []) :
    x ∈ b.rootHandles [] := by
  obtain ⟨pushed, _, hr⟩ := hc.roots
  obtain ⟨hn, hm, hu, _⟩ : b.nil = a.nil ∧ b.missingString = a.missingString ∧
      b.unbound = a.unbound ∧ _ := by simpa only [Heap.values, Prod.mk.injEq] using hc.values
  have hs : x ∈ a.symbols.map Prod.snd → x ∈ b.symbols.map Prod.snd := fun hx ↦
    (hc.symbols.map Prod.snd).subset hx
  rw [Heap.mem_rootHandles] at hx ⊢
  rw [hn, hm, hu, hr, List.mem_append]
  tauto

theorem Continues.refl (h : Heap) : Continues h 0 h where
  evolves := .refl
  values := rfl
  symbols := List.suffix_refl _
  roots := ⟨[], rfl, rfl⟩
  live _ _ hx := hx

theorem Continues.trans (hab : Continues a j b) (hbc : Continues b k c) :
    Continues a (j + k) c where
  evolves := Relation.ReflTransGen.trans hab.evolves hbc.evolves
  values := hbc.values.trans hab.values
  symbols := hab.symbols.trans hbc.symbols
  roots := by
    obtain ⟨p, hp, hb⟩ := hab.roots
    obtain ⟨q, hq, hc⟩ := hbc.roots
    refine ⟨q ++ p, by rw [List.length_append, hp, hq, Nat.add_comm], ?_⟩
    rw [hc, hb, List.append_assoc]
  live x hx hl := hbc.live x (hab.mem_rootHandles hx) (hab.live x hx hl)

theorem continues_protect (h : Heap) (x : Handle) : Continues h 1 (h.protect x) where
  evolves := .refl
  values := rfl
  symbols := List.suffix_refl _
  roots := ⟨[x], rfl, rfl⟩
  live _ _ hx := hx

theorem mem_rootHandles_protect (h : Heap) (x : Handle) : x ∈ (h.protect x).rootHandles [] := by
  rw [mem_rootHandles]
  exact .inr (.inr (.inr (.inr (.inl List.mem_cons_self))))

theorem mem_rootHandles_protect_protect (h : Heap) (x y : Handle) :
    x ∈ ((h.protect x).protect y).rootHandles [] :=
  ((h.protect x).continues_protect y).mem_rootHandles (h.mem_rootHandles_protect x)

theorem Continues.unprotect (hc : Continues a j b) (hj : j = k + n) :
    Continues a k (b.unprotect n) := by
  obtain ⟨pushed, hp, hr⟩ := hc.roots
  have hn : n ≤ pushed.length := by omega
  have he : b.unprotect n = { b with
      roots := { a.roots with stack := pushed.drop n ++ a.roots.stack } } := by
    unfold Heap.unprotect Roots.unprotect?
    rw [hr, if_pos (by rw [List.length_append]; omega), List.drop_append_of_le_length hn]
  rw [he]
  exact ⟨hc.evolves, hc.values, hc.symbols,
    ⟨pushed.drop n, by rw [List.length_drop]; omega, rfl⟩, hc.live⟩

theorem continues_settle (h : Heap) (pending : List Handle) :
    Continues h 0 (h.settle pending) := by
  unfold settle
  split
  · exact ⟨.single (.collect _), rfl, List.suffix_refl _, ⟨[], rfl, rfl⟩,
      fun x hx hl ↦ contains_collect_of_mem (mem_rootHandles_of_mem hx) hl⟩
  · exact .refl h

theorem isLive_settle_of_mem {pending : List Handle} (hx : x ∈ pending)
    (hl : h.isLive x = true) : (h.settle pending).isLive x = true := by
  unfold settle
  split
  · exact contains_collect_of_mem (h.rootHandles_eq pending ▸ List.mem_append_right _ hx) hl
  · exact hl

theorem continues_alloc (h : Heap) (tag : TypeTag) (payload : Payload)
    (hf : payload.fits tag = true) : Continues h 0 (h.alloc tag payload).2 := by
  have hs := h.continues_settle payload.children
  have he := h.evolves_alloc tag payload hf
  rw [alloc_eq] at he ⊢
  exact ⟨he, hs.values, hs.symbols, hs.roots, fun x hx hl ↦ contains_insert _ (hs.live x hx hl)⟩

theorem isLive_alloc_of_mem {tag : TypeTag} {payload : Payload} (hx : x ∈ payload.children)
    (hl : h.isLive x = true) : (h.alloc tag payload).2.isLive x = true := by
  rw [alloc_eq]
  exact contains_insert _ (isLive_settle_of_mem hx hl)

theorem continues_modify (h : Heap) (x : Handle) {f : Record → Record}
    (hf : ∀ r, h.arena.get? x = some r →
      (f r).marked = r.marked ∧ (r.WellFormed → (f r).WellFormed)) :
    Continues h 0 { h with arena := h.arena.modify x f } where
  evolves := .single (.rewrite hf)
  values := rfl
  symbols := List.suffix_refl _
  roots := ⟨[], rfl, rfl⟩
  live _ _ hl := (contains_modify f).trans hl

/-- An operation has ended, and has taken its protections back unless it broke a contract. -/
def Concludes (h : Heap) (o : Outcome α) : Prop :=
  ∃ k, Continues h k o.2 ∧ (Answered o.1 → k = 0)

theorem Continues.concludes {e : Except Failure α} (hc : Continues a 0 b) :
    Concludes a (e, b) :=
  ⟨0, hc, fun _ ↦ rfl⟩

theorem concludes_rewrite {r r' : Record} {e : Except Failure α} (hx : h.arena.get? x = some r)
    (hm : r'.marked = r.marked) (hw : r.WellFormed → r'.WellFormed) :
    Concludes h (e, { h with arena := h.arena.modify x fun _ ↦ r' }) := by
  refine Continues.concludes (h.continues_modify x fun q hq ↦ ?_)
  rw [hx, Option.some_inj] at hq
  exact hq ▸ ⟨hm, hw⟩

theorem Concludes.after {o : Outcome α} (hab : Continues a 0 b) (ho : Concludes b o) :
    Concludes a o := by
  obtain ⟨k, hk, he⟩ := ho
  exact ⟨0 + k, hab.trans hk, fun hn ↦ by rw [he hn]⟩

theorem Concludes.unprotectAfter {o : Outcome α} (hab : Continues a n b) (ho : Concludes b o) :
    Concludes a (unprotectAfter n o) := by
  obtain ⟨k, hk, he⟩ := ho
  obtain ⟨e, h⟩ := o
  unfold Heap.unprotectAfter
  split
  · next f h' heq =>
    cases heq
    exact ⟨n + k, hab.trans hk, fun hn ↦ absurd rfl (hn f)⟩
  · next o' e' h' hne heq =>
    cases heq
    have hn : Answered e := hne
    obtain rfl := he hn
    exact ⟨0, (hab.trans hk).unprotect (Nat.add_comm n 0), fun _ ↦ rfl⟩

theorem Concludes.isLive {o : Outcome α} (ho : Concludes h o) (hx : x ∈ h.rootHandles [])
    (hl : h.isLive x = true) : o.2.isLive x = true := by
  obtain ⟨k, hk, _⟩ := ho
  exact hk.live x hx hl

theorem Concludes.evolves {o : Outcome α} (ho : Concludes h o) : Evolves h.arena o.2.arena := by
  obtain ⟨k, hk, _⟩ := ho
  exact hk.evolves

theorem fst_unprotectAfter (n : Nat) (o : Outcome α) : (unprotectAfter n o).1 = o.1 := by
  unfold unprotectAfter
  split
  · rfl
  · rfl

theorem isLive_unprotectAfter (n : Nat) (o : Outcome α) :
    (unprotectAfter n o).2.isLive x = o.2.isLive x := by
  rw [isLive, arena_unprotectAfter, isLive]

end TaggedHeap.Heap
