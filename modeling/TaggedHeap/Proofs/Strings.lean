import TaggedHeap.Proofs.Answers
import TaggedHeap.Proofs.Chronicle

namespace TaggedHeap

theorem Payload.exists_strings {p : Payload} (hp : p.fits .string = true) :
    ∃ elements, p = strings elements := by
  cases p with
  | strings elements => exact ⟨elements, rfl⟩
  | _ => exact absurd hp Bool.false_ne_true

namespace Heap

open Arena

variable {h h' : Heap} {v x : Handle} {i : Nat} {ds : List Deed}

/-- What vectors of strings hold is text. -/
def Lettered (h : Heap) : Prop :=
  ∀ x r, h.arena.get? x = some r → ∀ y ∈ r.payload.texts, h.IsText y

theorem Carries.lettered (hc : Carries h ds h') (hl : Lettered h) : Lettered h' := by
  intro x r' hx' y hy
  have hold : h.IsText y := by
    by_cases hx : h.isLive x = true
    · obtain ⟨r, hr⟩ := get?_of_isLive hx
      rcases (hc.revises x r r' hr hx').1.texts y hy with hy | hy
      · exact hl x r hr y hy
      · exact hy
    · exact hc.texts x r' hx hx' y hy
  have hlink : y ∈ h'.arena.linksOf x := by
    rw [linksOf_of_get? hx']
    exact List.mem_cons_of_mem _ (Payload.texts_subset _ hy)
  exact hc.isText hold (hc.linked x y (contains_of_get? hx') hlink hold.isLive)

theorem lettered_bare (seed : UInt32) : Lettered (bare seed) := by
  intro x r hx y hy
  rw [get?_bare] at hx
  split_ifs at hx with hm hn
  · cases hx
    cases hy
  · cases hx
    cases hy

theorem Arises.lettered (ha : Arises h) (hn : Numbered h.arena) : Lettered h :=
  ha.induction hn lettered_bare (fun _ _ _ _ _ hc hl ↦ hc.lettered hl) fun _ _ _ _ _ hl ↦ hl

/-- What reads of an element find if the element is text. Only its decoding can fail. -/
structure FindsText (h : Heap) (read : Getter → Except Failure Datum) : Prop where
  char : ∃ x, read .char = .ok (.handle x) ∧ h.tagOf x = .ok .char
  bytes : ∃ bytes, read .bytes = .ok (.bytes bytes)
  bytesOption : ∃ bytes, read .bytesOption = .ok (.option .bytes bytes)
  text : ∀ failure, read .text = .error failure →
    ∃ reason, failure = .denied (.malformedText reason)
  textOption : ∀ failure, read .textOption = .error failure →
    ∃ reason, failure = .denied (.malformedText reason)

theorem malformed_of_charText {bytes : List UInt8} {failure : Failure}
    (hb : h.charBytes x = .ok bytes) (he : h.charText x = .error failure) :
    ∃ reason, failure = .denied (.malformedText reason) := by
  rw [charText, hb, ok_bind] at he
  split at he
  · cases he
  · next defect _ =>
    cases he
    exact ⟨_, rfl⟩

theorem findsText_of_getChar (hp : Proper h.arena) (hx : h.getChar v i = .ok x)
    (ht : h.IsText x) : h.FindsText fun g ↦ g.read h v i := by
  obtain ⟨bytes, hs⟩ := ht
  have hb := (charBytes_eq_ok_iff hp).mpr hs
  have hdecode : Missing.decodeString x h.missingString = none ∨
      Missing.decodeString x h.missingString = some x := by
    unfold Missing.decodeString
    split_ifs
    · exact .inl rfl
    · exact .inr rfl
  refine ⟨⟨x, ?_, (tagOf_eq_char_iff hp).mpr ⟨bytes, hs⟩⟩, ⟨bytes, ?_⟩, ?_, fun failure he ↦ ?_,
    fun failure he ↦ ?_⟩
  · simp only [Getter.read, hx]
    rfl
  · simp only [Getter.read, getBytes, hx, ok_bind, hb]
    rfl
  · rcases hdecode with hd | hd
    · refine ⟨none, ?_⟩
      simp only [Getter.read, getBytes?, hx, ok_bind, hd]
      rfl
    · refine ⟨some bytes, ?_⟩
      simp only [Getter.read, getBytes?, hx, ok_bind, hd, hb]
      rfl
  · have he := eq_error_of_map he
    rw [getText, hx, ok_bind] at he
    exact malformed_of_charText hb he
  · have he := eq_error_of_map he
    rw [getText?, hx, ok_bind] at he
    rcases hdecode with hd | hd
    · rw [hd] at he
      cases he
    · rw [hd] at he
      exact malformed_of_charText hb (eq_error_of_map he)

structure HoldsText (h : Heap) : Prop where
  elements : ∀ v r elements, h.record v = .ok r → r.payload = .strings elements →
    ∀ y ∈ elements, h.tagOf y = .ok .char
  reads : ∀ v length i, h.tagOf v = .ok .string → h.vectorLength v = .ok length → i < length →
    h.FindsText fun g ↦ g.read h v i
  cells : ∀ v row column offset, h.tagOf v = .ok .string →
    h.matrixOffset v row column = .ok offset →
    h.FindsText fun g ↦ (Query.matrixElement g v row column).answer h

theorem Lettered.exists_getChar (hl : Lettered h) (hp : Proper h.arena)
    (ht : h.tagOf v = .ok .string) {length : Nat} (hlen : h.vectorLength v = .ok length)
    (hi : i < length) : ∃ x, h.getChar v i = .ok x ∧ h.IsText x := by
  obtain ⟨r, hr, he⟩ := exists_of_bind_eq_ok ht
  have hv := get?_of_record hr
  have hw := hp.wellFormed.get? hv
  have htag : r.tag = .string := Except.ok.inj he
  obtain ⟨elements, hpay⟩ := Payload.exists_strings (htag ▸ hw : r.payload.fits .string = true)
  have hsize : elements.size = length := by
    rw [vectorLength_of_get? hv hw, hpay] at hlen
    exact Except.ok.inj hlen
  rw [← hsize] at hi
  refine ⟨elements[i], ?_, hl v r hv _ ?_⟩
  · rw [getChar_of_get? hv hw, orRefuse_eq_ok_iff, hpay]
    exact Array.getElem?_eq_getElem hi
  · rw [hpay]
    exact Array.mem_toList_iff.mpr (Array.getElem_mem hi)

/-- However a heap has come about, its vectors of strings hold `char` records only, and reads of
their elements find them. The slots must not outnumber the 32 bits of their numbers. -/
theorem Arises.holdsText (ha : Arises h) (hn : Numbered h.arena) : HoldsText h where
  elements v r elements hr hpay y hy := by
    have ht := ha.lettered hn v r (get?_of_record hr) y (by
      rw [hpay]
      exact Array.mem_toList_iff.mpr hy)
    exact (tagOf_eq_char_iff ha.proper).mpr ht
  reads v length i ht hlen hi := by
    obtain ⟨x, hx, htext⟩ := (ha.lettered hn).exists_getChar ha.proper ht hlen hi
    exact findsText_of_getChar ha.proper hx htext
  cells v row column offset ht ho := by
    obtain ⟨length, nrow, hlen, -, -, -, hi⟩ := matrixOffset_bounds ho
    obtain ⟨x, hx, htext⟩ := (ha.lettered hn).exists_getChar ha.proper ht hlen hi
    have hread := findsText_of_getChar ha.proper hx htext
    have hcell (g : Getter) :
        (Query.matrixElement g v row column).answer h = g.read h v offset := by
      rw [Query.answer, ho, ok_bind]
    simp only [hcell]
    exact hread

theorem holdsText_of_newString :
    let p := (create 0 1).newString [some "a", none]
    Arises p.2 ∧ Numbered p.2.arena ∧ HoldsText p.2 ∧
      p.2.FindsText fun g ↦ g.read p.2 p.1 1 := by
  intro p
  have ha : Arises p.2 := .run (.update (.newString [some "a", none])) (.create 0 1) trivial
  have hn : Numbered p.2.arena := by decide +kernel
  have ht : p.2.tagOf p.1 = .ok .string := by decide +kernel
  have hlen : p.2.vectorLength p.1 = .ok 2 := by decide +kernel
  have hh := Arises.holdsText ha hn
  exact ⟨ha, hn, hh, hh.reads p.1 2 1 ht hlen (by decide)⟩

end Heap

end TaggedHeap
