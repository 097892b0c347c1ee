import TaggedHeap.Proofs.Failing
import TaggedHeap.Proofs.Strings

namespace TaggedHeap

namespace Text.Utf8

/-- The bytes encode some sequence of characters. -/
def WellFormed (bytes : List UInt8) : Prop :=
  (⟨bytes.toArray⟩ : ByteArray).IsValidUTF8

theorem wellFormed_iff {bytes : List UInt8} : WellFormed bytes ↔ ∃ s, decode bytes = .ok s := by
  simp only [decode_eq_ok_iff]
  constructor
  · intro hb
    exact ⟨String.ofByteArray ⟨bytes.toArray⟩ hb, rfl⟩
  · rintro ⟨s, rfl⟩
    exact s.isValidUTF8

end Text.Utf8

namespace Heap

open Arena Text.Utf8

variable {h : Heap} {v x : Handle} {i : Nat} {bytes : List UInt8} {α : Type}

theorem charText_of_charBytes (hb : h.charBytes x = .ok bytes) : h.charText x =
    match decode bytes with
    | .ok text => .ok text
    | .error defect => .error (.denied (.malformedText defect.message)) := by
  rw [charText, hb, ok_bind]
  rfl

theorem charText_eq_ok_iff {s : String} :
    h.charText x = .ok s ↔ h.charBytes x = .ok (encode s) := by
  cases hb : h.charBytes x with
  | error failure =>
    rw [charText, bind_of_error hb]
    simp
  | ok bytes =>
    rw [charText_of_charBytes hb, Except.ok.injEq, eq_comm (a := bytes), ← decode_eq_ok_iff]
    cases decode bytes with
    | ok text => simp
    | error defect => simp

theorem charText_malformed_iff :
    (∃ reason, h.charText x = .error (.denied (.malformedText reason))) ↔
      ∃ bytes, h.charBytes x = .ok bytes ∧ ¬ WellFormed bytes := by
  cases hb : h.charBytes x with
  | error failure =>
    rw [charText, bind_of_error hb]
    have hother := (h.fails_charBytes x failure hb).ne_malformedText
    simp [hother]
  | ok bytes =>
    simp only [charText_of_charBytes hb, Except.ok.injEq, exists_eq_left', wellFormed_iff]
    cases decode bytes with
    | ok text => simp
    | error defect => simp

/-- What a record spells, unless it stands for the missing string. -/
def present (h : Heap) (spell : Handle → Except Failure α) (x : Handle) :
    Except Failure (Option α) :=
  match Missing.decodeString x h.missingString with
  | some x => some <$> spell x
  | none => .ok none

theorem present_missing (spell : Handle → Except Failure α) :
    h.present spell h.missingString = .ok none := by
  rw [present, Missing.decodeString, if_pos rfl]

theorem present_of_ne (hx : x ≠ h.missingString) (spell : Handle → Except Failure α) :
    h.present spell x = some <$> spell x := by
  rw [present, Missing.decodeString, if_neg hx]

theorem present_eq_none_iff {spell : Handle → Except Failure α} :
    h.present spell x = .ok none ↔ x = h.missingString := by
  constructor
  · intro hp
    by_contra hx
    rw [present_of_ne hx] at hp
    cases hs : spell x with
    | ok a => rw [hs] at hp; cases hp
    | error failure => rw [hs] at hp; cases hp
  · rintro rfl
    exact present_missing spell

/-- What four reads of the same string have in common, whose record is the outcome `char`. -/
structure ReadsAgree (h : Heap) (char : Except Failure Handle)
    (bytes : Except Failure (List UInt8)) (bytes? : Except Failure (Option (List UInt8)))
    (text : Except Failure String) (text? : Except Failure (Option String)) : Prop where
  refused : ∀ failure, char = .error failure → bytes = .error failure ∧ bytes? = .error failure ∧
    text = .error failure ∧ text? = .error failure
  bytes?_eq_none_iff : bytes? = .ok none ↔ char = .ok h.missingString
  text?_eq_none_iff : text? = .ok none ↔ char = .ok h.missingString
  missing : Numbered h.arena → char = .ok h.missingString →
    bytes = .ok (encode missingText) ∧ text = .ok missingText
  bytes?_eq : char ≠ .ok h.missingString → bytes? = some <$> bytes
  text?_eq : char ≠ .ok h.missingString → text? = some <$> text
  stored : Numbered h.arena → ∀ x, char = .ok x → ∃ b, h.charBytes x = .ok b ∧ bytes = .ok b
  text_eq_ok_iff : ∀ s, text = .ok s ↔ bytes = .ok (encode s)
  malformed_iff : (∃ reason, text = .error (.denied (.malformedText reason))) ↔
    ∃ b, bytes = .ok b ∧ ¬ WellFormed b
  /-- A text that is spelt like the missing string is still a text. -/
  namesake : ∀ x, char = .ok x → x ≠ h.missingString → h.charBytes x = .ok (encode missingText) →
    bytes? = .ok (some (encode missingText)) ∧ text? = .ok (some missingText)

/-- The four reads agree, since what they do with a record differs only as spelling it does. -/
theorem readsAgree_of_char {char : Except Failure Handle} (hchar : Fails h.Structural char)
    (hmissing : Numbered h.arena → h.charBytes h.missingString = .ok (encode missingText))
    (hstored : Numbered h.arena → ∀ x, char = .ok x → ∃ b, h.charBytes x = .ok b) :
    ReadsAgree h char (char >>= h.charBytes) (char >>= h.present h.charBytes)
      (char >>= h.charText) (char >>= h.present h.charText) := by
  cases char with
  | error failure =>
    simp only [bind_of_error rfl]
    constructor
    · intro f hf
      cases hf
      exact ⟨rfl, rfl, rfl, rfl⟩
    · simp
    · simp
    · intro _ hx
      cases hx
    · intro _
      exact (map_of_error rfl _).symm
    · intro _
      exact (map_of_error rfl _).symm
    · intro _ x hx
      cases hx
    · simp
    · have hother := (hchar failure rfl).ne_malformedText
      simp [hother]
    · intro x hx
      cases hx
  | ok x =>
    have hne (hx : (.ok x : Except Failure Handle) ≠ .ok h.missingString) :
        x ≠ h.missingString := fun he ↦ hx (congrArg Except.ok he)
    simp only [ok_bind]
    constructor
    · intro f hf
      cases hf
    · rw [present_eq_none_iff, Except.ok.injEq]
    · rw [present_eq_none_iff, Except.ok.injEq]
    · intro hn hx
      cases hx
      exact ⟨hmissing hn, charText_eq_ok_iff.mpr (hmissing hn)⟩
    · intro hx
      exact present_of_ne (hne hx) h.charBytes
    · intro hx
      exact present_of_ne (hne hx) h.charText
    · intro hn y hy
      cases hy
      obtain ⟨b, hb⟩ := hstored hn x rfl
      exact ⟨b, hb, hb⟩
    · intro s
      exact charText_eq_ok_iff
    · exact charText_malformed_iff
    · intro y hy hne hb
      cases hy
      rw [present_of_ne hne, present_of_ne hne, charText_eq_ok_iff.mpr hb, hb]
      exact ⟨rfl, rfl⟩

theorem Arises.spells_missing (ha : Arises h) (hn : Numbered h.arena) :
    h.Spells h.missingString (encode missingText) := by
  apply ha.induction (I := fun g ↦ g.Spells g.missingString (encode missingText)) hn
  · intro seed
    have hx := get?_bare seed (bare seed).missingString
    rw [if_pos rfl] at hx
    exact ⟨_, hx, rfl⟩
  · intro g ds k _ _ hc hg
    have hcore : g.missingString ∈ g.core := List.mem_cons_of_mem _ List.mem_cons_self
    rw [hc.toKeeps.missingString]
    exact hc.spells hg (hc.live _ hcore hg.isLive)
  · intro g _ _ _ _ hg
    exact hg

theorem Lettered.isText_of_getChar (hl : Lettered h) (hp : Proper h.arena)
    (hx : h.getChar v i = .ok x) : h.IsText x := by
  by_cases hv : h.isLive v = true
  · obtain ⟨r, hr⟩ := get?_of_isLive hv
    rw [getChar_of_get? hr (hp.wellFormed.get? hr), orRefuse_eq_ok_iff] at hx
    refine hl v r hr x ?_
    cases hpay : r.payload with
    | strings elements =>
      rw [hpay] at hx
      exact Array.mem_toList_iff.mpr (Array.mem_of_getElem? hx)
    | _ =>
      rw [hpay] at hx
      cases hx
  · rw [getChar_of_not_isLive hv] at hx
    cases hx

/-- What a heap promises of the reads of strings, element by element and cell by cell. -/
structure SpellsAlike (h : Heap) : Prop where
  elements : ∀ v i, ReadsAgree h (h.getChar v i) (h.getBytes v i) (h.getBytes? v i) (h.getText v i)
    (h.getText? v i)
  cells : ∀ v row column,
    let place := h.matrixOffset v row column
    ReadsAgree h (place >>= h.getChar v) (place >>= h.getBytes v) (place >>= h.getBytes? v)
      (place >>= h.getText v) (place >>= h.getText? v)
  cell_queries : ∀ v row column,
    let place := h.matrixOffset v row column
    let answer g := (Query.matrixElement g v row column).answer h
    answer .char = .handle <$> (place >>= h.getChar v) ∧
      answer .bytes = .bytes <$> (place >>= h.getBytes v) ∧
      answer .bytesOption = .option .bytes <$> (place >>= h.getBytes? v) ∧
      answer .text = .text <$> (place >>= h.getText v) ∧
      answer .textOption = .option .text <$> (place >>= h.getText? v)
  unplaced : ∀ v row column failure, h.matrixOffset v row column = .error failure → ∀ g,
    (Query.matrixElement g v row column).answer h = .error failure
  namesake : Numbered (h.internText missingText).2.arena →
    (h.internText missingText).1 ≠ h.missingString

/-- However a heap has come about, the reads of what its strings spell agree. Only for what a string
spells the slots must not outnumber the 32 bits of their numbers. -/
theorem Arises.spells_alike (ha : Arises h) : SpellsAlike h := by
  have hmissing (hn : Numbered h.arena) :
      h.charBytes h.missingString = .ok (encode missingText) :=
    (charBytes_eq_ok_iff ha.proper).mpr (ha.spells_missing hn)
  have hstored {v i x} (hn : Numbered h.arena) (hx : h.getChar v i = .ok x) :
      ∃ b, h.charBytes x = .ok b := by
    obtain ⟨b, hb⟩ := (ha.lettered hn).isText_of_getChar ha.proper hx
    exact ⟨b, (charBytes_eq_ok_iff ha.proper).mpr hb⟩
  have hchar (v : Handle) (i : Nat) : Fails h.Structural (h.getChar v i) :=
    h.fails_element _ v _ _ _ i
  constructor
  · intro v i
    exact readsAgree_of_char (hchar v i) hmissing fun hn x ↦ hstored hn
  · intro v row column place
    have hcell : Fails h.Structural (place >>= h.getChar v) :=
      (h.fails_matrixOffset v row column).bind fun offset _ ↦ hchar v offset
    have hread := readsAgree_of_char hcell hmissing fun hn x hx ↦ by
      obtain ⟨offset, -, hx⟩ := exists_of_bind_eq_ok hx
      exact hstored hn hx
    simp only [bind_assoc] at hread
    exact hread
  · intro v row column
    simp only [Query.answer]
    cases h.matrixOffset v row column with
    | ok offset => exact ⟨rfl, rfl, rfl, rfl, rfl⟩
    | error failure => exact ⟨rfl, rfl, rfl, rfl, rfl⟩
  · intro v row column failure hf g
    exact bind_of_error hf _
  · intro hn
    have hc := h.continues_intern (encode missingText)
    obtain ⟨hi, hx⟩ := (ha.interned (hc.numbered hn)).intern ha.proper (encode missingText) hn
    have hm : (h.internText missingText).2.missingString = h.missingString :=
      congrArg (fun v ↦ v.2.1) hc.values
    exact hm ▸ hi.ne_missing _ _ hx

theorem spells_alike_of_namesake :
    let v := (create 0 0).newString [some missingText, none, none]
    let b := v.2.intern [0xFF]
    let h := (b.2.setString v.1 2 b.1).2
    Arises h ∧ SpellsAlike h ∧ Numbered h.arena ∧
      h.getBytes? v.1 0 = .ok (some (encode missingText)) ∧
      h.getText? v.1 0 = .ok (some missingText) ∧
      (h.matrixOffset v.1 1 0 >>= h.getText? v.1) = .ok none ∧
      (h.matrixOffset v.1 1 0 >>= h.getText v.1) = .ok missingText ∧
      ∃ reason, h.getText v.1 2 = .error (.denied (.malformedText reason)) := by
  intro v b h
  have hv : Arises v.2 := .run (.update (.newString [some missingText, none, none])) (.create 0 0)
    trivial
  have hb : Arises b.2 := hv.run (.update (.intern [0xFF])) trivial
  have ha : Arises h := hb.run (.update (.setString v.1 2 b.1)) trivial
  have hn : Numbered h.arena := by decide +kernel
  have hs := Arises.spells_alike ha
  have hx : h.getChar v.1 0 = .ok ⟨8, 0⟩ := by decide +kernel
  have hbytes : h.charBytes ⟨8, 0⟩ = .ok (encode missingText) := by decide +kernel
  have hsame := (hs.elements v.1 0).namesake ⟨8, 0⟩ hx (by decide +kernel) hbytes
  have hcell : (h.matrixOffset v.1 1 0 >>= h.getChar v.1) = .ok h.missingString := by
    decide +kernel
  have hmalformed : h.getBytes v.1 2 = .ok [0xFF] := by decide +kernel
  have hbroken : ¬ WellFormed [0xFF] := by
    unfold WellFormed
    decide +kernel
  exact ⟨ha, hs, hn, hsame.1, hsame.2, (hs.cells v.1 1 0).text?_eq_none_iff.mpr hcell,
    ((hs.cells v.1 1 0).missing hn hcell).2, (hs.elements v.1 2).malformed_iff.mpr
      ⟨[0xFF], hmalformed, hbroken⟩⟩

end Heap

end TaggedHeap
