import TaggedHeap.Proofs.Retention

namespace TaggedHeap

namespace Missing

/-- All bits of the exponent are set and the fraction is not zero: a not-a-number of either sign,
quiet or signalling. Its low word is the payload of missing reals. -/
def Marks (bits : UInt64) : Prop :=
  bits.toNat / 2 ^ 52 % 2 ^ 11 = 2047 ∧ bits.toNat % 2 ^ 52 ≠ 0 ∧ bits.toNat % 2 ^ 32 = 1954

instance : DecidablePred Marks := fun _ ↦ inferInstanceAs (Decidable (_ ∧ _ ∧ _))

theorem isNaN_iff (bits : UInt64) :
    isNaN bits = true ↔ bits.toNat / 2 ^ 52 % 2 ^ 11 = 2047 ∧ bits.toNat % 2 ^ 52 ≠ 0 := by
  have hmask : (bits &&& 0x7FFFFFFFFFFFFFFF).toNat = bits.toNat % 2 ^ 63 := by
    rw [UInt64.toNat_and]
    exact Nat.and_two_pow_sub_one_eq_mod _ 63
  have hlow : (0x7FF0000000000000 : UInt64).toNat = 2047 * 2 ^ 52 := rfl
  rw [isNaN, decide_eq_true_iff, UInt64.lt_iff_toNat_lt, hmask, hlow]
  omega

theorem isMissingReal_iff (bits : UInt64) : isMissingReal bits = true ↔ Marks bits := by
  have hword : (bits.toUInt32 == realPayload) = true ↔ bits.toNat % 2 ^ 32 = 1954 := by
    rw [beq_iff_eq, ← UInt32.toNat_inj, UInt64.toNat_toUInt32]
    rfl
  rw [isMissingReal, Bool.and_eq_true, isNaN_iff, hword, and_assoc, Marks]

theorem decodeReal_eq (bits : UInt64) :
    decodeReal bits = if Marks bits then none else some bits := by
  simp only [decodeReal, isMissingReal_iff]

end Missing

inductive Contents
  | logical (values : List (Option Bool))
  | rawLogical (elements : List Int32)
  | integer (elements : List Int32)
  | real (elements : List UInt64)
  | string (values : List (Option String))
  | list (elements : List Handle)
  | expression (elements : List Handle)

namespace Contents

def make (h : Heap) : Contents → Handle × Heap
  | logical values => h.newLogical values
  | rawLogical elements => h.newRawLogical elements
  | integer elements => h.newInteger elements
  | real elements => h.newReal elements
  | string values => h.newString values
  | list elements => h.newList elements
  | expression elements => h.newExpression elements

def update : Contents → Update
  | logical values => .newLogical values
  | rawLogical elements => .newRawLogical elements
  | integer elements => .newInteger elements
  | real elements => .newReal elements
  | string values => .newString values
  | list elements => .newList elements
  | expression elements => .newExpression elements

theorem run_update (c : Contents) (h : Heap) : c.update.run h = Update.ofHandle (c.make h) := by
  cases c <;> rfl

def tag : Contents → TypeTag
  | logical _ | rawLogical _ => .logical
  | integer _ => .integer
  | real _ => .real
  | string _ => .string
  | list _ => .list
  | expression _ => .expression

def length : Contents → Nat
  | logical values => values.length
  | rawLogical elements | integer elements => elements.length
  | real elements => elements.length
  | string values => values.length
  | list elements | expression elements => elements.length

def ReadsAt (read : Getter → Except Failure Datum) (i : Nat) : Contents → Prop
  | logical values => ∀ b, values[i]? = some b → read .logicalOption = .ok (.option .truth b)
  | rawLogical elements => ∀ n, elements[i]? = some n →
      read .rawLogical = .ok (.integer n) ∧ read .logical = .ok (.truth (n != 0)) ∧
        read .logicalOption =
          .ok (.option .truth (if n = Int32.minValue then none else some (n != 0)))
  | integer elements => ∀ n, elements[i]? = some n →
      read .integer = .ok (.integer n) ∧
        read .integerOption = .ok (.option .integer (if n = Int32.minValue then none else some n))
  | real elements => ∀ bits, elements[i]? = some bits →
      read .real = .ok (.real bits) ∧
        read .realOption = .ok (.option .real (if Missing.Marks bits then none else some bits))
  | string values => ∀ text, values[i]? = some text →
      read .textOption = .ok (.option .text text)
  | list elements | expression elements => ∀ x, elements[i]? = some x →
      read .value = .ok (.handle x)

/-- A vector is read as what it was made from, at all offsets of the set. -/
structure Yields (c : Contents) (s : Set Nat) (h : Heap) (v : Handle) : Prop where
  tagOf : h.tagOf v = .ok c.tag
  vectorLength : h.vectorLength v = .ok c.length
  elements : ∀ i ∈ s, c.ReadsAt (fun k ↦ k.read h v i) i
  beyond : ∀ (k : Getter) i, k.accepts c.tag = true → c.length ≤ i →
    k.read h v i = .error (.denied (.indexOutOfRange i c.length))
  mismatch : ∀ (k : Getter) i, k.accepts c.tag = false →
    k.read h v i = .error (.mismatch k.shape c.tag)

end Contents

namespace Heap

open Arena TaggedHeap.Action

variable {g h : Heap} {v x : Handle} {s : Set Nat} {i n k : Nat} {r : Record} {t : TypeTag}
  {value : Option String} {values : List (Option String)} {c : Contents}

section Make

def StandsFor (h : Heap) (x : Handle) : Option String → Prop
  | none => x = h.missingString
  | some text => x ≠ h.missingString ∧ h.Spells x (Text.Utf8.encode text)

theorem StandsFor.congr (hx : h.StandsFor x value) (hm : g.missingString = h.missingString)
    (hget : g.arena.get? x = h.arena.get? x) : g.StandsFor x value := by
  cases value with
  | none => exact Eq.trans hx hm.symm
  | some text =>
    obtain ⟨hne, hs⟩ := hx
    exact ⟨hm ▸ hne, by rwa [Spells, hget]⟩

/-- The missing string is spelt like a text, but no text is interned as its record. -/
theorem standsFor_internElement (hp : Proper h.arena) (hi : Interned h)
    (hn : Numbered (h.internElement value).2.arena) :
    (h.internElement value).2.StandsFor (h.internElement value).1 value := by
  cases value with
  | none => rfl
  | some text =>
    obtain ⟨hi', hx⟩ := hi.intern hp _ hn
    exact ⟨hi'.ne_missing _ _ hx, hi'.spells _ _ hx⟩

theorem StandsFor.isLive (hx : h.StandsFor x value) (hi : Interned h) : h.isLive x = true := by
  cases value with
  | none => exact (show x = h.missingString from hx) ▸ hi.missing
  | some text => exact hx.2.isLive

theorem StandsFor.grows (hx : h.StandsFor x value) (hg : Grows h k g) (hp : Proper h.arena)
    (hi : Interned h) (hn : Numbered g.arena) (hroot : x ∈ h.rootHandles []) :
    g.StandsFor x value :=
  hx.congr hg.toContinues.keeps.missingString (hg.get?_eq hp hn x (.root hroot (hx.isLive hi)))

theorem interned_internElement (hp : Proper h.arena) (hi : Interned h)
    (hn : Numbered (h.internElement value).2.arena) : Interned (h.internElement value).2 := by
  cases value with
  | none => exact hi
  | some text => exact (hi.intern hp _ hn).1

theorem standsFor_internAll (hp : Proper h.arena) (hi : Interned h)
    (hg : Grows (internAll values h).2 k g) (hn : Numbered g.arena) :
    List.Forall₂ g.StandsFor (internAll values h).1 values := by
  induction values generalizing h with
  | nil => exact .nil
  | cons value values ih =>
    rw [internAll_cons] at hg ⊢
    let p := h.internElement value
    let q := p.2.protect p.1
    have hgq : Grows q (values.length + k) g := (grows_internAll values q).trans hg
    have hnp : Numbered p.2.arena := hgq.toContinues.numbered hn
    have hpp : Proper p.2.arena := (h.continues_internElement value).evolves.proper hp
    have hip : Interned q := (interned_internElement hp hi hnp).of_eq rfl rfl rfl
    have hx : q.StandsFor p.1 value := (standsFor_internElement hp hi hnp).congr rfl rfl
    exact .cons (hx.grows hgq hpp hip hn (p.2.mem_rootHandles_protect p.1)) (ih hpp hip hg)

def Fills (h : Heap) (p : Payload) : Contents → Prop
  | .logical values => p = .logical (values.map Missing.encodeLogical).toArray
  | .rawLogical elements => p = .logical elements.toArray
  | .integer elements => p = .integer elements.toArray
  | .real elements => p = .real elements.toArray
  | .string values => ∃ elements : List Handle, p = .strings elements.toArray ∧
      List.Forall₂ h.StandsFor elements values
  | .list elements | .expression elements => p = .values elements.toArray

theorem length?_of_fills {p : Payload} (hf : h.Fills p c) : p.length? = some c.length := by
  cases c with
  | string values =>
    obtain ⟨elements, rfl, hs⟩ := hf
    exact congrArg some (List.size_toArray.trans hs.length_eq)
  | logical values =>
    obtain rfl : p = _ := hf
    exact congrArg some (List.size_toArray.trans (List.length_map _))
  | rawLogical _ | integer _ | real _ | list _ | expression _ =>
    obtain rfl : p = _ := hf
    exact congrArg some List.size_toArray

theorem fills_newString (hp : Proper h.arena) (hi : Interned h)
    (hn : Numbered (h.newString values).2.arena) :
    ∃ r, (h.newString values).2.arena.get? (h.newString values).1 = some r ∧ r.tag = .string ∧
      (h.newString values).2.Fills r.payload (.string values) := by
  let p := internAll values h
  let a := p.2.alloc .string (.strings p.1.toArray)
  have harena : (h.newString values).2.arena = a.2.arena := arena_unprotect _ _
  have hm : (h.newString values).2.missingString = a.2.missingString :=
    (keeps_unprotect a.2 values.length).missingString
  rw [harena] at hn
  have hg : Grows p.2 0 a.2 := p.2.grows_alloc .string (.strings p.1.toArray) rfl (by decide)
  have hpp : Proper p.2.arena := (h.continues_internAll values).evolves.proper hp
  refine ⟨_, (congrArg (·.get? a.1) harena).trans (p.2.get?_alloc hpp hn), rfl, p.1, rfl, ?_⟩
  exact (standsFor_internAll hp hi hg hn).imp fun x value hx ↦ hx.congr hm (by rw [harena])

theorem fills_make (c : Contents) (hp : Proper h.arena) (hi : Interned h)
    (hn : Numbered (c.make h).2.arena) :
    ∃ r, (c.make h).2.arena.get? (c.make h).1 = some r ∧ r.tag = c.tag ∧
      (c.make h).2.Fills r.payload c := by
  cases c with
  | string values => exact fills_newString hp hi hn
  | logical _ | rawLogical _ | integer _ | real _ | list _ | expression _ =>
    exact ⟨_, h.get?_alloc hp hn, rfl, rfl⟩

end Make

section Read

theorem getText?_of_standsFor (hp : Proper h.arena) (hx : h.getChar v i = .ok x)
    (hs : h.StandsFor x value) : h.getText? v i = .ok value := by
  rw [getText?, hx, ok_bind]
  cases value with
  | none =>
    rw [show x = h.missingString from hs, Missing.decodeString, if_pos rfl]
    rfl
  | some text =>
    obtain ⟨hne, hs⟩ := hs
    rw [Missing.decodeString, if_neg hne]
    dsimp only
    rw [charText, (charBytes_eq_ok_iff hp).mpr hs, ok_bind,
      (Text.Utf8.decode_eq_ok_iff _ _).mpr rfl]
    rfl

theorem readsAt_of_fills (hp : Proper h.arena) (hr : h.arena.get? v = some r)
    (hf : h.Fills r.payload c) (i : Nat) : c.ReadsAt (fun k ↦ k.read h v i) i := by
  have hw := hp.wellFormed.get? hr
  cases c with
  | logical values =>
    intro b hb
    have hpay : r.payload = .logical (values.map Missing.encodeLogical).toArray := hf
    have hraw : h.getRawLogical v i = .ok (Missing.encodeLogical b) := by
      rw [getRawLogical_of_get? hr hw, orRefuse_eq_ok_iff, hpay]
      refine List.getElem?_toArray.trans ?_
      rw [List.getElem?_map, hb, Option.map_some]
    simp only [Getter.read, getLogical?, hraw, ok_bind, Missing.decodeLogical_encodeLogical]
    rfl
  | rawLogical elements =>
    intro n hn
    have hpay : r.payload = .logical elements.toArray := hf
    have hraw : h.getRawLogical v i = .ok n := by
      rw [getRawLogical_of_get? hr hw, orRefuse_eq_ok_iff, hpay]
      exact List.getElem?_toArray.trans hn
    simp only [Getter.read, getLogical, getLogical?, hraw, ok_bind]
    exact ⟨rfl, rfl, rfl⟩
  | integer elements =>
    intro n hn
    have hpay : r.payload = .integer elements.toArray := hf
    have hint : h.getInteger v i = .ok n := by
      rw [getInteger_of_get? hr hw, orRefuse_eq_ok_iff, hpay]
      exact List.getElem?_toArray.trans hn
    simp only [Getter.read, getInteger?, hint, ok_bind]
    exact ⟨rfl, rfl⟩
  | real elements =>
    intro bits hbits
    have hpay : r.payload = .real elements.toArray := hf
    have hreal : h.getReal v i = .ok bits := by
      rw [getReal_of_get? hr hw, orRefuse_eq_ok_iff, hpay]
      exact List.getElem?_toArray.trans hbits
    simp only [Getter.read, getReal?, hreal, ok_bind, Missing.decodeReal_eq]
    exact ⟨rfl, rfl⟩
  | string values =>
    intro text htext
    obtain ⟨elements, hpay, hs⟩ := hf
    obtain ⟨hi, rfl⟩ := List.getElem?_eq_some_iff.mp htext
    have hlt : i < elements.length := hs.length_eq ▸ hi
    have hchar : h.getChar v i = .ok elements[i] := by
      rw [getChar_of_get? hr hw, orRefuse_eq_ok_iff, hpay]
      exact List.getElem?_toArray.trans (List.getElem?_eq_getElem hlt)
    have hread := getText?_of_standsFor hp hchar (hs.get hlt hi)
    simp only [Getter.read, hread]
    rfl
  | list elements | expression elements =>
    intro x hx
    have hpay : r.payload = .values elements.toArray := hf
    have hvalue : h.getValue v i = .ok x := by
      rw [getValue_of_get? hr hw, orRefuse_eq_ok_iff, hpay]
      exact List.getElem?_toArray.trans hx
    simp only [Getter.read, hvalue]
    rfl

theorem read_of_beyond {k : Getter} (ht : h.tagOf v = .ok t) (ha : k.accepts t = true)
    (hl : h.rawLength v = .ok n) (hi : n ≤ i) :
    k.read h v i = .error (.denied (.indexOutOfRange i n)) := by
  have hc {demanded : Shape} {accepts : TypeTag → Bool} (ha : accepts t = true) :
      h.checkElement v demanded accepts i = .error (.denied (.indexOutOfRange i n)) := by
    rw [checkElement, ht, ok_bind, if_pos ha, hl, ok_bind, if_neg (Nat.not_lt.mpr hi)]
    rfl
  cases k with
  | rawLogical | integer | real | char | value =>
    exact map_of_error (bind_of_error (hc ha) _) _
  | _ => exact map_of_error (bind_of_error (bind_of_error (hc ha) _) _) _

theorem yields_of_get? (hp : Proper h.arena) (hr : h.arena.get? v = some r) (ht : r.tag = c.tag)
    (hl : r.payload.length? = some c.length)
    (he : ∀ i ∈ s, c.ReadsAt (fun k ↦ k.read h v i) i) : c.Yields s h v := by
  have hw := hp.wellFormed.get? hr
  have htag : h.tagOf v = .ok c.tag := (tagOf_of_get? hr).trans (congrArg _ ht)
  have hraw : h.rawLength v = .ok c.length := by
    rw [rawLength, raw_of_get? _ hr, hl]
    rfl
  refine ⟨htag, ?_, he, fun k i ha hi ↦ read_of_beyond htag ha hraw hi, fun k i hu ↦
    read_of_unmet htag hu i⟩
  rw [vectorLength_of_get? hr hw, hl]
  rfl

end Read

/-- In every heap a vector is read as what it has been made from, and remains so as long as it is in
use, but for the elements that have been stored since. The slots must not outnumber the 32 bits of
their numbers. -/
theorem Arises.vector_reads_back (ha : Arises h) (c : Contents) {program : List Action}
    (hu : InUse (c.make h).1 (c.make h).2 program)
    (hn : Numbered (Action.runAll (c.make h).2 program).arena) :
    c.Yields {i | ¬ StoredAt (c.make h).1 i (c.make h).2 program}
      (Action.runAll (c.make h).2 program) (c.make h).1 := by
  let p := c.make h
  have hrun : (Request.run h (.update c.update)).2 = p.2 := congrArg Prod.snd (c.run_update h)
  have hp : Arises p.2 := hrun ▸ ha.run (.update c.update) trivial
  have hk : Keeps h p.2 := hrun ▸ Request.keeps (.update c.update) h
  have hnp : Numbered p.2.arena := (keeps_runAll program p.2).numbered hn
  have hi : Interned h := ha.interned (hk.numbered hnp)
  obtain ⟨r, hr, ht, hf⟩ := fills_make c ha.proper hi hnp
  have hl := length?_of_fills hf
  have hupheld := upheld_runAll hp hu (fun _ ↦ id) hn hr (by rw [hl]; rfl)
  obtain ⟨r', hr', ht', hpay⟩ := hupheld.shows
  have hg : Arises (Action.runAll p.2 program) := arises_runAll hp program
  refine yields_of_get? hg.proper hr' (ht'.trans ht) (hpay.length.trans hl) fun i hi ↦ ?_
  have hread : (fun k : Getter ↦ k.read (Action.runAll p.2 program) p.1 i) =
      fun k ↦ k.read p.2 p.1 i := funext (hupheld.read hp hg hnp hr hi)
  rw [hread]
  exact readsAt_of_fills hp.proper hr hf i

theorem vector_reads_back_of_missing :
    let h := create 0 1
    let c := Contents.string [some "NA", none, some "", some "NA"]
    let p := c.make h
    let program : List Action := [.request (.update (.protect p.1)),
      .request (.update (.internText "b")), .request (.update (.setString p.1 1 ⟨10, 0⟩)),
      .request (.update .collect)]
    Arises h ∧ InUse p.1 p.2 program ∧ Numbered (Action.runAll p.2 program).arena ∧
      c.Yields {i | ¬ StoredAt p.1 i p.2 program} (Action.runAll p.2 program) p.1 ∧
      ¬ StoredAt p.1 3 p.2 program ∧ StoredAt p.1 1 p.2 program := by
  intro h c p program
  have ha : Arises h := .create 0 1
  have hu : InUse p.1 p.2 program :=
    ⟨by decide +kernel, by decide +kernel, by decide +kernel, by decide +kernel, trivial⟩
  have hn : Numbered (Action.runAll p.2 program).arena := by decide +kernel
  have hspared : ¬ StoredAt p.1 3 p.2 program := by
    rintro (hs | hs | ⟨-, hs, -⟩ | hs | hs) <;> cases hs
  exact ⟨ha, hu, hn, Arises.vector_reads_back ha c hu hn, hspared,
    .inr (.inr (.inl ⟨rfl, rfl, by decide +kernel⟩))⟩

/-- A vector is not read as what it was made from where something has been stored into it: neither a
text of a vector of strings, nor a value of a list that has become the hash table of an environment
with a definition. -/
theorem not_yields_of_stored :
    (let c := Contents.string [some "a"]
      let p := c.make (create 0 0)
      let program : List Action := [.request (.update (.internText "b")),
        .request (.update (.setString p.1 0 ⟨10, 0⟩))]
      InUse p.1 p.2 program ∧ ¬ c.Yields Set.univ (Action.runAll p.2 program) p.1) ∧
    (let c := Contents.list [(create 0 0).nil]
      let p := c.make (create 0 0)
      let program : List Action := [.request (.update (.environment p.2.nil)),
        .request (.update (.setField ⟨9, 0⟩ .hashTable p.1)),
        .request (.update (.define ⟨9, 0⟩ "a" p.2.nil))]
      InUse p.1 p.2 program ∧ ¬ c.Yields Set.univ (Action.runAll p.2 program) p.1) := by
  constructor
  · intro c p program
    refine ⟨⟨by decide +kernel, by decide +kernel, trivial⟩, fun hy ↦ ?_⟩
    have hread : (Action.runAll p.2 program).getText? p.1 0 = .ok (some "b") := by decide +kernel
    have hback := hy.elements 0 trivial (some "a") rfl
    simp only [Getter.read, hread] at hback
    exact absurd (Datum.text.inj (Except.ok.inj hback)) (by decide)
  · intro c p program
    refine ⟨⟨by decide +kernel, by decide +kernel, by decide +kernel, trivial⟩, fun hy ↦ ?_⟩
    have hread : (Action.runAll p.2 program).getValue p.1 0 = .ok ⟨12, 0⟩ := by decide +kernel
    have hback := hy.elements 0 trivial (create 0 0).nil rfl
    simp only [Getter.read, hread] at hback
    cases hback

end Heap

end TaggedHeap
