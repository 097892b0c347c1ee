import TaggedHeap.Proofs.Assigning
import TaggedHeap.Proofs.Circling
import TaggedHeap.Proofs.Strings

namespace TaggedHeap

namespace Payload

theorem isSome_cell?_of_setField? {p q : Payload} {v : Handle} {f : Field} (hf : f.layout = .cell)
    (hq : p.setField? v f = some q) : p.cell?.isSome = true := by
  cases p with
  | cell _ _ _ => rfl
  | _ => cases f <;> cases hf <;> cases hq

/-- What reads at the offsets depend on is the same in both payloads. -/
structure AgreesOn (s : Set Nat) (q p : Payload) : Prop where
  length : q.length? = p.length?
  bytes : q.bytes? = p.bytes?
  logical : ∀ i ∈ s, q.logical? i = p.logical? i
  integer : ∀ i ∈ s, q.integer? i = p.integer? i
  real : ∀ i ∈ s, q.real? i = p.real? i
  string : ∀ i ∈ s, q.string? i = p.string? i
  value : ∀ i ∈ s, q.value? i = p.value? i

theorem AgreesOn.refl (s : Set Nat) (p : Payload) : p.AgreesOn s p :=
  ⟨rfl, rfl, fun _ _ ↦ rfl, fun _ _ ↦ rfl, fun _ _ ↦ rfl, fun _ _ ↦ rfl, fun _ _ ↦ rfl⟩

theorem mem_texts_of_string? {p : Payload} {i : Nat} {x : Handle} (hx : p.string? i = some x) :
    x ∈ p.texts := by
  cases p with
  | strings elements => exact Array.mem_toList_iff.mpr (Array.mem_of_getElem? hx)
  | _ => cases hx

end Payload

namespace Heap

open Arena

variable {f g h : Heap} {x y name value : Handle} {r : Record} {cells : List Handle}
  {pairs : List (Handle × Handle)} {k n length nrow ncol : Nat}

/-- What the roots lead to, and is no cell, still has the tag and the payload that it had. -/
def KeepsContent (h g : Heap) : Prop :=
  ∀ y r, Arena.Reach h.arena (h.rootHandles []) y → h.arena.get? y = some r →
    r.payload.cell? = none →
      ∃ r', g.arena.get? y = some r' ∧ r'.tag = r.tag ∧ r'.payload = r.payload

theorem keepsContent_of_eq (ha : g.arena = h.arena) : KeepsContent h g := by
  intro y r _ hy _
  exact ⟨r, ha ▸ hy, rfl, rfl⟩

theorem KeepsContent.of_eq (hk : KeepsContent h g) (ha : f.arena = g.arena) : KeepsContent h f := by
  unfold KeepsContent
  rw [ha]
  exact hk

theorem KeepsContent.after (hk : KeepsContent g f) (hg : Grows h k g) (hp : Proper h.arena)
    (hn : Numbered g.arena) : KeepsContent h f := by
  intro y r hreach hy hcell
  exact hk y r (hg.reach hp hn hreach) ((hg.get?_eq hp hn y hreach).trans hy) hcell

theorem keepsContent_setField (h : Heap) (x value : Handle) {f : Field} (hf : f.layout = .cell) :
    KeepsContent h (h.setField x f value).2 := by
  rcases h.setField_cases x f value with ⟨q, payload, hx, hpay, he⟩ | ⟨failure, he⟩
  · intro y r _ hy hcell
    -- Only cells have such a field, and this is none.
    have hne : x ≠ y := by
      rintro rfl
      cases hx.symm.trans hy
      have hsome := Payload.isSome_cell?_of_setField? hf hpay
      rw [hcell] at hsome
      cases hsome
    rw [he]
    exact ⟨r, by rw [get?_modify, if_neg hne, hy], rfl, rfl⟩
  · exact keepsContent_of_eq (by rw [he])

theorem keepsContent_setAttributes (h : Heap) (x value : Handle) :
    KeepsContent h (h.setAttributes x value).2 := by
  rcases h.setAttributes_cases x value with ⟨q, hx, he⟩ | ⟨failure, he⟩
  · intro y r _ hy _
    rw [he]
    by_cases hxy : x = y
    · subst hxy
      obtain rfl : q = r := Option.some.inj (hx.symm.trans hy)
      exact ⟨{ q with attributes := value }, by rw [get?_modify, if_pos rfl, hx, Option.map_some],
        rfl, rfl⟩
    · exact ⟨r, by rw [get?_modify, if_neg hxy, hy], rfl, rfl⟩
  · exact keepsContent_of_eq (by rw [he])

theorem keepsContent_setAttributeProtected (hp : Proper h.arena)
    (hn : Numbered (h.setAttributeProtected x name value).2.arena) :
    KeepsContent h (h.setAttributeProtected x name value).2 := by
  cases hr : h.record x with
  | error failure =>
    simp only [setAttributeProtected, hr]
    exact keepsContent_of_eq rfl
  | ok r =>
    cases hs : h.search name r.attributes with
    | found cell =>
      simp only [setAttributeProtected, hr, hs]
      exact h.keepsContent_setField cell value rfl
    | broken link =>
      simp only [setAttributeProtected, hr, hs]
      exact keepsContent_of_eq rfl
    | endless =>
      simp only [setAttributeProtected, hr, hs]
      exact keepsContent_of_eq rfl
    | absent last =>
      simp only [setAttributeProtected, hr, hs] at hn ⊢
      have ha := h.grows_alloc .pairlist (.cell value h.nil name) rfl (by decide)
      split_ifs at hn ⊢ with hlast
      · exact (keepsContent_setAttributes _ x _).after ha hp
          ((rewrites_setAttributes _ _ _).course.numbered hn)
      · exact (keepsContent_setField _ last _ rfl).after ha hp
          ((rewrites_setField _ _ _ _).course.numbered hn)

theorem keepsContent_setAttribute (hp : Proper h.arena)
    (hn : Numbered (h.setAttribute x name value).2.arena) :
    KeepsContent h (h.setAttribute x name value).2 := by
  let q := (h.protect x).protect value
  have hg := (h.grows_protect x).trans ((h.protect x).grows_protect value)
  have ha := arena_unprotectAfter 2 (q.setAttributeProtected x name value)
  rw [setAttribute, ha] at hn
  have hk : KeepsContent q (q.setAttributeProtected x name value).2 :=
    keepsContent_setAttributeProtected (h := q) hp hn
  have hnq : Numbered q.arena := (q.course_setAttributeProtected x name value).numbered hn
  exact (hk.after hg hp hnq).of_eq ha

/-- The text of a string is in another record, the one that the payload has at the offset. -/
theorem read_congr_on {r' : Record} {s : Set Nat} {i : Nat} (hi : i ∈ s)
    (hp : Proper h.arena) (hpg : Proper g.arena) (hr : h.arena.get? x = some r)
    (hr' : g.arena.get? x = some r') (ht : r'.tag = r.tag)
    (hpay : r'.payload.AgreesOn s r.payload) (hm : g.missingString = h.missingString)
    (htexts : ∀ y, r.payload.string? i = some y → g.charBytes y = h.charBytes y) (k : Getter) :
    k.read g x i = k.read h x i := by
  have hw := hp.wellFormed.get? hr
  have hw' := hpg.wellFormed.get? hr'
  have hfailure (expected : Shape) (accepts : TypeTag → Bool) :
      elementFailure r' expected accepts i = elementFailure r expected accepts i := by
    rw [elementFailure, elementFailure, ht, hpay.length]
  have hlogical : g.getRawLogical x i = h.getRawLogical x i := by
    rw [getRawLogical_of_get? hr hw, getRawLogical_of_get? hr' hw', hfailure, hpay.logical i hi]
  have hinteger : g.getInteger x i = h.getInteger x i := by
    rw [getInteger_of_get? hr hw, getInteger_of_get? hr' hw', hfailure, hpay.integer i hi]
  have hreal : g.getReal x i = h.getReal x i := by
    rw [getReal_of_get? hr hw, getReal_of_get? hr' hw', hfailure, hpay.real i hi]
  have hvalue : g.getValue x i = h.getValue x i := by
    rw [getValue_of_get? hr hw, getValue_of_get? hr' hw', hfailure, hpay.value i hi]
  have hchar : g.getChar x i = h.getChar x i := by
    rw [getChar_of_get? hr hw, getChar_of_get? hr' hw', hfailure, hpay.string i hi]
  have hbytes {y : Handle} (hy : h.getChar x i = .ok y) : g.charBytes y = h.charBytes y := by
    rw [getChar_of_get? hr hw, orRefuse_eq_ok_iff] at hy
    exact htexts y hy
  have htext {y : Handle} (hy : h.getChar x i = .ok y) : g.charText y = h.charText y := by
    rw [charText, charText, hbytes hy]
  cases k with
  | rawLogical => rw [Getter.read, Getter.read, hlogical]
  | logical => rw [Getter.read, Getter.read, getLogical, getLogical, hlogical]
  | logicalOption => rw [Getter.read, Getter.read, getLogical?, getLogical?, hlogical]
  | integer => rw [Getter.read, Getter.read, hinteger]
  | integerOption => rw [Getter.read, Getter.read, getInteger?, getInteger?, hinteger]
  | real => rw [Getter.read, Getter.read, hreal]
  | realOption => rw [Getter.read, Getter.read, getReal?, getReal?, hreal]
  | char => rw [Getter.read, Getter.read, hchar]
  | value => rw [Getter.read, Getter.read, hvalue]
  | text =>
    rw [Getter.read, Getter.read, getText, getText, hchar]
    exact congrArg (Datum.text <$> ·) (bind_congr_of_ok fun y hy ↦ htext hy)
  | bytes =>
    rw [Getter.read, Getter.read, getBytes, getBytes, hchar]
    exact congrArg _ (bind_congr_of_ok fun y hy ↦ hbytes hy)
  | textOption =>
    rw [Getter.read, Getter.read, getText?, getText?, hchar, hm]
    refine congrArg _ (bind_congr_of_ok fun y hy ↦ ?_)
    unfold Missing.decodeString
    split_ifs
    · rfl
    · exact congrArg (some <$> ·) (htext hy)
  | bytesOption =>
    rw [Getter.read, Getter.read, getBytes?, getBytes?, hchar, hm]
    refine congrArg _ (bind_congr_of_ok fun y hy ↦ ?_)
    unfold Missing.decodeString
    split_ifs
    · rfl
    · exact congrArg (some <$> ·) (hbytes hy)

section Read

variable {r' : Record} (hp : Proper h.arena) (hpg : Proper g.arena)
  (hr : h.arena.get? x = some r) (hr' : g.arena.get? x = some r') (ht : r'.tag = r.tag)
  (hpay : r'.payload = r.payload)

include hp hpg hr hr' ht hpay

theorem vectorLength_congr : g.vectorLength x = h.vectorLength x := by
  rw [vectorLength_of_get? hr (hp.wellFormed.get? hr),
    vectorLength_of_get? hr' (hpg.wellFormed.get? hr'), ht, hpay]

theorem charBytes_congr : g.charBytes x = h.charBytes x := by
  rw [charBytes_of_get? hr (hp.wellFormed.get? hr),
    charBytes_of_get? hr' (hpg.wellFormed.get? hr'), ht, hpay]

theorem read_congr (hm : g.missingString = h.missingString)
    (htexts : ∀ y ∈ r.payload.texts, g.charBytes y = h.charBytes y) (k : Getter) (i : Nat) :
    k.read g x i = k.read h x i := by
  have hagrees : r'.payload.AgreesOn Set.univ r.payload := by
    rw [hpay]
    exact .refl _ _
  exact read_congr_on (Set.mem_univ i) hp hpg hr hr' ht hagrees hm
    (fun y hy ↦ htexts y (Payload.mem_texts_of_string? hy)) k

end Read

theorem KeepsContent.read (hk : KeepsContent h g) (hp : Proper h.arena) (hpg : Proper g.arena)
    (hlettered : Lettered h) (hm : g.missingString = h.missingString)
    (hreach : Arena.Reach h.arena (h.rootHandles []) x) (hlength : h.vectorLength x = .ok length) :
    g.vectorLength x = .ok length ∧ ∀ (k : Getter) i, k.read g x i = k.read h x i := by
  obtain ⟨r, hr⟩ := get?_of_isLive hreach.contains
  have hcell : r.payload.cell? = none := by
    rw [vectorLength_of_get? hr (hp.wellFormed.get? hr), orRefuse_eq_ok_iff] at hlength
    cases hvector : r.payload with
    | cell _ _ _ =>
      rw [hvector] at hlength
      cases hlength
    | _ => rfl
  obtain ⟨r', hr', ht, hpay⟩ := hk x r hreach hr hcell
  refine ⟨(vectorLength_congr hp hpg hr hr' ht hpay).trans hlength,
    read_congr hp hpg hr hr' ht hpay hm fun y hy ↦ ?_⟩
  -- The roots lead on to the texts of its elements, which are no cells either.
  obtain ⟨bytes, q, hq, hchar⟩ := hlettered x r hr y hy
  have hlink : y ∈ h.arena.linksOf x := by
    rw [linksOf_of_get? hr]
    exact List.mem_cons_of_mem _ (Payload.texts_subset _ hy)
  obtain ⟨q', hq', htq, hpayq⟩ :=
    hk y q (.link hreach hlink (contains_of_get? hq)) hq (by rw [hchar]; rfl)
  exact charBytes_congr hp hpg hq hq' htq hpayq

theorem HasAttributes.grows (hx : h.HasAttributes x cells pairs) (hg : Grows h k g)
    (hp : Proper h.arena) (hn : Numbered g.arena)
    (hreach : Arena.Reach h.arena (h.rootHandles []) x) : g.HasAttributes x cells pairs :=
  hx.frame hg.toContinues.nil (attributesOf_congr (hg.get?_eq hp hn x hreach)) fun b hb ↦
    readCell_congr (hg.get?_eq hp hn b (hx.reach hp hreach hb))

theorem dimensionDefect?_eq_none_iff : dimensionDefect? length nrow ncol = none ↔
    nrow * ncol = length ∧ nrow ≤ extentLimit ∧ ncol ≤ extentLimit := by
  unfold dimensionDefect?
  split_ifs <;> simp <;> omega

theorem extent_ofNat (hn : n ≤ extentLimit) : extent (Int32.ofNat n) = .ok n := by
  have hint : (Int32.ofNat n).toInt = n := Int32.toInt_ofNat_of_lt (Nat.lt_succ_of_le hn)
  have hpos : ¬ Int32.ofNat n < 0 := by
    rw [Int32.lt_iff_toInt_lt, hint]
    exact Int.not_lt.mpr (Int.natCast_nonneg n)
  rw [extent, if_neg hpos, hint, Int.toNat_natCast]

theorem extents_of_pair {dim : Handle}
    (hdim : h.attributeBySymbol x h.dimSymbol = .ok (some dim))
    (hr : h.arena.get? dim = some r) (ht : r.tag = .integer)
    (hpay : r.payload = .integer #[Int32.ofNat nrow, Int32.ofNat ncol])
    (hnrow : nrow ≤ extentLimit) (hncol : ncol ≤ extentLimit) :
    h.extents x = .ok (some [nrow, ncol]) := by
  have hlength : h.rawLength dim = .ok 2 := by
    rw [rawLength, raw_of_get? _ hr, hpay]
    rfl
  have hnumbers : (List.range 2).mapM (h.rawInteger dim) =
      .ok [Int32.ofNat nrow, Int32.ofNat ncol] := by
    have hget (i : Nat) : h.rawInteger dim i =
        orRefuse (#[Int32.ofNat nrow, Int32.ofNat ncol][i]?)
          (.fault (.brokenRead "integer_elt" dim)) := by
      rw [rawInteger, raw_of_get? _ hr, hpay]
      rfl
    simp only [List.range, List.range.loop, List.mapM_cons, List.mapM_nil, hget]
    rfl
  have hextents : [Int32.ofNat nrow, Int32.ofNat ncol].mapM extent = .ok [nrow, ncol] := by
    simp only [List.mapM_cons, List.mapM_nil, extent_ofNat hnrow, extent_ofNat hncol]
    rfl
  rw [extents, hdim, ok_bind]
  dsimp only
  rw [tagOf_of_get? hr, ok_bind, if_pos ht, hlength, ok_bind, hnumbers, ok_bind, hextents]
  rfl

theorem setDimensions_of_defect {defect : DimensionDefect} (hp : Proper h.arena)
    (hlength : h.vectorLength x = .ok length)
    (hd : dimensionDefect? length nrow ncol = some defect) :
    h.setDimensions x nrow ncol = (.error (.dimensions defect), h) := by
  obtain ⟨t, ht, -⟩ := exists_of_bind_eq_ok hlength
  obtain ⟨r, hr, -⟩ := exists_of_bind_eq_ok ht
  have hget := get?_of_record hr
  rw [vectorLength_of_get? hget (hp.wellFormed.get? hget), orRefuse_eq_ok_iff] at hlength
  simp only [setDimensions, hr, hlength, hd]

/-- The extents have become an attribute of the vector, whose other attributes are where they were.
The attribute holds the extents as they were given. -/
structure Carried (h : Heap) (x : Handle) (cells : List Handle) (pairs : List (Handle × Handle))
    (nrow ncol : Nat) (o : Outcome Unit) : Prop where
  answer : o.1 = .ok ()
  keepsContent : KeepsContent h o.2
  attributes : ∃ dim added, o.2.HasAttributes x (cells ++ added) (assign h.dimSymbol dim pairs) ∧
    ∃ r, o.2.arena.get? dim = some r ∧ r.tag = .integer ∧
      r.payload = .integer #[Int32.ofNat nrow, Int32.ofNat ncol]

theorem carried_setDimensions (hp : Proper h.arena) (hnil : h.isLive h.nil = true)
    (hn : Numbered (h.setDimensions x nrow ncol).2.arena)
    (hreach : Arena.Reach h.arena (h.rootHandles []) x) (hx : h.HasAttributes x cells pairs)
    (hlength : h.vectorLength x = .ok length)
    (hfits : dimensionDefect? length nrow ncol = none) :
    h.Carried x cells pairs nrow ncol (h.setDimensions x nrow ncol) := by
  let elements := #[Int32.ofNat nrow, Int32.ofNat ncol]
  let dim := h.newInteger [Int32.ofNat nrow, Int32.ofNat ncol]
  let q := dim.2.protect dim.1
  let o := q.setAttribute x dim.2.dimSymbol dim.1
  have ho : h.setDimensions x nrow ncol = unprotectAfter 1 o := by
    rcases h.setDimensions_cases hp x nrow ncol with ⟨-, he⟩ | ⟨hunfit, -⟩
    · exact he
    · exact absurd ⟨length, hlength, hfits⟩ hunfit
  have harena : (h.setDimensions x nrow ncol).2.arena = o.2.arena := by
    rw [ho, arena_unprotectAfter]
  rw [harena] at hn
  have hg : Grows h 1 q := (h.grows_alloc .integer (.integer elements) rfl (by decide)).trans
    (dim.2.grows_protect dim.1)
  have hpq : Proper q.arena := hg.evolves.proper hp
  have hnq : Numbered q.arena := (q.course_setAttribute x dim.2.dimSymbol dim.1).numbered hn
  have hsymbol : dim.2.dimSymbol = h.dimSymbol :=
    congrArg (fun v ↦ v.2.2.2.1) hg.toContinues.values
  have hk : KeepsContent q o.2 := keepsContent_setAttribute hpq hn
  have halters : q.Alters x cells (assign dim.2.dimSymbol dim.1 pairs) o :=
    alters_setAttribute hpq (hg.toContinues.keeps.isLive_nil hnil) hn (hx.grows hg hp hnq hreach)
  have hnew : q.arena.get? dim.1 = some (.new .integer h.nil (.integer elements)) :=
    h.get?_alloc hp hnq
  -- The extents are protected while the attribute is set, so a collection spares them.
  obtain ⟨r, hr, ht, hpay⟩ := hk dim.1 _
    (.root (dim.2.mem_rootHandles_protect dim.1) (contains_of_get? hnew)) hnew rfl
  obtain ⟨added, hattributes⟩ := halters.attributes
  refine ⟨?_, (hk.after hg hp hnq).of_eq harena, dim.1, added, ?_, r, harena ▸ hr, ht, hpay⟩
  · rw [ho, fst_unprotectAfter]
    exact halters.answer
  · rw [hsymbol] at hattributes
    rw [ho]
    exact (hasAttributes_congr (arena_unprotectAfter 1 o) (nil_unprotectAfter 1 o)).mpr hattributes

/-- What setting the extents of a vector comes to. -/
structure Shapes (h : Heap) (x : Handle) (length nrow ncol : Nat) (cells : List Handle)
    (pairs : List (Handle × Handle)) (o : Outcome Unit) : Prop where
  answer_iff : o.1 = .ok () ↔ nrow * ncol = length ∧ nrow ≤ 2 ^ 31 - 1 ∧ ncol ≤ 2 ^ 31 - 1
  dimensions : o.1 = .ok () → o.2.dimensions x = .ok (some (nrow, ncol))
  nrows : o.1 = .ok () → o.2.nrows x = .ok nrow
  attributes : o.1 = .ok () →
    ∃ dim added, o.2.HasAttributes x (cells ++ added) (assign h.dimSymbol dim pairs)
  lookup_of_ne : ∀ symbol, symbol ≠ h.dimSymbol →
    o.2.attributeBySymbol x symbol = h.attributeBySymbol x symbol
  vectorLength : o.2.vectorLength x = .ok length
  read : ∀ (g : Getter) i, g.read o.2 x i = g.read h x i
  refusal : o.1 ≠ .ok () → (∃ defect, o.1 = .error (.dimensions defect)) ∧ o.2 = h

/-- In every heap, the extents of a vector that the roots lead to are set exactly if their product
is its length and both are 32-bit integers. Then they are what is read, and the rest of the vector
is as before. The slots must not outnumber the 32 bits of their numbers. -/
theorem Arises.setDimensions_shapes (ha : Arises h)
    (hn : Numbered (h.setDimensions x nrow ncol).2.arena)
    (hreach : Arena.Reach h.arena (h.rootHandles []) x) (hlength : h.vectorLength x = .ok length)
    (hx : h.HasAttributes x cells pairs) (hL : pairs.length < Walk.defaultLimit) :
    Shapes h x length nrow ncol cells pairs (h.setDimensions x nrow ncol) := by
  have hp := ha.proper
  cases hd : dimensionDefect? length nrow ncol with
  | some defect =>
    have hbad : ¬ (nrow * ncol = length ∧ nrow ≤ extentLimit ∧ ncol ≤ extentLimit) := by
      rw [← dimensionDefect?_eq_none_iff, hd]
      nofun
    rw [setDimensions_of_defect hp hlength hd]
    exact ⟨iff_of_false nofun hbad, nofun, nofun, nofun, fun _ _ ↦ rfl, hlength, fun _ _ ↦ rfl,
      fun _ ↦ ⟨⟨defect, rfl⟩, rfl⟩⟩
  | none =>
    obtain ⟨rfl, hnrow, hncol⟩ := dimensionDefect?_eq_none_iff.mp hd
    have hkeeps := (h.concludes_setDimensions x nrow ncol).keeps
    have hnh : Numbered h.arena := (h.course_setDimensions x nrow ncol).numbered hn
    have hsymbol : (h.setDimensions x nrow ncol).2.dimSymbol = h.dimSymbol :=
      congrArg (fun v ↦ v.2.2.2.1) hkeeps.values
    obtain ⟨hanswer, hcontent, dim, added, hattributes, r, hr, ht, hpay⟩ :=
      carried_setDimensions hp ha.isLive_nil hn hreach hx hlength hd
    have hlookup := hattributes.attributeBySymbol ((length_assign_le pairs).trans hL)
    obtain ⟨hlength', hread⟩ := hcontent.read hp (hkeeps.evolves.proper hp) (ha.lettered hnh)
      hkeeps.missingString hreach hlength
    have hextents : (h.setDimensions x nrow ncol).2.extents x = .ok (some [nrow, ncol]) := by
      refine extents_of_pair ?_ hr ht hpay hnrow hncol
      rw [hsymbol, hlookup, lookup_assign]
    refine ⟨iff_of_true hanswer ⟨rfl, hnrow, hncol⟩, fun _ ↦ ?_, fun _ ↦ ?_,
      fun _ ↦ ⟨dim, added, hattributes⟩, fun symbol hne ↦ ?_, hlength', hread,
      fun hne ↦ absurd hanswer hne⟩
    · rw [Heap.dimensions, hlength', ok_bind, hextents, ok_bind]
      exact if_pos rfl
    · rw [Heap.nrows, hlength', ok_bind, hextents]
      rfl
    · rw [hlookup, lookup_assign_of_ne hne, hx.attributeBySymbol hL.le]

theorem setDimensions_shapes_of_named_vector :
    let v := (create 0 1).newInteger []
    let h := ((v.2.protect v.1).setAttribute v.1 v.2.namesSymbol v.1).2
    Arises h ∧ h.isDue = true ∧ Numbered (h.setDimensions v.1 0 5).2.arena ∧
      Arena.Reach h.arena (h.rootHandles []) v.1 ∧ h.vectorLength v.1 = .ok 0 ∧
      ∃ cells, h.HasAttributes v.1 cells [(v.2.namesSymbol, v.1)] ∧
        Shapes h v.1 0 0 5 cells [(v.2.namesSymbol, v.1)] (h.setDimensions v.1 0 5) := by
  intro v h
  have hv : Arises (v.2.protect v.1) := .run (.update (.protect v.1))
    (.run (.update (.newInteger [])) (.create 0 1) trivial) trivial
  have ha : Arises h := hv.setAttribute v.1 v.2.namesSymbol v.1
  have hnh : Numbered h.arena := by decide +kernel
  have hn : Numbered (h.setDimensions v.1 0 5).2.arena := by decide +kernel
  have hreach : Arena.Reach h.arena (h.rootHandles []) v.1 :=
    .root (by decide +kernel) (by decide +kernel)
  have hlength : h.vectorLength v.1 = .ok 0 := by decide +kernel
  have hlist : (v.2.protect v.1).attributesOf v.1 = .ok (v.2.protect v.1).nil := by decide +kernel
  have hplain : (v.2.protect v.1).HasAttributes v.1 [] [] := ⟨_, hlist, .nil⟩
  obtain ⟨cells, hx⟩ := (alters_setAttribute hv.proper hv.isLive_nil hnh hplain).attributes
  exact ⟨ha, by decide +kernel, hn, hreach, hlength, cells, hx,
    Arises.setDimensions_shapes ha hn hreach hlength hx (by decide)⟩

end Heap

end TaggedHeap
