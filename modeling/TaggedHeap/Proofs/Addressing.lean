import TaggedHeap.Proofs.Answers

namespace TaggedHeap

section InRange

variable {α β : Type}

def InRange (e : Except Failure α) : Prop :=
  ∀ offset length, e ≠ .error (.denied (.indexOutOfRange offset length))

theorem inRange_ok (a : α) : InRange (.ok a : Except Failure α) := by
  intro offset length
  nofun

theorem InRange.bind {e : Except Failure α} {k : α → Except Failure β} (he : InRange e)
    (hk : ∀ a, InRange (k a)) : InRange (e >>= k) := by
  intro offset length hb
  cases e with
  | ok a => exact hk a offset length hb
  | error failure => exact he offset length (congrArg Except.error (Except.error.inj hb))

theorem InRange.map {e : Except Failure α} (he : InRange e) (f : α → β) : InRange (f <$> e) :=
  fun offset length hf ↦ he offset length (eq_error_of_map hf)

end InRange

namespace Heap

variable {h : Heap} {x : Handle} {length nrow ncol row column offset : Nat}

section Element

variable {α : Type}

theorem inRange_raw (h : Heap) (what : String) (x : Handle) (part : Payload → Option α) :
    InRange (h.raw what x part) := by
  unfold raw
  split
  · exact inRange_ok _
  · nofun

theorem inRange_charBytes (h : Heap) (x : Handle) : InRange (h.charBytes x) := by
  refine InRange.bind ?_ fun _ ↦ h.inRange_raw "char_bytes" x Payload.bytes?
  unfold expectTag tagOf record
  split
  · refine InRange.bind (inRange_ok _) fun t ↦ ?_
    split
    · exact inRange_ok ()
    · nofun
  · nofun

theorem inRange_charText (h : Heap) (x : Handle) : InRange (h.charText x) := by
  refine (h.inRange_charBytes x).bind fun bytes ↦ ?_
  split
  · exact inRange_ok _
  · nofun

variable (hlength : h.vectorLength x = .ok length) (hlt : offset < length)

include hlength hlt

theorem inRange_checkElement (expected : Shape) (accepts : TypeTag → Bool) :
    InRange (h.checkElement x expected accepts offset) := by
  obtain ⟨t, ht, hraw⟩ := exists_of_bind_eq_ok hlength
  split at hraw
  · rw [checkElement, ht, ok_bind]
    split
    -- The length that the offset is compared with is read from the same record.
    · rw [hraw, ok_bind, if_pos hlt]
      exact inRange_ok ()
    · intro offset length he
      cases he
  · cases hraw

theorem inRange_read (g : Getter) : InRange (g.read h x offset) := by
  have helement {α : Type} (what : String) (part : Payload → Option α) (expected : Shape)
      (accepts : TypeTag → Bool) :
      InRange (do h.checkElement x expected accepts offset; h.raw what x part) :=
    (inRange_checkElement hlength hlt expected accepts).bind fun _ ↦ h.inRange_raw what x part
  have hlogical : InRange (h.getRawLogical x offset) := helement _ _ _ _
  have hinteger : InRange (h.getInteger x offset) := helement _ _ _ _
  have hreal : InRange (h.getReal x offset) := helement _ _ _ _
  have hchar : InRange (h.getChar x offset) := helement _ _ _ _
  cases g with
  | rawLogical => exact hlogical.map _
  | logical | logicalOption => exact (hlogical.bind fun _ ↦ inRange_ok _).map _
  | integer => exact hinteger.map _
  | integerOption => exact (hinteger.bind fun _ ↦ inRange_ok _).map _
  | real => exact hreal.map _
  | realOption => exact (hreal.bind fun _ ↦ inRange_ok _).map _
  | char => exact hchar.map _
  | text => exact (hchar.bind h.inRange_charText).map _
  | bytes => exact (hchar.bind h.inRange_charBytes).map _
  | textOption =>
    refine (hchar.bind fun char ↦ ?_).map _
    split
    · exact (h.inRange_charText _).map _
    · exact inRange_ok none
  | bytesOption =>
    refine (hchar.bind fun char ↦ ?_).map _
    split
    · exact (h.inRange_charBytes _).map _
    · exact inRange_ok none
  | value => exact (helement _ _ _ _).map _

end Element

theorem matrixOffset_of_nrows (hlength : h.vectorLength x = .ok length)
    (hnrow : h.nrows x = .ok nrow) (row column : Nat) :
    h.matrixOffset x row column =
      if row < nrow ∧ column < length / nrow then .ok (column * nrow + row)
      else .error (.denied (.cellOutOfRange row column nrow (length / nrow))) := by
  rw [matrixOffset, hlength, ok_bind, hnrow, ok_bind, filledColumns_eq, ok_bind]
  rfl

theorem matrixOffset_eq_ok_iff (hlength : h.vectorLength x = .ok length)
    (hnrow : h.nrows x = .ok nrow) :
    h.matrixOffset x row column = .ok offset ↔
      row < nrow ∧ column < length / nrow ∧ offset = column * nrow + row := by
  rw [matrixOffset_of_nrows hlength hnrow, ← and_assoc]
  split
  · next hcell =>
    rw [Except.ok.injEq, and_iff_right hcell]
    exact eq_comm
  · next hcell => exact iff_of_false nofun fun ho ↦ hcell ho.1

theorem div_mod_address (column : Nat) (hrow : row < nrow) :
    (column * nrow + row) / nrow = column ∧ (column * nrow + row) % nrow = row := by
  rw [Nat.div_mod_unique (Nat.zero_lt_of_lt hrow), Nat.mul_comm, Nat.add_comm]
  exact ⟨rfl, hrow⟩

theorem div_lt_columns (hlt : offset < nrow * ncol) : offset / nrow < nrow * ncol / nrow := by
  have hpos : 0 < nrow := Nat.pos_of_mul_pos_right (Nat.zero_lt_of_lt hlt)
  rw [Nat.mul_div_cancel_left ncol hpos]
  exact Nat.div_lt_of_lt_mul hlt

theorem nrows_of_dimensions (hd : h.dimensions x = .ok (some (nrow, ncol))) :
    h.vectorLength x = .ok (nrow * ncol) ∧ h.nrows x = .ok nrow := by
  obtain ⟨length, hlength, hd⟩ := exists_of_bind_eq_ok hd
  obtain ⟨extents, hextents, hd⟩ := exists_of_bind_eq_ok hd
  split at hd
  · cases hd
  · split at hd
    · next hproduct =>
      cases hd
      refine ⟨hproduct ▸ hlength, ?_⟩
      rw [nrows, hlength, ok_bind, hextents, ok_bind]
      rfl
    · cases hd
  · cases hd

/-- The cells of a vector that is read as a matrix with so many rows. -/
structure Addresses (h : Heap) (x : Handle) (length nrow : Nat) : Prop where
  matrixOffset_eq_ok_iff : ∀ row column offset, h.matrixOffset x row column = .ok offset ↔
    row < nrow ∧ column < length / nrow ∧ offset = column * nrow + row
  lt_length : ∀ row column offset, h.matrixOffset x row column = .ok offset → offset < length
  /-- If a word can hold the length, words can hold every step of the computation. -/
  toNat_eq : length < 2 ^ 64 → ∀ row column offset, h.matrixOffset x row column = .ok offset →
    (UInt64.ofNat column * UInt64.ofNat nrow).toNat = column * nrow ∧
      (UInt64.ofNat column * UInt64.ofNat nrow + UInt64.ofNat row).toNat = offset
  injective : ∀ row column row' column' offset, h.matrixOffset x row column = .ok offset →
    h.matrixOffset x row' column' = .ok offset → row = row' ∧ column = column'
  surjective : ∀ nrow' ncol, h.dimensions x = .ok (some (nrow', ncol)) →
    nrow' = nrow ∧ length / nrow * nrow = length ∧
      ∀ offset, offset < length → ∃ row column, h.matrixOffset x row column = .ok offset
  element : ∀ row column offset, h.matrixOffset x row column = .ok offset → ∀ g : Getter,
    (Query.matrixElement g x row column).answer h = (Query.element g x offset).answer h ∧
      InRange ((Query.matrixElement g x row column).answer h)

/-- In every heap and for every attribute that a number of rows can be read from, the accepted cells
of a vector have different addresses within it, which are those of all its elements if the vector is
a matrix. -/
theorem addresses_of_nrows (hlength : h.vectorLength x = .ok length)
    (hnrow : h.nrows x = .ok nrow) : Addresses h x length nrow := by
  have hiff {row column offset : Nat} : h.matrixOffset x row column = .ok offset ↔
      row < nrow ∧ column < length / nrow ∧ offset = column * nrow + row :=
    matrixOffset_eq_ok_iff hlength hnrow
  have hlt {row column offset : Nat} (ho : h.matrixOffset x row column = .ok offset) :
      offset < length := by
    obtain ⟨n, _, hn, -, -, -, hlt⟩ := matrixOffset_bounds ho
    cases hlength.symm.trans hn
    exact hlt
  refine ⟨fun _ _ _ ↦ hiff, fun _ _ _ ↦ hlt, fun hword row column offset ho ↦ ?_,
    fun row column row' column' offset ho ho' ↦ ?_, fun nrow' ncol hd ↦ ?_,
    fun row column offset ho g ↦ ?_⟩
  · obtain ⟨-, -, rfl⟩ := hiff.mp ho
    have hsum : column * nrow + row < 2 ^ 64 := (hlt ho).trans hword
    rw [← UInt64.ofNat_mul, ← UInt64.ofNat_add]
    exact ⟨UInt64.toNat_ofNat_of_lt' (Nat.lt_of_add_right_lt hsum), UInt64.toNat_ofNat_of_lt' hsum⟩
  · obtain ⟨hrow, -, rfl⟩ := hiff.mp ho
    obtain ⟨hrow', -, heq⟩ := hiff.mp ho'
    have hcell := div_mod_address column hrow
    have hcell' := div_mod_address column' hrow'
    rw [← heq] at hcell'
    exact ⟨hcell.2.symm.trans hcell'.2, hcell.1.symm.trans hcell'.1⟩
  · obtain ⟨hproduct, hnrow'⟩ := nrows_of_dimensions hd
    cases hnrow.symm.trans hnrow'
    cases hlength.symm.trans hproduct
    -- The cell of an offset has the remainder as its row and the quotient as its column.
    refine ⟨rfl, Nat.div_mul_cancel (Nat.dvd_mul_right nrow ncol), fun offset hlt ↦ ?_⟩
    have hpos : 0 < nrow := Nat.pos_of_mul_pos_right (Nat.zero_lt_of_lt hlt)
    exact ⟨offset % nrow, offset / nrow, hiff.mpr
      ⟨Nat.mod_lt offset hpos, div_lt_columns hlt, (Nat.div_add_mod' offset nrow).symm⟩⟩
  · have hread : (Query.matrixElement g x row column).answer h = g.read h x offset := by
      rw [Query.answer, ho, ok_bind]
    rw [hread]
    exact ⟨rfl, inRange_read hlength (hlt ho) g⟩

/-- A vector of seven elements with the one extent three has two columns, and an element that no
cell reaches. -/
theorem addresses_of_single_extent :
    let v := (create 0 0).newInteger [0, 1, 2, 3, 4, 5, 6]
    let dim := v.2.newInteger [3]
    let h := (dim.2.setAttribute v.1 dim.2.dimSymbol dim.1).2
    h.vectorLength v.1 = .ok 7 ∧ h.nrows v.1 = .ok 3 ∧ Addresses h v.1 7 3 := by
  intro v dim h
  have hlength : h.vectorLength v.1 = .ok 7 := by decide +kernel
  have hnrow : h.nrows v.1 = .ok 3 := by decide +kernel
  exact ⟨hlength, hnrow, addresses_of_nrows hlength hnrow⟩

structure Refusals (h : Heap) (x : Handle) (nrow ncol : Nat) : Prop where
  matrixOffset : ∀ row column, nrow ≤ row ∨ ncol ≤ column → h.matrixOffset x row column =
    .error (.denied (.cellOutOfRange row column nrow (if nrow = 0 then 0 else ncol)))
  element : ∀ row column, nrow ≤ row ∨ ncol ≤ column → ∀ g : Getter,
    (Query.matrixElement g x row column).answer h =
      .error (.denied (.cellOutOfRange row column nrow (if nrow = 0 then 0 else ncol)))
  /-- The extents in the refusals are those of the matrix unless it has columns and no rows. -/
  extents_iff : (∀ row column, nrow ≤ row ∨ ncol ≤ column → h.matrixOffset x row column =
    .error (.denied (.cellOutOfRange row column nrow ncol))) ↔ (nrow = 0 → ncol = 0)

theorem matrixOffset_of_dimensions (hd : h.dimensions x = .ok (some (nrow, ncol)))
    (hout : nrow ≤ row ∨ ncol ≤ column) : h.matrixOffset x row column =
      .error (.denied (.cellOutOfRange row column nrow (if nrow = 0 then 0 else ncol))) := by
  obtain ⟨hlength, hnrow⟩ := nrows_of_dimensions hd
  -- The columns are counted by a division, which has them back unless it is by zero.
  have hncol : nrow * ncol / nrow = if nrow = 0 then 0 else ncol := by
    split
    · next hzero => rw [hzero, Nat.div_zero]
    · next hne => exact Nat.mul_div_cancel_left ncol (Nat.pos_of_ne_zero hne)
  rw [matrixOffset_of_nrows hlength hnrow, hncol, if_neg]
  rintro ⟨hrow, hcolumn⟩
  rw [if_neg (Nat.ne_zero_of_lt hrow)] at hcolumn
  exact hout.elim (Nat.not_le.mpr hrow) (Nat.not_le.mpr hcolumn)

/-- In every heap a cell outside of a matrix is refused with the extents of the matrix, but for the
columns of a matrix without rows, of which none are counted. -/
theorem refusals_of_dimensions (hd : h.dimensions x = .ok (some (nrow, ncol))) :
    Refusals h x nrow ncol := by
  have hout {row column : Nat} (ho : nrow ≤ row ∨ ncol ≤ column) :=
    matrixOffset_of_dimensions hd ho
  refine ⟨fun _ _ ↦ hout, fun row column ho g ↦ bind_of_error (hout ho) _, fun hall hzero ↦ ?_,
    fun hcolumns row column ho ↦ ?_⟩
  · have hcell := (hout (.inl hzero.le)).symm.trans (hall 0 0 (.inl hzero.le))
    simpa [hzero, eq_comm] using hcell
  · rw [hout ho]
    split
    · next hzero => rw [hcolumns hzero]
    · rfl

theorem refusals_of_no_columns :
    let v := (create 0 0).newInteger []
    let h := (v.2.setDimensions v.1 5 0).2
    h.dimensions v.1 = .ok (some (5, 0)) ∧ Refusals h v.1 5 0 := by
  intro v h
  have hd : h.dimensions v.1 = .ok (some (5, 0)) := by decide +kernel
  exact ⟨hd, refusals_of_dimensions hd⟩

/-- A matrix without rows has five columns by its extents, and none in the refusal of a cell. -/
theorem matrixOffset_misses_columns :
    let v := (create 0 0).newInteger []
    let h := (v.2.setDimensions v.1 0 5).2
    h.dimensions v.1 = .ok (some (0, 5)) ∧
      h.matrixOffset v.1 0 0 = .error (.denied (.cellOutOfRange 0 0 0 0)) := by
  decide +kernel

end Heap

end TaggedHeap
