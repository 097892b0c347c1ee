import TaggedHeap.Proofs.Arising

namespace TaggedHeap

variable {α β : Type}

theorem answered_mapM {f : α → Except Failure β} {l : List α} (hf : ∀ a ∈ l, Answered (f a)) :
    Answered (l.mapM f) := by
  simp only [answered_iff] at hf ⊢
  exact fails_mapM hf

theorem answered_foldUntil {next : Walk → Step α} {f : β → α → Except Failure (β ⊕ β)}
    (hnext : ∀ w e w', next w = (some e, w') → Answered e) (hf : ∀ b a, Answered (f b a))
    (steps : Nat) (w : Walk) (b : β) : Answered (Walk.foldUntil next f steps w b) := by
  simp only [answered_iff] at hnext hf ⊢
  exact fails_foldUntil hnext hf steps w b

namespace Heap

open Arena

variable {h : Heap} {x y : Handle} {r : Record}

theorem answered_orRefuse (part : Option α) (cause : AccessError) :
    Answered (orRefuse part (.denied cause)) := by
  cases part with
  | none => exact answered_denied cause
  | some a => exact answered_ok a

theorem answered_orRefuse_of_isSome {part : Option α} (hp : part.isSome = true)
    (failure : Failure) : Answered (orRefuse part failure) := by
  obtain ⟨a, rfl⟩ := Option.isSome_iff_exists.mp hp
  exact answered_ok a

theorem elementFailure_eq_denied (r : Record) (expected : Shape) (accepts : TypeTag → Bool)
    (i : Nat) : ∃ cause, elementFailure r expected accepts i = .denied cause := by
  unfold elementFailure
  split
  · exact ⟨_, rfl⟩
  · exact ⟨_, rfl⟩

theorem answered_of_cases (hw : All Record.WellFormed h.arena) {e : Except Failure α}
    (hs : ¬ h.isLive x = true → e = .error (.stale x))
    (hr : ∀ r, h.arena.get? x = some r → r.WellFormed →
      ∃ part cause, e = orRefuse part (.denied cause)) : Answered e := by
  by_cases hx : h.isLive x = true
  · obtain ⟨r, hg⟩ := get?_of_isLive hx
    obtain ⟨part, cause, he⟩ := hr r hg (hw.get? hg)
    exact he ▸ answered_orRefuse part cause
  · exact hs hx ▸ answered_denied _

section Reads

variable (hw : All Record.WellFormed h.arena)

theorem answered_record (h : Heap) (x : Handle) : Answered (h.record x) := by
  unfold record
  split
  · exact answered_ok _
  · exact answered_denied _

theorem answered_tagOf (h : Heap) (x : Handle) : Answered (h.tagOf x) :=
  (h.answered_record x).bind fun r _ ↦ answered_ok r.tag

theorem answered_attributesOf (h : Heap) (x : Handle) : Answered (h.attributesOf x) :=
  (h.answered_record x).bind fun r _ ↦ answered_ok r.attributes

theorem answered_expectTag (h : Heap) (x : Handle) (expected : TypeTag) :
    Answered (h.expectTag x expected) := by
  refine (h.answered_tagOf x).bind fun t _ ↦ ?_
  split
  · exact answered_ok ()
  · exact answered_denied _

theorem answered_primitiveOffset (h : Heap) (x : Handle) : Answered (h.primitiveOffset x) := by
  refine (h.answered_record x).bind fun r _ ↦ ?_
  split
  · exact answered_ok _
  · exact answered_denied _

include hw

theorem answered_vectorLength (x : Handle) : Answered (h.vectorLength x) :=
  answered_of_cases hw vectorLength_of_not_isLive fun _ hx hr ↦
    ⟨_, _, vectorLength_of_get? hx hr⟩

theorem answered_project (x : Handle) (f : Field) : Answered (h.project x f) :=
  answered_of_cases hw (project_of_not_isLive · f) fun _ hx hr ↦ ⟨_, _, project_of_get? hx hr⟩

theorem answered_charBytes (x : Handle) : Answered (h.charBytes x) :=
  answered_of_cases hw charBytes_of_not_isLive fun _ hx hr ↦ ⟨_, _, charBytes_of_get? hx hr⟩

theorem answered_readCell (x : Handle) : Answered (h.readCell x) :=
  answered_of_cases hw readCell_of_not_isLive fun _ hx hr ↦ ⟨_, _, readCell_of_get? hx hr⟩

theorem answered_charText (x : Handle) : Answered (h.charText x) := by
  refine (answered_charBytes hw x).bind fun bytes _ ↦ ?_
  split
  · exact answered_ok _
  · exact answered_denied _

theorem answered_symbolText (x : Handle) : Answered (h.symbolText x) :=
  (answered_project hw x .printName).bind fun name _ ↦ answered_charText hw name

/-- The checked reads of elements differ in what they look for, and in nothing else. -/
theorem answered_element {e : Except Failure α} {part : Record → Option α} {expected : Shape}
    {accepts : TypeTag → Bool} {i : Nat} (hs : ¬ h.isLive x = true → e = .error (.stale x))
    (hr : ∀ r, h.arena.get? x = some r → r.WellFormed →
      e = orRefuse (part r) (elementFailure r expected accepts i)) : Answered e := by
  refine answered_of_cases hw hs fun r hx hrw ↦ ?_
  obtain ⟨cause, hc⟩ := elementFailure_eq_denied r expected accepts i
  exact ⟨_, cause, by rw [hr r hx hrw, hc]⟩

theorem answered_getRawLogical (x : Handle) (i : Nat) : Answered (h.getRawLogical x i) :=
  answered_element hw (getRawLogical_of_not_isLive · i) fun _ hx hr ↦ getRawLogical_of_get? hx hr i

theorem answered_getInteger (x : Handle) (i : Nat) : Answered (h.getInteger x i) :=
  answered_element hw (getInteger_of_not_isLive · i) fun _ hx hr ↦ getInteger_of_get? hx hr i

theorem answered_getReal (x : Handle) (i : Nat) : Answered (h.getReal x i) :=
  answered_element hw (getReal_of_not_isLive · i) fun _ hx hr ↦ getReal_of_get? hx hr i

theorem answered_getChar (x : Handle) (i : Nat) : Answered (h.getChar x i) :=
  answered_element hw (getChar_of_not_isLive · i) fun _ hx hr ↦ getChar_of_get? hx hr i

theorem answered_getValue (x : Handle) (i : Nat) : Answered (h.getValue x i) :=
  answered_element hw (getValue_of_not_isLive · i) fun _ hx hr ↦ getValue_of_get? hx hr i

theorem answered_nextCell (w : Walk) (e : Except Failure (Handle × Handle)) (w' : Walk)
    (he : h.nextCell w = (some e, w')) : Answered e := by
  have hcell := answered_readCell hw w.cursor
  unfold nextCell at he
  split at he
  · cases he
  · split at he
    · cases he
    · split at he
      · cases he
        exact answered_denied _
      · split at he
        · cases he
          exact answered_ok _
        · next failure hr =>
          cases he
          rw [hr] at hcell
          exact fun c hc ↦ hcell c (by rw [Except.error.inj hc])

theorem answered_nextEnclosing (w : Walk) (e : Except Failure Handle) (w' : Walk)
    (he : h.nextEnclosing w = (some e, w')) : Answered e := by
  have hparent := answered_project hw w.cursor .enclosing
  unfold nextEnclosing at he
  split at he
  · cases he
  · split at he
    · split at he
      · cases he
      · split at he
        · cases he
          exact answered_denied _
        · cases he
          exact answered_ok _
    · next failure hr =>
      cases he
      rw [hr] at hparent
      exact fun c hc ↦ hparent c (by rw [Except.error.inj hc])

theorem answered_findHead {test : Handle → Except Failure Bool} (ht : ∀ x, Answered (test x))
    (list : Handle) : Answered (h.findHead test list) :=
  answered_foldUntil (answered_nextCell hw)
    (fun _ cell ↦ (ht cell.1).bind fun _ _ ↦ answered_ok _) _ _ _

theorem answered_attributeBySymbol (x symbol : Handle) :
    Answered (h.attributeBySymbol x symbol) :=
  (h.answered_attributesOf x).bind fun attributes _ ↦
    answered_findHead hw (fun _ ↦ answered_ok _) attributes

theorem answered_attributeByName (x : Handle) (name : String) :
    Answered (h.attributeByName x name) := by
  refine (h.answered_attributesOf x).bind fun attributes _ ↦
    answered_findHead hw (fun tag ↦ ?_) attributes
  split
  · exact answered_ok false
  · exact (answered_symbolText hw tag).map _

theorem answered_tagNames (list : Handle) : Answered (h.tagNames list) :=
  Answered.map (answered_foldUntil (answered_nextCell hw)
    (fun _ cell ↦ (answered_symbolText hw cell.1).bind fun _ _ ↦ answered_ok _) _ _ _) _

/-- The extents are read without a check of the offsets, which stay below the length. -/
theorem answered_extents (x : Handle) : Answered (h.extents x) := by
  refine (answered_attributeBySymbol hw x h.dimSymbol).bind fun dim? _ ↦ ?_
  split
  · exact answered_ok none
  · next dim _ =>
    refine (h.answered_tagOf dim).bind fun t ht ↦ ?_
    split
    · next hinteger =>
      obtain ⟨r, hx⟩ : ∃ r, h.arena.get? dim = some r := by
        by_contra hn
        rw [tagOf_of_not_isLive fun hl ↦ hn (get?_of_isLive hl)] at ht
        cases ht
      rw [tagOf_of_get? hx, Except.ok.injEq] at ht
      obtain ⟨n, hn, hi⟩ := (Payload.indexes_integer? _ _ (hw.get? hx)).1
        (by rw [ht, hinteger]; rfl)
      have hlen : h.rawLength dim = .ok n := by
        rw [rawLength, raw_of_get? _ hx, hn]
        rfl
      rw [hlen, ok_bind]
      refine (answered_mapM fun i hmem ↦ ?_).bind fun numbers _ ↦
        (answered_mapM fun m _ ↦ ?_).bind fun extents _ ↦ answered_ok _
      · rw [rawInteger, raw_of_get? _ hx]
        refine answered_orRefuse_of_isSome ?_ _
        rw [hi, decide_eq_true_iff]
        exact List.mem_range.mp hmem
      · unfold extent
        split
        · exact answered_denied _
        · exact answered_ok _
    · exact answered_denied _

theorem answered_dimensions (x : Handle) : Answered (h.dimensions x) := by
  refine (answered_vectorLength hw x).bind fun length _ ↦
    (answered_extents hw x).bind fun extents _ ↦ ?_
  split
  · exact answered_ok none
  · split
    · exact answered_ok _
    · exact answered_denied _
  · exact answered_denied _

theorem answered_nrows (x : Handle) : Answered (h.nrows x) := by
  refine (answered_vectorLength hw x).bind fun length _ ↦
    (answered_extents hw x).bind fun extents _ ↦ ?_
  split
  · exact answered_ok _
  · exact answered_ok _
  · exact answered_denied _

theorem answered_matrixOffset (x : Handle) (row column : Nat) :
    Answered (h.matrixOffset x row column) := by
  refine (answered_vectorLength hw x).bind fun length _ ↦
    (answered_nrows hw x).bind fun nrow _ ↦ ?_
  rw [filledColumns_eq, ok_bind]
  split
  · exact answered_ok _
  · exact answered_denied _

theorem answered_read (g : Getter) (x : Handle) (i : Nat) : Answered (g.read h x i) := by
  have hchar := answered_getChar hw x i
  cases g with
  | rawLogical => exact (answered_getRawLogical hw x i).map _
  | logical | logicalOption =>
    exact ((answered_getRawLogical hw x i).bind fun _ _ ↦ answered_ok _).map _
  | integer => exact (answered_getInteger hw x i).map _
  | integerOption => exact ((answered_getInteger hw x i).bind fun _ _ ↦ answered_ok _).map _
  | real => exact (answered_getReal hw x i).map _
  | realOption => exact ((answered_getReal hw x i).bind fun _ _ ↦ answered_ok _).map _
  | char => exact hchar.map _
  | text => exact (hchar.bind fun char _ ↦ answered_charText hw char).map _
  | bytes => exact (hchar.bind fun char _ ↦ answered_charBytes hw char).map _
  | textOption =>
    refine (hchar.bind fun char _ ↦ ?_).map _
    split
    · exact (answered_charText hw _).map _
    · exact answered_ok none
  | bytesOption =>
    refine (hchar.bind fun char _ ↦ ?_).map _
    split
    · exact (answered_charBytes hw _).map _
    · exact answered_ok none
  | value => exact (answered_getValue hw x i).map _

theorem answered_bucketNames (x : Handle) : Answered (h.bucketNames x) := by
  refine (answered_project hw x .hashTable).bind fun table _ ↦
    (answered_vectorLength hw table).bind fun size _ ↦
      (answered_mapM fun i _ ↦ ?_).bind fun _ _ ↦ answered_ok _
  refine (answered_getValue hw table i).bind fun bucket _ ↦ ?_
  split
  · exact answered_ok none
  · exact (answered_tagNames hw bucket).bind fun names _ ↦ answered_ok (some (i, names))

theorem answered_answer (q : Query) : Answered (q.answer h) := by
  cases q with
  | isLive _ | isNil _ | cells _ | enclosing _ => exact answered_ok _
  | tagOf x => exact (h.answered_tagOf x).map _
  | expectTag x expected => exact (h.answered_expectTag x expected).map _
  | attributesOf x => exact (h.answered_attributesOf x).map _
  | attributeBySymbol x symbol => exact (answered_attributeBySymbol hw x symbol).map _
  | attributeByName x name => exact (answered_attributeByName hw x name).map _
  | vectorLength x => exact (answered_vectorLength hw x).map _
  | nrows x => exact (answered_nrows hw x).map _
  | dimensions x => exact (answered_dimensions hw x).map _
  | charBytes x => exact (answered_charBytes hw x).map _
  | charText x => exact (answered_charText hw x).map _
  | symbolText x => exact (answered_symbolText hw x).map _
  | primitiveOffset x => exact (h.answered_primitiveOffset x).map _
  | project x f => exact (answered_project hw x f).map _
  | element g x offset => exact answered_read hw g x offset
  | matrixOffset x row column => exact (answered_matrixOffset hw x row column).map _
  | matrixElement g x row column =>
    exact (answered_matrixOffset hw x row column).bind fun offset _ ↦ answered_read hw g x offset
  | bucketNames x => exact (answered_bucketNames hw x).map _

end Reads

theorem answered_update (h : Heap) (x : Handle) {f : Record → Except Failure Record}
    (hf : ∀ r, Answered (f r)) : Answered (h.update x f).1 := by
  have he := (answered_record h x).bind fun r _ ↦ hf r
  unfold update
  split
  · exact answered_ok ()
  · next failure hr =>
    rw [hr] at he
    exact fun c hc ↦ he c (congrArg Except.error (Except.error.inj hc))

theorem answered_setField (h : Heap) (x : Handle) (f : Field) (value : Handle) :
    Answered (h.setField x f value).1 := by
  refine h.answered_update x fun r ↦ ?_
  split
  · split
    · exact answered_ok _
    · exact answered_denied _
  · exact answered_denied _

theorem answered_setAttributes (h : Heap) (x attributes : Handle) :
    Answered (h.setAttributes x attributes).1 :=
  h.answered_update x fun _ ↦ answered_ok _

end Heap

/-- The value that a query is about. Two queries are about the handle itself, and a walk goes from
value to value. -/
def Query.subject? : Query → Option Handle
  | isLive _ | isNil _ | cells _ | enclosing _ => none
  | tagOf x | expectTag x _ | attributesOf x | attributeBySymbol x _ | attributeByName x _
  | vectorLength x | nrows x | dimensions x | charBytes x | charText x | symbolText x
  | primitiveOffset x | project x _ | element _ x _ | matrixOffset x _ _
  | matrixElement _ x _ _ | bucketNames x => some x

namespace Heap

open Arena

variable {h : Heap} {x : Handle}

section Stale

variable (hx : ¬ h.isLive x = true)

include hx

theorem matrixOffset_of_not_isLive (row column : Nat) :
    h.matrixOffset x row column = .error (.stale x) :=
  bind_of_error (vectorLength_of_not_isLive hx) _

theorem read_of_not_isLive (g : Getter) (i : Nat) : g.read h x i = .error (.stale x) := by
  cases g with
  | rawLogical => exact map_of_error (getRawLogical_of_not_isLive hx i) _
  | logical | logicalOption =>
    exact map_of_error (bind_of_error (getRawLogical_of_not_isLive hx i) _) _
  | integer => exact map_of_error (getInteger_of_not_isLive hx i) _
  | integerOption => exact map_of_error (bind_of_error (getInteger_of_not_isLive hx i) _) _
  | real => exact map_of_error (getReal_of_not_isLive hx i) _
  | realOption => exact map_of_error (bind_of_error (getReal_of_not_isLive hx i) _) _
  | char => exact map_of_error (getChar_of_not_isLive hx i) _
  | text | textOption | bytes | bytesOption =>
    exact map_of_error (bind_of_error (getChar_of_not_isLive hx i) _) _
  | value => exact map_of_error (getValue_of_not_isLive hx i) _

theorem answer_of_not_isLive {q : Query} (hq : q.subject? = some x) :
    q.answer h = .error (.stale x) := by
  cases q <;> cases hq
  case tagOf => exact map_of_error (tagOf_of_not_isLive hx) _
  case expectTag expected => exact map_of_error (expectTag_of_not_isLive hx expected) _
  case attributesOf => exact map_of_error (attributesOf_of_not_isLive hx) _
  case attributeBySymbol symbol =>
    exact map_of_error (bind_of_error (attributesOf_of_not_isLive hx) _) _
  case attributeByName name =>
    exact map_of_error (bind_of_error (attributesOf_of_not_isLive hx) _) _
  case vectorLength => exact map_of_error (vectorLength_of_not_isLive hx) _
  case nrows => exact map_of_error (bind_of_error (vectorLength_of_not_isLive hx) _) _
  case dimensions => exact map_of_error (bind_of_error (vectorLength_of_not_isLive hx) _) _
  case charBytes => exact map_of_error (charBytes_of_not_isLive hx) _
  case charText => exact map_of_error (bind_of_error (charBytes_of_not_isLive hx) _) _
  case symbolText => exact map_of_error (bind_of_error (project_of_not_isLive hx .printName) _) _
  case primitiveOffset => exact map_of_error (bind_of_error (record_of_not_isLive hx) _) _
  case project f => exact map_of_error (project_of_not_isLive hx f) _
  case element g offset => exact read_of_not_isLive hx g offset
  case matrixOffset row column => exact map_of_error (matrixOffset_of_not_isLive hx row column) _
  case matrixElement g row column =>
    exact bind_of_error (matrixOffset_of_not_isLive hx row column) _
  case bucketNames => exact map_of_error (bind_of_error (project_of_not_isLive hx .hashTable) _) _

theorem nextCell_start_of_not_isLive {limit : Nat} (hn : x ≠ h.nil) (hl : 0 < limit) :
    h.nextCell (Walk.start x limit) =
      (some (.error (.stale x)), (Walk.start x limit).finish) := by
  have hl : ¬ limit ≤ 0 := Nat.not_le.mpr hl
  simp only [nextCell, Walk.start, Bool.false_eq_true, if_false, hn, hl, readCell_of_not_isLive hx]

theorem nextEnclosing_start_of_not_isLive (limit : Nat) :
    h.nextEnclosing (Walk.start x limit) =
      (some (.error (.stale x)), (Walk.start x limit).finish) := by
  simp only [nextEnclosing, Walk.start, Bool.false_eq_true, if_false, project_of_not_isLive hx]

end Stale

/-- The offset of a matrix cell lies within the vector, so its computation cannot overflow. -/
theorem matrixOffset_bounds {row column offset : Nat}
    (ho : h.matrixOffset x row column = .ok offset) :
    ∃ length nrow, h.vectorLength x = .ok length ∧ h.nrows x = .ok nrow ∧ row < nrow ∧
      offset = column * nrow + row ∧ offset < length := by
  obtain ⟨length, hlength, ho⟩ := exists_of_bind_eq_ok ho
  obtain ⟨nrow, hnrow, ho⟩ := exists_of_bind_eq_ok ho
  rw [filledColumns_eq, ok_bind] at ho
  split at ho
  · next hcell =>
    obtain ⟨hrow, hcolumn⟩ := hcell
    cases ho
    refine ⟨length, nrow, hlength, hnrow, hrow, rfl, ?_⟩
    calc column * nrow + row < column * nrow + nrow := Nat.add_lt_add_left hrow _
      _ = (column + 1) * nrow := (Nat.succ_mul column nrow).symm
      _ ≤ length / nrow * nrow := Nat.mul_le_mul_right _ hcolumn
      _ ≤ length := Nat.div_mul_le_self length nrow
  · cases ho

theorem next_of_finished (h : Heap) {w : Walk} (hw : w.finished = true) :
    h.nextCell w = (none, w) ∧ h.nextEnclosing w = (none, w) := by
  unfold nextCell nextEnclosing
  rw [if_pos hw, if_pos hw]
  exact ⟨rfl, rfl⟩

theorem trail_of_error {α : Type} {next : Walk → Step α} {w w' : Walk} {failure : Failure}
    (he : next w = (some (.error failure), w')) : w.trail next = (⟨[], some failure⟩, w') := by
  rw [Walk.trail, Walk.bound, Walk.trailFrom, he]
  rfl

/-- What the reads of a heap promise. -/
structure Safe (h : Heap) : Prop where
  answered : ∀ q : Query, Answered (q.answer h)
  answered_cell : ∀ w e w', h.nextCell w = (some e, w') → Answered e
  answered_enclosing : ∀ w e w', h.nextEnclosing w = (some e, w') → Answered e
  offset_bounds : ∀ x row column offset, h.matrixOffset x row column = .ok offset →
    ∃ length nrow, h.vectorLength x = .ok length ∧ h.nrows x = .ok nrow ∧ row < nrow ∧
      offset = column * nrow + row ∧ offset < length
  stale : ∀ x, ¬ h.isLive x = true → ∀ q : Query, q.subject? = some x →
    q.answer h = .error (.stale x)
  /-- A walk from a value without a record yields the name of that value, and then nothing. -/
  stale_walk : ∀ x limit, ¬ h.isLive x = true → 0 < limit →
    (Walk.start x limit).trail h.nextCell = (⟨[], some (.stale x)⟩, (Walk.start x limit).finish) ∧
      (Walk.start x limit).trail h.nextEnclosing =
        (⟨[], some (.stale x)⟩, (Walk.start x limit).finish)
  finished : ∀ w : Walk, w.finished = true →
    h.nextCell w = (none, w) ∧ h.nextEnclosing w = (none, w)

theorem Arises.reads_safely (ha : Arises h) : Safe h where
  answered := answered_answer ha.proper.wellFormed
  answered_cell := answered_nextCell ha.proper.wellFormed
  answered_enclosing := answered_nextEnclosing ha.proper.wellFormed
  offset_bounds _ _ _ _ := matrixOffset_bounds
  stale _ hx _ := answer_of_not_isLive hx
  stale_walk x limit hx hl := by
    have hnil : x ≠ h.nil := fun he ↦ hx (he ▸ ha.isLive_nil)
    exact ⟨trail_of_error (nextCell_start_of_not_isLive hx hnil hl),
      trail_of_error (nextEnclosing_start_of_not_isLive hx limit)⟩
  finished _ := h.next_of_finished

theorem reads_safely_after_collection :
    let p := (create 0 0).newInteger [1]
    Arises p.2.collect.2 ∧ p.2.collect.2.isLive p.1 = false ∧ Safe p.2.collect.2 := by
  have ha : Arises ((create 0 0).newInteger [1]).2.collect.2 :=
    .run (.update .collect) (.run (.update (.newInteger [1])) (.create 0 0) trivial) trivial
  exact ⟨ha, by decide, Arises.reads_safely ha⟩

end Heap

end TaggedHeap
