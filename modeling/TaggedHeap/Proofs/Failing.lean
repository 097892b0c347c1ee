import TaggedHeap.Proofs.Reading

namespace TaggedHeap.Heap

variable {x : Handle} {failure : Failure} {α : Type}

/-- The failures of reads that decode no text. -/
def Structural (h : Heap) : Failure → Prop
  | .denied (.staleHandle b) => ¬ h.isLive b = true
  | .denied (.malformedText _) => False
  | _ => True

variable (h : Heap)

theorem Structural.not_isLive {h : Heap} (hf : h.Structural (.stale x)) : ¬ h.isLive x = true :=
  hf

theorem Structural.ne_malformedText {h : Heap} (hf : h.Structural failure) (reason : String) :
    failure ≠ .denied (.malformedText reason) := by
  intro he
  rw [he] at hf
  exact hf

theorem fails_record (x : Handle) : Fails h.Structural (h.record x) := by
  by_cases hx : h.isLive x = true
  · obtain ⟨r, hr⟩ := get?_of_isLive hx
    rw [record_of_get? hr]
    exact fails_ok r
  · rw [record_of_not_isLive hx]
    exact fails_error hx

theorem fails_raw (what : String) (x : Handle) (part : Payload → Option α) :
    Fails h.Structural (h.raw what x part) := by
  unfold raw
  split
  · exact fails_ok _
  · exact fails_error trivial

theorem fails_tagOf (x : Handle) : Fails h.Structural (h.tagOf x) :=
  (h.fails_record x).bind fun r _ ↦ fails_ok r.tag

theorem fails_attributesOf (x : Handle) : Fails h.Structural (h.attributesOf x) :=
  (h.fails_record x).bind fun r _ ↦ fails_ok r.attributes

theorem fails_tagged (x : Handle) {k : TypeTag → Except Failure α} {accepts : TypeTag → Bool}
    {demanded : Shape} {e : Except Failure α} (he : Fails h.Structural e)
    (hk : ∀ t, k t = if accepts t = true then e else .error (.mismatch demanded t)) :
    Fails h.Structural (h.tagOf x >>= k) := by
  refine (h.fails_tagOf x).bind fun t _ ↦ ?_
  rw [hk]
  split
  · exact he
  · exact fails_error trivial

theorem fails_expectTag (x : Handle) (expected : TypeTag) :
    Fails h.Structural (h.expectTag x expected) := by
  refine (h.fails_tagOf x).bind fun t _ ↦ ?_
  split
  · exact fails_ok ()
  · exact fails_error trivial

theorem fails_vectorLength (x : Handle) : Fails h.Structural (h.vectorLength x) :=
  h.fails_tagged x (h.fails_raw _ x _) fun _ ↦ rfl

theorem fails_project (x : Handle) (f : Field) : Fails h.Structural (h.project x f) :=
  h.fails_tagged x (h.fails_raw _ x _) fun _ ↦ rfl

theorem fails_readCell (x : Handle) : Fails h.Structural (h.readCell x) :=
  h.fails_tagged x (h.fails_raw _ x _) fun _ ↦ rfl

theorem fails_charBytes (x : Handle) : Fails h.Structural (h.charBytes x) :=
  (h.fails_expectTag x .char).bind fun _ _ ↦ h.fails_raw _ x _

theorem fails_primitiveOffset (x : Handle) : Fails h.Structural (h.primitiveOffset x) := by
  refine (h.fails_record x).bind fun r _ ↦ ?_
  split
  · exact fails_ok _
  · exact fails_error trivial

theorem fails_element (what : String) (x : Handle) (part : Payload → Option α) (demanded : Shape)
    (accepts : TypeTag → Bool) (i : Nat) :
    Fails h.Structural (do h.checkElement x demanded accepts i; h.raw what x part) := by
  have hcheck : Fails h.Structural (h.checkElement x demanded accepts i) := by
    refine (h.fails_tagOf x).bind fun t _ ↦ ?_
    split
    · refine (h.fails_raw _ x _).bind fun length _ ↦ ?_
      split
      · exact fails_ok ()
      · exact fails_error trivial
    · exact fails_error trivial
  exact hcheck.bind fun _ _ ↦ h.fails_raw what x part

theorem fails_nextCell (w : Walk) (e : Except Failure (Handle × Handle)) (w' : Walk)
    (he : h.nextCell w = (some e, w')) : Fails h.Structural e := by
  unfold nextCell at he
  split at he
  · cases he
  · split at he
    · cases he
    · split at he
      · cases he
        exact fails_error trivial
      · split at he
        · cases he
          exact fails_ok _
        · next failure hr =>
          cases he
          exact (h.fails_readCell w.cursor).of_error hr

theorem fails_nextEnclosing (w : Walk) (e : Except Failure Handle) (w' : Walk)
    (he : h.nextEnclosing w = (some e, w')) : Fails h.Structural e := by
  unfold nextEnclosing at he
  split at he
  · cases he
  · split at he
    · split at he
      · cases he
      · split at he
        · cases he
          exact fails_error trivial
        · cases he
          exact fails_ok _
    · next failure hr =>
      cases he
      exact (h.fails_project w.cursor .enclosing).of_error hr

theorem fails_attributeBySymbol (x symbol : Handle) :
    Fails h.Structural (h.attributeBySymbol x symbol) :=
  (h.fails_attributesOf x).bind fun _ _ ↦
    fails_foldUntil h.fails_nextCell (fun _ _ ↦ fails_ok _) _ _ _

theorem fails_extents (x : Handle) : Fails h.Structural (h.extents x) := by
  refine (h.fails_attributeBySymbol x h.dimSymbol).bind fun dim? _ ↦ ?_
  split
  · exact fails_ok none
  · next dim _ =>
    refine (h.fails_tagOf dim).bind fun t _ ↦ ?_
    split
    · refine (h.fails_raw _ dim _).bind fun length _ ↦
        (fails_mapM fun i _ ↦ h.fails_raw _ dim _).bind fun numbers _ ↦
          (fails_mapM fun n _ ↦ ?_).bind fun extents _ ↦ fails_ok _
      unfold extent
      split
      · exact fails_error trivial
      · exact fails_ok _
    · exact fails_error trivial

theorem fails_dimensions (x : Handle) : Fails h.Structural (h.dimensions x) := by
  refine (h.fails_vectorLength x).bind fun length _ ↦ (h.fails_extents x).bind fun extents _ ↦ ?_
  split
  · exact fails_ok none
  · split
    · exact fails_ok _
    · exact fails_error trivial
  · exact fails_error trivial

theorem fails_nrows (x : Handle) : Fails h.Structural (h.nrows x) := by
  refine (h.fails_vectorLength x).bind fun length _ ↦ (h.fails_extents x).bind fun extents _ ↦ ?_
  split
  · exact fails_ok _
  · exact fails_ok _
  · exact fails_error trivial

theorem fails_matrixOffset (x : Handle) (row column : Nat) :
    Fails h.Structural (h.matrixOffset x row column) := by
  refine (h.fails_vectorLength x).bind fun length _ ↦ (h.fails_nrows x).bind fun nrow _ ↦ ?_
  rw [filledColumns_eq, ok_bind]
  split
  · exact fails_ok _
  · exact fails_error trivial

end TaggedHeap.Heap
