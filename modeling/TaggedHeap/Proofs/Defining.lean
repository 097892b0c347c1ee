import TaggedHeap.Proofs.Balance
import TaggedHeap.Proofs.Blame
import TaggedHeap.Proofs.Walking

namespace TaggedHeap

namespace Heap

open Arena

variable {g h : Heap} {x table value symbol : Handle} {name : String} {buckets : Array Handle}
  {k n : Nat} {cause : Fault}

def HasBuckets (h : Heap) (x table : Handle) (n : Nat) : Prop :=
  h.project x .hashTable = .ok table ∧
    (∃ t, h.tagOf table = .ok t ∧ t.isGenericVector = true) ∧ h.vectorLength table = .ok n

theorem HasBuckets.ne_nil (ht : h.HasBuckets x table n) (hnil : h.tagOf h.nil = .ok .null) :
    table ≠ h.nil := by
  obtain ⟨-, ⟨t, htag, hgeneric⟩, -⟩ := ht
  refine ne_nil_of_tagOf hnil htag fun he ↦ ?_
  rw [he] at hgeneric
  cases hgeneric

def HasTable (h : Heap) (x table : Handle) (buckets : Array Handle) : Prop :=
  (∃ r, h.arena.get? x = some r ∧ ∃ frame enclosing,
      r.payload = .environment frame enclosing table) ∧
    ∃ q, h.arena.get? table = some q ∧ q.payload = .values buckets

theorem hasBuckets_iff (hp : Proper h.arena) :
    h.HasBuckets x table n ↔ ∃ buckets, h.HasTable x table buckets ∧ buckets.size = n := by
  rw [HasBuckets, project_hashTable_eq_ok_iff hp]
  constructor
  · rintro ⟨hx, ⟨t, ht, hg⟩, hlength⟩
    obtain ⟨q, hq, he⟩ := exists_of_bind_eq_ok ht
    cases he
    have hq := get?_of_record hq
    have hw := hp.wellFormed.get? hq
    obtain ⟨buckets, hpay⟩ := (Payload.values_iff_of_fits hw).mpr hg
    rw [vectorLength_of_get? hq hw, orRefuse_eq_ok_iff, hpay] at hlength
    exact ⟨buckets, ⟨hx, q, hq, hpay⟩, Option.some.inj hlength⟩
  · rintro ⟨buckets, ⟨hx, q, hq, hpay⟩, rfl⟩
    have hw := hp.wellFormed.get? hq
    refine ⟨hx, ⟨q.tag, tagOf_of_get? hq, (Payload.values_iff_of_fits hw).mp ⟨buckets, hpay⟩⟩, ?_⟩
    rw [vectorLength_of_get? hq hw, orRefuse_eq_ok_iff, hpay]
    rfl

theorem HasTable.reach {roots : List Handle} (ht : h.HasTable x table buckets)
    (hx : Arena.Reach h.arena roots x) : Arena.Reach h.arena roots table := by
  obtain ⟨⟨r, hr, frame, enclosing, hpay⟩, q, hq, -⟩ := ht
  refine .link hx ?_ (contains_of_get? hq)
  rw [linksOf_of_get? hr, Record.links, hpay]
  simp [Payload.children]

theorem HasTable.grows (ht : h.HasTable x table buckets) (hg : Grows h k g) (hp : Proper h.arena)
    (hn : Numbered g.arena) (hx : Arena.Reach h.arena (h.rootHandles []) x) :
    g.HasTable x table buckets := by
  rw [HasTable, hg.get?_eq hp hn x hx, hg.get?_eq hp hn table (ht.reach hx)]
  exact ht

theorem get?_of_get?_alloc {tag : TypeTag} {payload : Payload} {r : Record} (hp : Proper h.arena)
    (hr : (h.alloc tag payload).2.arena.get? x = some r) :
    h.arena.get? x = some r ∨ r.payload = payload := by
  rw [alloc_eq] at hr
  rcases get?_insert_cases hr with rfl | hr
  · exact .inr rfl
  · exact .inl (get?_of_get?_settle hp hr)

theorem get?_of_get?_intern {r : Record} {bytes : List UInt8} (hp : Proper h.arena)
    (hr : (h.intern bytes).2.arena.get? x = some r) :
    h.arena.get? x = some r ∨ r.payload = .char bytes := by
  unfold intern at hr
  split at hr
  · exact .inl hr
  · exact get?_of_get?_alloc hp hr

theorem get?_of_get?_install {r : Record} (hp : Proper h.arena)
    (hr : (h.install name).2.arena.get? x = some r) (hchar : ∀ bytes, r.payload ≠ .char bytes)
    (hsymbol : ∀ y z w, r.payload ≠ .symbol y z w) : h.arena.get? x = some r := by
  unfold install at hr
  split at hr
  · exact hr
  · let p := h.internText name
    have hpp : Proper p.2.arena := (h.continues_internText name).evolves.proper hp
    dsimp only at hr
    rw [arena_unprotect] at hr
    rcases get?_of_get?_alloc (h := p.2.protect p.1) hpp hr with hr | hpay
    · rcases get?_of_get?_intern hp hr with hr | hpay
      · exact hr
      · exact absurd hpay (hchar _)
    · exact absurd hpay (hsymbol _ _ _)

theorem HasTable.of_install (hp : Proper h.arena)
    (ht : (h.install name).2.HasTable x table buckets) : h.HasTable x table buckets := by
  obtain ⟨⟨r, hr, frame, enclosing, hpay⟩, q, hq, hvalues⟩ := ht
  exact ⟨⟨r, get?_of_get?_install hp hr (by simp [hpay]) (by simp [hpay]), frame, enclosing, hpay⟩,
    q, get?_of_get?_install hp hq (by simp [hvalues]) (by simp [hvalues]), hvalues⟩

theorem bucketOf_lt (name : String) (hn : 0 < n) : bucketOf name n < n :=
  Nat.mod_lt _ hn

theorem getElem?_bucketOf (name : String) (buckets : Array Handle) :
    buckets[bucketOf name buckets.size]? = none ↔ buckets = #[] := by
  rw [Array.getElem?_eq_none_iff, ← Array.size_eq_zero_iff]
  constructor
  · intro hle
    by_contra hne
    exact Nat.not_le.mpr (bucketOf_lt name (Nat.pos_of_ne_zero hne)) hle
  · intro he
    rw [he]
    exact Nat.zero_le _

theorem defineHashed_eq_fault_iff :
    (h.defineHashed table name symbol value).1 = .error (.fault cause) ↔
      cause = .emptyTable ∧ ∃ q, h.arena.get? table = some q ∧ q.payload = .values #[] := by
  unfold defineHashed
  split
  · next buckets hb =>
    obtain ⟨q, hq, hpay⟩ := Option.map_eq_some_iff.mp hb
    dsimp only
    split
    · next bucket hbucket =>
      refine iff_of_false nofun ?_
      rintro ⟨-, q', hq', hempty⟩
      cases hq.symm.trans hq'
      cases hpay.symm.trans hempty
      cases hbucket
    · next hnone =>
      rw [getElem?_bucketOf] at hnone
      simp [hq, hpay, hnone, eq_comm]
  · next hb =>
    refine iff_of_false nofun ?_
    rintro ⟨-, q, hq, hempty⟩
    exact hb #[] (by rw [hq, Option.map_some, hempty])

theorem defineProtected_eq_fault_iff :
    (h.defineProtected x name value).1 = .error (.fault cause) ↔
      cause = .emptyTable ∧
        ∃ table, table ≠ (h.install name).2.nil ∧ (h.install name).2.HasTable x table #[] := by
  let p := h.install name
  cases hx : p.2.record x with
  | error failure =>
    have ho : h.defineProtected x name value = (.error failure, p.2) := by
      simp only [defineProtected, p, hx]
    rw [ho]
    refine iff_of_false (fun he ↦ ?_) ?_
    · exact p.2.answered_record x cause (hx.trans (congrArg Except.error (Except.error.inj he)))
    · rintro ⟨-, table, -, ⟨r, hr, -⟩, -⟩
      cases hx.symm.trans (record_of_get? hr)
  | ok r =>
    have hr := get?_of_record hx
    have htable (t : Handle) : p.2.HasTable x t #[] ↔
        (∃ frame enclosing, r.payload = .environment frame enclosing t) ∧
          ∃ q, p.2.arena.get? t = some q ∧ q.payload = .values #[] := by
      simp [HasTable, hr]
    simp only [p, htable]
    cases hpay : r.payload with
    | environment frame enclosing table =>
      by_cases hnil : table = p.2.nil
      · have ho : h.defineProtected x name value =
            let y := p.2.alloc .pairlist (.cell value frame p.1)
            y.2.setField x .frame y.1 := by
          simp only [defineProtected, p, hx, hpay, hnil, if_true]
        rw [ho]
        refine iff_of_false (answered_setField _ x .frame _ cause) ?_
        rintro ⟨-, t, hne, ⟨_, _, he⟩, -⟩
        cases he
        exact hne hnil
      · have ho : h.defineProtected x name value = p.2.defineHashed table name p.1 value := by
          simp only [defineProtected, p, hx, hpay, hnil, if_false]
        rw [ho, defineHashed_eq_fault_iff]
        refine and_congr_right fun _ ↦ ⟨fun hq ↦ ⟨table, hnil, ⟨frame, enclosing, rfl⟩, hq⟩, ?_⟩
        rintro ⟨t, -, ⟨_, _, he⟩, hq⟩
        cases he
        exact hq
    | _ =>
      refine iff_of_false (fun he ↦ ?_) fun he ↦ ?_
      · simp [defineProtected, p, hx, hpay, Failure.mismatch] at he
      · obtain ⟨-, t, -, ⟨_, _, he⟩, -⟩ := he
        cases he

theorem define_eq_fault_iff (hp : Proper h.arena) (hnil : h.tagOf h.nil = .ok .null)
    (hn : Numbered (h.define x name value).2.arena) :
    (h.define x name value).1 = .error (.fault cause) ↔
      cause = .emptyTable ∧ ∃ table, h.HasBuckets x table 0 := by
  let q := (h.protect x).protect value
  have hroot : x ∈ q.rootHandles [] := h.mem_rootHandles_protect_protect x value
  rw [define, arena_unprotectAfter] at hn
  have hni : Numbered (q.install name).2.arena := (q.course_of_install x name value).numbered hn
  rw [define, fst_unprotectAfter, defineProtected_eq_fault_iff]
  refine and_congr_right fun _ ↦ exists_congr fun table ↦ ⟨?_, fun ht ↦ ?_⟩
  · rintro ⟨-, ht⟩
    exact (hasBuckets_iff hp).mpr ⟨#[], HasTable.of_install (h := q) hp ht, rfl⟩
  · obtain ⟨buckets, htable, hsize⟩ := (hasBuckets_iff hp).mp ht
    obtain rfl := Array.size_eq_zero_iff.mp hsize
    obtain ⟨r, hr, -⟩ := htable.1
    have hreach : Arena.Reach q.arena (q.rootHandles []) x := .root hroot (contains_of_get? hr)
    have hg : Grows q 0 (q.install name).2 := q.grows_install name
    refine ⟨?_, HasTable.grows (h := q) htable hg hp hni hreach⟩
    rw [hg.toContinues.nil]
    exact ht.ne_nil hnil

theorem defineProtected_of_fault
    (he : (h.defineProtected x name value).1 = .error (.fault cause)) :
    (h.defineProtected x name value).2 = (h.install name).2 := by
  unfold defineProtected at he ⊢
  dsimp only at he ⊢
  split
  · rfl
  · next r hr =>
    rw [hr] at he
    dsimp only at he
    split
    · next frame enclosing table hpay =>
      rw [hpay] at he
      dsimp only at he
      split_ifs at he ⊢
      · exact absurd he (answered_setField _ x .frame _ cause)
      · exact defineHashed_refused he
    · rfl

theorem stack_of_fault (he : (h.define x name value).1 = .error (.fault cause)) :
    (h.define x name value).2.roots.stack = value :: x :: h.roots.stack := by
  let q := (h.protect x).protect value
  let o := q.defineProtected x name value
  have ho : o.1 = .error (.fault cause) := (fst_unprotectAfter 2 o).symm.trans he
  have hinstall := ((q.continues_install name).concludes (e := .ok ())).keepsStack
  rw [define, unprotectAfter_of_fault 2 ho, defineProtected_of_fault ho]
  exact hinstall.2 (answered_ok ())

theorem HasTable.getValue (hp : Proper h.arena) (ht : h.HasTable x table buckets) (i : Nat) :
    h.getValue table i =
      orRefuse buckets[i]? (.denied (.indexOutOfRange i buckets.size)) := by
  obtain ⟨-, q, hq, hpay⟩ := ht
  have hw := hp.wellFormed.get? hq
  have hgeneric := (Payload.values_iff_of_fits hw).mp ⟨buckets, hpay⟩
  rw [getValue_of_get? hq hw, elementFailure, if_pos hgeneric, hpay]
  rfl

/-- A definition has put a cell with the value in front of the bucket of the name, and has left the
other buckets as they were. -/
structure Binds (h : Heap) (x table : Handle) (name : String) (value : Handle) (n : Nat)
    (o : Outcome Unit) : Prop where
  answer : o.1 = .ok ()
  bucketOf_lt : bucketOf name n < n
  buckets : o.2.HasBuckets x table n
  bucket : ∃ cell bucket symbol, h.getValue table (bucketOf name n) = .ok bucket ∧
    o.2.getValue table (bucketOf name n) = .ok cell ∧
    o.2.readCell cell = .ok (symbol, value, bucket)
  others : ∀ i, i ≠ bucketOf name n → o.2.getValue table i = h.getValue table i

/-- The table has kept its length when the cell of the binding has been made. -/
theorem binds_defineHashed (hp : Proper h.arena) (hx : Arena.Reach h.arena (h.rootHandles []) x)
    (ht : h.HasTable x table buckets) (hpos : 0 < buckets.size)
    (hn : Numbered (h.defineHashed table name symbol value).2.arena) :
    h.Binds x table name value buckets.size (h.defineHashed table name symbol value) := by
  let i := bucketOf name buckets.size
  have hi : i < buckets.size := bucketOf_lt name hpos
  let bucket := buckets[i]
  have hbucket : buckets[i]? = some bucket := Array.getElem?_eq_getElem hi
  let a := h.alloc .pairlist (.cell value bucket symbol)
  let m : Heap := { a.2 with
    arena := a.2.arena.modify table fun r ↦ { r with payload := r.payload.setValue i a.1 } }
  have ho : h.defineHashed table name symbol value = (.ok (), m) := by
    obtain ⟨-, q, hq, hpay⟩ := ht
    simp only [defineHashed, hq, Option.map_some, hpay]
    rw [hbucket]
  have hpm : Proper m.arena := by
    have hc := h.concludes_defineHashed table name symbol value
    rw [ho] at hc
    exact hc.evolves.proper hp
  rw [ho] at hn ⊢
  have hna : Numbered a.2.arena := numbered_modify_iff.mp hn
  have hta : a.2.HasTable x table buckets :=
    ht.grows (h.grows_alloc .pairlist (.cell value bucket symbol) rfl (by decide)) hp hna hx
  have hfresh : table ≠ a.1 := fun he ↦ not_isLive_alloc hp hna (he ▸ (ht.reach hx).contains)
  have htm : m.HasTable x table (buckets.setIfInBounds i a.1) := by
    obtain ⟨⟨r, hr, frame, enclosing, hpay⟩, q, hq, hvalues⟩ := hta
    have hne : table ≠ x := by
      rintro rfl
      cases hr.symm.trans hq
      cases hpay.symm.trans hvalues
    refine ⟨⟨r, ?_, frame, enclosing, hpay⟩, { q with payload := q.payload.setValue i a.1 }, ?_, ?_⟩
    · rw [get?_modify, if_neg hne, hr]
    · rw [get?_modify, if_pos rfl, hq, Option.map_some]
    · rw [hvalues, Payload.setValue]
  have hcell : m.arena.get? a.1 = some (.new .pairlist h.nil (.cell value bucket symbol)) := by
    rw [get?_modify, if_neg hfresh]
    exact h.get?_alloc hp hna
  refine ⟨rfl, hi, (hasBuckets_iff hpm).mpr ⟨_, htm, Array.size_setIfInBounds⟩,
    ⟨a.1, bucket, symbol, ?_, ?_, ?_⟩, fun j hj ↦ ?_⟩
  · rw [ht.getValue hp, orRefuse_eq_ok_iff, hbucket]
  · rw [htm.getValue hpm, orRefuse_eq_ok_iff, Array.getElem?_setIfInBounds_self_of_lt hi]
  · exact (readCell_eq_ok_iff hpm.wellFormed).mpr ⟨_, hcell, rfl⟩
  · rw [htm.getValue hpm, ht.getValue hp, Array.getElem?_setIfInBounds_ne (Ne.symm hj),
      Array.size_setIfInBounds]

theorem binds_defineProtected (hp : Proper h.arena) (hx : x ∈ h.rootHandles [])
    (hnil : table ≠ h.nil) (ht : h.HasTable x table buckets) (hpos : 0 < buckets.size)
    (hn : Numbered (h.defineProtected x name value).2.arena) :
    h.Binds x table name value buckets.size (h.defineProtected x name value) := by
  let p := h.install name
  have hg : Grows h 0 p.2 := h.grows_install name
  have hni : Numbered p.2.arena := (h.course_of_install x name value).numbered hn
  have hpp : Proper p.2.arena := hg.evolves.proper hp
  obtain ⟨r, hr, -⟩ := ht.1
  have hreach : Arena.Reach h.arena (h.rootHandles []) x := .root hx (contains_of_get? hr)
  have htp : p.2.HasTable x table buckets := ht.grows hg hp hni hreach
  have ho : h.defineProtected x name value = p.2.defineHashed table name p.1 value := by
    obtain ⟨⟨r, hr, frame, enclosing, hpay⟩, -⟩ := htp
    have hne : table ≠ p.2.nil := hg.toContinues.nil ▸ hnil
    simp only [defineProtected, p, record_of_get? hr, hpay, hne, if_false]
  rw [ho] at hn ⊢
  have hb : p.2.Binds x table name value buckets.size (p.2.defineHashed table name p.1 value) :=
    binds_defineHashed hpp (hg.reach hp hni hreach) htp hpos hn
  obtain ⟨cell, bucket, symbol, hold, hnew, hread⟩ := hb.bucket
  have hsame (i : Nat) : p.2.getValue table i = h.getValue table i := by
    rw [htp.getValue hpp, ht.getValue hp]
  exact ⟨hb.answer, hb.bucketOf_lt, hb.buckets,
    ⟨cell, bucket, symbol, (hsame _).symm.trans hold, hnew, hread⟩,
    fun i hi ↦ (hb.others i hi).trans (hsame i)⟩

theorem Binds.congr {o o' : Outcome Unit} (hb : g.Binds x table name value n o)
    (hg : g.arena = h.arena) (hanswer : o'.1 = o.1) (ho : o'.2.arena = o.2.arena) :
    h.Binds x table name value n o' := by
  have hread (i : Nat) : g.getValue table i = h.getValue table i := getValue_congr (by rw [hg]) i
  have hread' (i : Nat) : o'.2.getValue table i = o.2.getValue table i :=
    getValue_congr (by rw [ho]) i
  obtain ⟨cell, bucket, symbol, hold, hnew, hcell⟩ := hb.bucket
  refine ⟨hanswer.trans hb.answer, hb.bucketOf_lt, ?_,
    ⟨cell, bucket, symbol, (hread _).symm.trans hold, (hread' _).trans hnew,
      (readCell_congr (by rw [ho])).trans hcell⟩, fun i hi ↦ ?_⟩
  · have hbuckets := hb.buckets
    simp only [HasBuckets, project, tagOf, vectorLength, record, rawLength, rawField, raw]
      at hbuckets ⊢
    rw [ho]
    exact hbuckets
  · rw [hread', hb.others i hi, hread]

theorem binds_define (hp : Proper h.arena) (hnil : h.tagOf h.nil = .ok .null)
    (ht : h.HasBuckets x table n) (hpos : 0 < n)
    (hn : Numbered (h.define x name value).2.arena) :
    h.Binds x table name value n (h.define x name value) := by
  let q := (h.protect x).protect value
  let o := q.defineProtected x name value
  have hafter : (h.define x name value).2.arena = o.2.arena := arena_unprotectAfter 2 o
  have hroot : x ∈ q.rootHandles [] := h.mem_rootHandles_protect_protect x value
  have hne : table ≠ h.nil := ht.ne_nil hnil
  obtain ⟨buckets, htable, rfl⟩ := (hasBuckets_iff hp).mp ht
  have hb : q.Binds x table name value buckets.size o :=
    binds_defineProtected (h := q) hp hroot hne htable hpos (hafter ▸ hn)
  exact hb.congr rfl (fst_unprotectAfter 2 o) hafter

structure Definitions (h : Heap) : Prop where
  /-- A hash table without buckets is the only thing that breaks a definition off. -/
  fault_iff : ∀ x name value cause, Numbered (h.define x name value).2.arena →
    ((h.define x name value).1 = .error (.fault cause) ↔
      cause = .emptyTable ∧ ∃ table, h.HasBuckets x table 0)
  binds : ∀ x table name value n, Numbered (h.define x name value).2.arena →
    h.HasBuckets x table n → 0 < n → h.Binds x table name value n (h.define x name value)
  stack : ∀ x name value, Answered (h.define x name value).1 →
    (h.define x name value).2.roots.stack = h.roots.stack
  stack_of_fault : ∀ x name value cause, (h.define x name value).1 = .error (.fault cause) →
    (h.define x name value).2.roots.stack = value :: x :: h.roots.stack

/-- In every heap a definition answers unless the hash table has no buckets. The slots must not
outnumber the 32 bits of their numbers. -/
theorem Arises.define_answers_iff (ha : Arises h) : Definitions h where
  fault_iff x name value cause hn := by
    have hh : Numbered h.arena := (h.course_define x name value).numbered hn
    exact define_eq_fault_iff ha.proper (ha.tagOf_nil hh) hn
  binds x table name value n hn ht hpos := by
    have hh : Numbered h.arena := (h.course_define x name value).numbered hn
    exact binds_define ha.proper (ha.tagOf_nil hh) ht hpos hn
  stack x name value := (h.concludes_define x name value).keepsStack.2
  stack_of_fault _ _ _ _ := stack_of_fault

theorem define_answers_iff_of_empty_list :
    let t := (create 0 0).newList []
    let e := t.2.environment t.2.nil
    let h := (e.2.setField e.1 .hashTable t.1).2
    Arises h ∧ Definitions h ∧ h.HasBuckets e.1 t.1 0 ∧
      Numbered (h.define e.1 "a" h.nil).2.arena ∧
      (h.define e.1 "a" h.nil).1 = .error (.fault .emptyTable) := by
  intro t e h
  have he : Arises e.2 := .run (.update (.environment t.2.nil))
    (.run (.update (.newList [])) (.create 0 0) trivial) trivial
  have ha : Arises h := .run (.update (.setField e.1 .hashTable t.1)) he trivial
  have hd := Arises.define_answers_iff ha
  have hb : h.HasBuckets e.1 t.1 0 := ⟨rfl, ⟨.list, rfl, rfl⟩, rfl⟩
  have hn : Numbered (h.define e.1 "a" h.nil).2.arena := by decide +kernel
  exact ⟨ha, hd, hb, hn, (hd.fault_iff e.1 "a" h.nil .emptyTable hn).mpr ⟨rfl, t.1, hb⟩⟩

/-- The definition breaks off and leaves its two protections on the stack, while a read of the same
table refuses the offset. -/
theorem define_breaks_off :
    let t := (create 0 0).newList []
    let e := t.2.environment t.2.nil
    let h := (e.2.setField e.1 .hashTable t.1).2
    (h.define e.1 "a" h.nil).1 = .error (.fault .emptyTable) ∧
      (h.define e.1 "a" h.nil).2.roots.stack = [h.nil, e.1] ∧
      h.getValue t.1 0 = .error (.denied (.indexOutOfRange 0 0)) := by
  decide +kernel

end Heap

end TaggedHeap
