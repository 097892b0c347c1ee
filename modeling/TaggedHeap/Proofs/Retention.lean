import TaggedHeap.Proofs.Shaping
import TaggedHeap.Proofs.Storing
import TaggedHeap.Proofs.Tenancy

namespace TaggedHeap

namespace Payload

variable {p q q' : Payload} {s : Set Nat} {x : Handle} {f : Field} {j : Nat}

theorem setField?_of_isSome_length? (hp : p.length?.isSome = true) : p.setField? x f = none := by
  cases p with
  | symbol | cell | closure | environment | promise => cases hp
  | _ => cases f <;> rfl

theorem AgreesOn.trans (hq : q'.AgreesOn s q) (hp : q.AgreesOn s p) : q'.AgreesOn s p where
  length := hq.length.trans hp.length
  bytes := hq.bytes.trans hp.bytes
  logical i hi := (hq.logical i hi).trans (hp.logical i hi)
  integer i hi := (hq.integer i hi).trans (hp.integer i hi)
  real i hi := (hq.real i hi).trans (hp.real i hi)
  string i hi := (hq.string i hi).trans (hp.string i hi)
  value i hi := (hq.value i hi).trans (hp.value i hi)

theorem AgreesOn.eq_char {bytes : List UInt8} (hq : q.AgreesOn s (.char bytes)) :
    q = .char bytes := by
  have hb := hq.bytes
  cases q with
  | char _ => exact congrArg Payload.char (Option.some.inj hb)
  | _ => cases hb

theorem agreesOn_setIfInBounds {elements : Array Handle} (hj : j ∉ s) :
    (strings (elements.setIfInBounds j x)).AgreesOn s (strings elements) where
  length := congrArg some Array.size_setIfInBounds
  string _ hi := Array.getElem?_setIfInBounds_ne (ne_of_mem_of_not_mem hi hj).symm
  bytes := rfl
  logical _ _ := rfl
  integer _ _ := rfl
  real _ _ := rfl
  value _ _ := rfl

theorem agreesOn_setValue (p : Payload) (x : Handle) (hj : j ∉ s) :
    (p.setValue j x).AgreesOn s p := by
  cases p with
  | values elements =>
    exact ⟨congrArg some Array.size_setIfInBounds, rfl, fun _ _ ↦ rfl, fun _ _ ↦ rfl,
      fun _ _ ↦ rfl, fun _ _ ↦ rfl, fun _ hi ↦
        Array.getElem?_setIfInBounds_ne (ne_of_mem_of_not_mem hi hj).symm⟩
  | _ => exact .refl s _

end Payload

def Action.Stores (h : Heap) (v : Handle) (i : Nat) : Action → Prop
  | request (.update (.setString x offset value)) =>
    x = v ∧ offset = i ∧ (h.setString x offset value).1 = .ok ()
  | request (.update (.define x name value)) =>
    h.project x .hashTable = .ok v ∧ (∃ n, h.vectorLength v = .ok n ∧ Heap.bucketOf name n = i) ∧
      (h.define x name value).1 = .ok ()
  | _ => False

namespace Heap

open Arena

variable {g h k : Heap} {x y name value : Handle} {r : Record} {s : Set Nat} {P : List Handle}

/-- The handle finds a record with the tag and the length of the given one, and with the same
elements at the offsets. -/
def Shows (h : Heap) (x : Handle) (s : Set Nat) (r : Record) : Prop :=
  ∃ r', h.arena.get? x = some r' ∧ r'.tag = r.tag ∧ r'.payload.AgreesOn s r.payload

/-- If the handle finds the record first and some record later, the later one shows the same. -/
def Persists (h : Heap) (x : Handle) (s : Set Nat) (r : Record) (g : Heap) : Prop :=
  h.Lasts [] x r → g.isLive x = true → g.Shows x s r

theorem persists_of_lasts (hl : h.Lasts [] x r → g.Lasts P x r) : h.Persists x s r g :=
  fun hx hlive ↦ ⟨r, (hl hx).get? hlive, rfl, .refl s r.payload⟩

theorem Persists.after (hk : g.Persists x s r k) (hl : h.Lasts [] x r → g.Lasts [] x r) :
    h.Persists x s r k :=
  fun hx ↦ hk (hl hx)

theorem Persists.of_eq (hg : h.Persists x s r g) (ha : k.arena = g.arena) : h.Persists x s r k := by
  rwa [Persists, isLive, Shows, ha]

theorem Persists.refl (h : Heap) (x : Handle) (s : Set Nat) (r : Record) : h.Persists x s r h :=
  persists_of_lasts id

theorem persists_of_eq (ha : g.arena = h.arena) : h.Persists x s r g :=
  (Persists.refl h x s r).of_eq ha

theorem persists_of_aside (ha : Aside h g) : h.Persists x s r g := by
  obtain ⟨_, _, _, rfl⟩ := ha
  exact persists_of_eq rfl

theorem Persists.modify (hg : h.Persists x s r g) {f : Record → Record}
    (hf : y = x → ∀ q, g.arena.get? x = some q → q.payload.AgreesOn s r.payload →
      (f q).tag = q.tag ∧ (f q).payload.AgreesOn s q.payload) :
    h.Persists x s r { g with arena := g.arena.modify y f } := by
  intro hx hlive
  obtain ⟨q, hq, htag, hpay⟩ := hg hx ((contains_modify f).symm.trans hlive)
  by_cases hxy : y = x
  · obtain ⟨ht, hp⟩ := hf hxy q hq hpay
    refine ⟨f q, ?_, ht.trans htag, hp.trans hpay⟩
    rw [get?_modify, if_pos hxy, hq, Option.map_some]
  · exact ⟨q, by rw [get?_modify, if_neg hxy, hq], htag, hpay⟩

section Rewrite

theorem Persists.setField (hg : h.Persists x s r g) (hr : r.payload.length?.isSome = true)
    (y : Handle) (f : Field) (value : Handle) : h.Persists x s r (g.setField y f value).2 := by
  rcases g.setField_cases y f value with ⟨q, payload, hy, hp, he⟩ | ⟨failure, he⟩
  · rw [he]
    refine hg.modify fun hxy q' hq' hpay ↦ ?_
    obtain rfl := Option.some.inj (hq'.symm.trans (hxy ▸ hy))
    -- A vector has no fields.
    rw [Payload.setField?_of_isSome_length? (hpay.length ▸ hr)] at hp
    cases hp
  · rw [he]
    exact hg

theorem Persists.setAttributes (hg : h.Persists x s r g) (y attributes : Handle) :
    h.Persists x s r (g.setAttributes y attributes).2 := by
  rcases g.setAttributes_cases y attributes with ⟨q, hy, he⟩ | ⟨failure, he⟩
  · rw [he]
    refine hg.modify fun hxy q' hq' _ ↦ ?_
    obtain rfl := Option.some.inj (hq'.symm.trans (hxy ▸ hy))
    exact ⟨rfl, .refl s _⟩
  · rw [he]
    exact hg

theorem Persists.force (hg : h.Persists x s r g) (hr : r.payload.length?.isSome = true)
    (y value : Handle) : h.Persists x s r (g.force y value).2 := by
  have hv := hg.setField hr y .promiseValue value
  unfold Heap.force
  split
  · next g' he =>
    rw [he] at hv
    exact hv.setField hr y .promiseEnvironment g'.nil
  · next he =>
    rw [he] at hv
    exact hv

theorem Persists.setString (hg : h.Persists x s r g) {offset : Nat}
    (hs : y = x → offset ∈ s → (g.setString y offset value).1 = .ok () →
      ∃ bytes, r.payload = .char bytes) :
    h.Persists x s r (g.setString y offset value).2 := by
  rcases g.setString_cases y offset value with ⟨q, elements, hy, hp, he⟩ | ⟨failure, he⟩
  · rw [he] at hs ⊢
    refine hg.modify fun hxy q' hq' hpay ↦ ?_
    obtain rfl := Option.some.inj (hq'.symm.trans (hxy ▸ hy))
    refine ⟨rfl, ?_⟩
    rw [hp]
    refine Payload.agreesOn_setIfInBounds fun hi ↦ ?_
    -- A text has no elements.
    obtain ⟨bytes, hchar⟩ := hs hxy hi rfl
    rw [hchar, hp] at hpay
    cases hpay.eq_char
  · rw [he]
    exact hg

end Rewrite

section Grow

variable {name : String} {items : List (Option String × Handle)}

theorem persists_alloc {tag : TypeTag} {payload : Payload} (hp : Proper h.arena)
    (hn : Numbered (h.alloc tag payload).2.arena) : h.Persists x s r (h.alloc tag payload).2 :=
  persists_of_lasts fun hx ↦ hx.alloc hp hn

theorem persists_pairlist (hp : Proper h.arena) (hn : Numbered (h.pairlist items).2.arena) :
    h.Persists x s r (h.pairlist items).2 := by
  let q := items.foldl (fun h item ↦ h.protect item.2) h
  have hq : Proper q.arena := (grows_foldl_protect Prod.snd items h).evolves.proper hp
  have ha : (h.pairlist items).2.arena = (link items q).2.arena := arena_unprotect _ _
  rw [ha] at hn
  have hl : q.Persists x s r (link items q).2 := persists_of_lasts fun hx ↦ hx.link hq hn
  exact (hl.after (Lasts.foldl_protect Prod.snd items)).of_eq ha

theorem persists_hashedEnvironment (hp : Proper h.arena) {buckets : Nat}
    (hn : Numbered (h.hashedEnvironment y buckets).2.arena) :
    h.Persists x s r (h.hashedEnvironment y buckets).2 := by
  unfold hashedEnvironment at hn ⊢
  dsimp only at hn ⊢
  split at hn
  · next hb =>
    rw [if_pos hb]
    exact persists_of_eq rfl
  · next hb =>
    rw [if_neg hb]
    let q := h.protect y
    let slots := Array.replicate (max buckets 1) q.nil
    let t := q.alloc .list (.values slots)
    let u := t.2.protect t.1
    have hpu : Proper u.arena := (q.continues_alloc .list (.values slots) rfl).evolves.proper hp
    have hc := u.continues_alloc .environment (.environment u.nil y t.1) rfl
    dsimp only at hn
    rw [arena_unprotect] at hn
    have hl : h.Lasts [] x r → u.Lasts [] x r := fun hx ↦
      ((hx.pending [y]).protect.alloc (h := q) hp (hc.numbered hn)).protect
    exact ((persists_alloc hpu hn).after hl).of_eq (arena_unprotect _ _)

end Grow

section Define

variable {table symbol : Handle} {name : String}

theorem defineHashed_cases (h : Heap) (table : Handle) (name : String) (symbol value : Handle) :
    (∃ buckets bucket, h.Holds table (.values buckets) ∧
        h.defineHashed table name symbol value =
          let a := h.alloc .pairlist (.cell value bucket symbol)
          (.ok (), { a.2 with arena := a.2.arena.modify table fun r ↦
            { r with payload := r.payload.setValue (bucketOf name buckets.size) a.1 } })) ∨
      ∃ failure, h.defineHashed table name symbol value = (.error failure, h) := by
  unfold defineHashed
  split
  · next buckets hb =>
    obtain ⟨q, hq, hpay⟩ := Option.map_eq_some_iff.mp hb
    dsimp only
    split
    · next bucket _ => exact .inl ⟨buckets, bucket, ⟨q, hq, hpay⟩, rfl⟩
    · exact .inr ⟨_, rfl⟩
  · exact .inr ⟨_, rfl⟩

theorem persists_defineHashed (hp : Proper h.arena)
    (hn : Numbered (h.defineHashed table name symbol value).2.arena)
    (hs : ∀ buckets, table = x → h.Holds x (.values buckets) → bucketOf name buckets.size ∈ s →
      (h.defineHashed table name symbol value).1 = .ok () → ∃ bytes, r.payload = .char bytes) :
    h.Persists x s r (h.defineHashed table name symbol value).2 := by
  rcases h.defineHashed_cases table name symbol value with
    ⟨buckets, bucket, ht, he⟩ | ⟨failure, he⟩
  · rw [he] at hn hs ⊢
    refine (persists_alloc hp (numbered_modify_iff.mp hn)).modify fun hx q _ hpay ↦ ⟨rfl, ?_⟩
    by_cases hi : bucketOf name buckets.size ∈ s
    · obtain ⟨bytes, hchar⟩ := hs buckets hx (hx ▸ ht) hi rfl
      rw [hchar] at hpay
      rw [hpay.eq_char]
      exact .refl s _
    · exact Payload.agreesOn_setValue _ _ hi
  · rw [he]
    exact .refl h x s r

theorem persists_defineProtected (hp : Proper h.arena)
    (hr : r.payload.length?.isSome = true)
    (hn : Numbered (h.defineProtected y name value).2.arena)
    (hs : h.project y .hashTable = .ok x →
      (∃ n, h.vectorLength x = .ok n ∧ bucketOf name n ∈ s) →
      (h.defineProtected y name value).1 = .ok () → ∃ bytes, r.payload = .char bytes) :
    h.Persists x s r (h.defineProtected y name value).2 := by
  let p := h.install name
  have hpp : Proper p.2.arena := (h.continues_install name).evolves.proper hp
  have hnp : Numbered p.2.arena := (h.course_of_install y name value).numbered hn
  have hl : h.Lasts [] x r → p.2.Lasts [] x r := fun hx ↦ hx.install hp hnp
  have hinstalled : h.Persists x s r p.2 := persists_of_lasts hl
  cases hy : p.2.record y with
  | error failure =>
    simp only [defineProtected, p, hy]
    exact hinstalled
  | ok q =>
    cases hpay : q.payload with
    | environment frame enclosing table =>
      by_cases htable : table = p.2.nil
      · have ho : h.defineProtected y name value =
            let a := p.2.alloc .pairlist (.cell value frame p.1)
            a.2.setField y .frame a.1 := by
          simp only [defineProtected, p, hy, hpay, htable, if_true]
        rw [ho] at hn ⊢
        have hna := (rewrites_setField _ _ _ _).course.numbered hn
        exact ((persists_alloc hpp hna).setField hr _ _ _).after hl
      · have ho : h.defineProtected y name value = p.2.defineHashed table name p.1 value := by
          simp only [defineProtected, p, hy, hpay, htable, if_false]
        rw [ho] at hn hs ⊢
        refine (persists_defineHashed hpp hn fun buckets hx ht hi hok ↦
          hs ?_ ⟨buckets.size, ?_, hi⟩ hok).after hl
        · have hq := get?_of_get?_install hp (get?_of_record hy) (by simp [hpay]) (by simp [hpay])
          exact (project_hashTable_eq_ok_iff hp).mpr ⟨q, hq, frame, enclosing, hx ▸ hpay⟩
        · obtain ⟨t, ht, hvalues⟩ := ht
          have ht := get?_of_get?_install hp ht (by simp [hvalues]) (by simp [hvalues])
          rw [vectorLength_of_get? ht (hp.wellFormed.get? ht), orRefuse_eq_ok_iff, hvalues]
          rfl
    | _ =>
      simp only [defineProtected, p, hy, hpay]
      exact hinstalled

theorem Lasts.protect_protect (hx : h.Lasts [] x r) (y value : Handle) :
    ((h.protect y).protect value).Lasts [] x r :=
  ((hx.pending [y]).protect.pending [value]).protect

theorem persists_define (hp : Proper h.arena) (hr : r.payload.length?.isSome = true)
    (hn : Numbered (h.define y name value).2.arena)
    (hs : h.project y .hashTable = .ok x →
      (∃ n, h.vectorLength x = .ok n ∧ bucketOf name n ∈ s) →
      (h.define y name value).1 = .ok () → ∃ bytes, r.payload = .char bytes) :
    h.Persists x s r (h.define y name value).2 := by
  let q := (h.protect y).protect value
  rw [define, arena_unprotectAfter] at hn
  rw [define, fst_unprotectAfter] at hs
  have hq : q.Persists x s r (q.defineProtected y name value).2 :=
    persists_defineProtected (h := q) hp hr hn hs
  exact (hq.after fun hx ↦ hx.protect_protect y value).of_eq (arena_unprotectAfter _ _)

end Define

section Attribute

theorem persists_setAttributeProtected (hp : Proper h.arena)
    (hr : r.payload.length?.isSome = true)
    (hn : Numbered (h.setAttributeProtected y name value).2.arena) :
    h.Persists x s r (h.setAttributeProtected y name value).2 := by
  cases hy : h.record y with
  | error failure =>
    simp only [setAttributeProtected, hy]
    exact .refl h x s r
  | ok q =>
    cases hs : h.search name q.attributes with
    | found cell =>
      simp only [setAttributeProtected, hy, hs]
      exact (Persists.refl h x s r).setField hr cell .head value
    | broken link =>
      simp only [setAttributeProtected, hy, hs]
      exact .refl h x s r
    | endless =>
      simp only [setAttributeProtected, hy, hs]
      exact .refl h x s r
    | absent last =>
      simp only [setAttributeProtected, hy, hs] at hn ⊢
      split_ifs at hn ⊢
      · exact (persists_alloc hp ((rewrites_setAttributes _ _ _).course.numbered hn)).setAttributes
          _ _
      · exact (persists_alloc hp ((rewrites_setField _ _ _ _).course.numbered hn)).setField hr _ _ _

theorem persists_setAttribute (hp : Proper h.arena) (hr : r.payload.length?.isSome = true)
    (hn : Numbered (h.setAttribute y name value).2.arena) :
    h.Persists x s r (h.setAttribute y name value).2 := by
  let q := (h.protect y).protect value
  rw [setAttribute, arena_unprotectAfter] at hn
  have hq : q.Persists x s r (q.setAttributeProtected y name value).2 :=
    persists_setAttributeProtected (h := q) hp hr hn
  exact (hq.after fun hx ↦ hx.protect_protect y value).of_eq (arena_unprotectAfter _ _)

theorem persists_attach (p : Handle × Heap) {symbol : Handle} (hp : Proper p.2.arena)
    (hr : r.payload.length?.isSome = true) (hl : h.Lasts [] x r → p.2.Lasts [p.1] x r)
    (hn : Numbered (unprotectAfter 1 ((p.2.protect p.1).setAttribute y symbol p.1)).2.arena) :
    h.Persists x s r (unprotectAfter 1 ((p.2.protect p.1).setAttribute y symbol p.1)).2 := by
  rw [arena_unprotectAfter] at hn
  have ha : (p.2.protect p.1).Persists x s r ((p.2.protect p.1).setAttribute y symbol p.1).2 :=
    persists_setAttribute (h := p.2.protect p.1) hp hr hn
  exact (ha.after fun hx ↦ (hl hx).protect).of_eq (arena_unprotectAfter _ _)

theorem persists_setDimensions (hp : Proper h.arena) (hr : r.payload.length?.isSome = true)
    {nrow ncol : Nat} (hn : Numbered (h.setDimensions y nrow ncol).2.arena) :
    h.Persists x s r (h.setDimensions y nrow ncol).2 := by
  unfold setDimensions at hn ⊢
  split
  · exact .refl h x s r
  · next q hq =>
    simp only [hq] at hn
    split
    · exact .refl h x s r
    · next length hlength =>
      simp only [hlength] at hn
      split
      · exact .refl h x s r
      · next hnone =>
        simp only [hnone] at hn
        let elements := [Int32.ofNat nrow, Int32.ofNat ncol]
        have hc := h.continues_alloc .integer (.integer elements.toArray) rfl
        exact persists_attach (h.newInteger elements) (hc.evolves.proper hp) hr
          (fun hx ↦ hx.alloc hp ((course_attach _ y _).numbered hn)) hn

theorem persists_setNames (hp : Proper h.arena) (hr : r.payload.length?.isSome = true)
    {names : List String} (hn : Numbered (h.setNames y names).2.arena) :
    h.Persists x s r (h.setNames y names).2 :=
  persists_attach (h.newString (names.map some))
    ((h.grows_newString (names.map some)).evolves.proper hp) hr
    (fun hx ↦ hx.newString hp ((course_attach _ y _).numbered hn)) hn

end Attribute

theorem persists_update (u : Update) (hp : Proper h.arena) (hn : Numbered (u.run h).2.arena)
    (hr : r.payload.length?.isSome = true)
    (hs : ∀ i ∈ s, Action.Stores h x i (.request (.update u)) → ∃ bytes, r.payload = .char bytes) :
    h.Persists x s r (u.run h).2 := by
  cases u with
  | intern bytes => exact persists_of_lasts fun hx ↦ hx.intern hp hn
  | internText text => exact persists_of_lasts fun hx ↦ hx.intern hp hn
  | install name => exact persists_of_lasts fun hx ↦ hx.install hp hn
  | newString values => exact persists_of_lasts fun hx ↦ hx.newString hp hn
  | newLogical _ | newRawLogical _ | newInteger _ | newReal _ | newList _ | newExpression _
  | cons _ _ | call _ _ | closure _ _ _ | environment _ | promise _ _ =>
    exact persists_alloc hp hn
  | setString y offset value =>
    exact (Persists.refl h x s r).setString fun hy hi hok ↦ hs offset hi ⟨hy, rfl, hok⟩
  | pairlist items => exact persists_pairlist hp hn
  | setField y f value => exact (Persists.refl h x s r).setField hr y f value
  | hashedEnvironment enclosing buckets => exact persists_hashedEnvironment hp hn
  | define y name value =>
    refine persists_define hp hr hn fun hy hbucket hok ↦ ?_
    obtain ⟨n, hlength, hi⟩ := hbucket
    exact hs _ hi ⟨hy, ⟨n, hlength, rfl⟩, hok⟩
  | force y value => exact (Persists.refl h x s r).force hr y value
  | primitive tag offset =>
    cases tag with
    | special | builtin => exact persists_alloc hp hn
    | _ => exact .refl h x s r
  | setAttributes y attributes => exact (Persists.refl h x s r).setAttributes y attributes
  | setAttribute y name value => exact persists_setAttribute hp hr hn
  | setDimensions y nrow ncol => exact persists_setDimensions hp hr hn
  | setNames y names => exact persists_setNames hp hr hn
  | unprotect n => exact persists_of_aside (h.aside_unprotect n)
  | unprotectHandle y => exact persists_of_aside (h.aside_unprotectHandle y)
  | release y => exact persists_of_aside (h.aside_release y)
  | collect => exact persists_of_lasts fun hx ↦ hx.collectWith hp
  | protect _ | preserve _ | setThreshold _ => exact persists_of_eq rfl

theorem persists_run (a : Action) (hp : Proper h.arena) (hn : Numbered (a.run h).2.arena)
    (hr : r.payload.length?.isSome = true)
    (hs : ∀ i ∈ s, a.Stores h x i → ∃ bytes, r.payload = .char bytes) :
    h.Persists x s r (a.run h).2 := by
  cases a with
  | request q =>
    cases q with
    | query q => exact persists_of_eq (Custody.preserved_query q h).2
    | update u => exact persists_update u hp hn hr hs
  | letGo y => exact persists_of_aside ((h.aside_release y).report _)
  | take _ | report _ | drain => exact persists_of_eq rfl

end Heap

namespace Heap

open Arena TaggedHeap.Action

variable {g h : Heap} {v x : Handle} {s : Set Nat} {i : Nat} {r : Record} {program : List Action}

def InUse (x : Handle) : Heap → List Action → Prop
  | _, [] => True
  | h, a :: program => (a.run h).2.isLive x = true ∧ InUse x (a.run h).2 program

def StoredAt (v : Handle) (i : Nat) : Heap → List Action → Prop
  | _, [] => False
  | h, a :: program => a.Stores h v i ∨ StoredAt v i (a.run h).2 program

/-- All that reads at the offsets of the vector depend on is as it was. -/
structure Upheld (h : Heap) (v : Handle) (s : Set Nat) (r : Record) (g : Heap) : Prop where
  shows : g.Shows v s r
  missingString : g.missingString = h.missingString
  spells : ∀ i ∈ s, ∀ y, r.payload.string? i = some y → ∀ bytes, h.Spells y bytes → g.Spells y bytes

theorem Upheld.trans {r' : Record} {k : Heap} (hg : Upheld h v s r g) (hk : Upheld g v s r' k)
    (hr : g.arena.get? v = some r') : Upheld h v s r k := by
  obtain ⟨q, hq, ht, hp⟩ := hg.shows
  obtain rfl := Option.some.inj (hr.symm.trans hq)
  obtain ⟨q', hq', ht', hp'⟩ := hk.shows
  refine ⟨⟨q', hq', ht'.trans ht, hp'.trans hp⟩, hk.missingString.trans hg.missingString,
    fun i hi y hy bytes hs ↦ ?_⟩
  exact hk.spells i hi y ((hp.string i hi).trans hy) bytes (hg.spells i hi y hy bytes hs)

/-- The texts of a vector stay in use with it, and nothing is stored into a text. -/
theorem upheld_run (a : Action) (ha : Arises h) (hn : Numbered (a.run h).2.arena)
    (hr : h.arena.get? v = some r) (hv : r.payload.length?.isSome = true)
    (hs : ∀ i ∈ s, ¬ a.Stores h v i) (hl : (a.run h).2.isLive v = true) :
    Upheld h v s r (a.run h).2 := by
  have hshows := persists_run a ha.proper hn hv (fun i hi hstores ↦ absurd hstores (hs i hi))
    (.inl hr) hl
  refine ⟨hshows, (a.keeps h).missingString, fun i hi y hy bytes ⟨q, hq, hchar⟩ ↦ ?_⟩
  obtain ⟨r', hr', -, hpay⟩ := hshows
  have hy := Payload.mem_texts_of_string? ((hpay.string i hi).trans hy)
  have htext : (a.run h).2.IsText y := (a.arises ha).lettered hn v r' hr' y hy
  have hq' : q.payload.length?.isSome = true := by rw [hchar]; rfl
  obtain ⟨q', hq', -, hpay'⟩ :=
    persists_run (s := s) a ha.proper hn hq' (fun _ _ _ ↦ ⟨bytes, hchar⟩) (.inl hq) htext.isLive
  rw [hchar] at hpay'
  exact ⟨q', hq', hpay'.eq_char⟩

theorem upheld_runAll (ha : Arises h) (hu : InUse v h program)
    (hs : ∀ i ∈ s, ¬ StoredAt v i h program) (hn : Numbered (runAll h program).arena)
    (hr : h.arena.get? v = some r) (hv : r.payload.length?.isSome = true) :
    Upheld h v s r (runAll h program) := by
  induction program generalizing h r with
  | nil => exact ⟨⟨r, hr, rfl, .refl s _⟩, rfl, fun _ _ _ _ _ ↦ id⟩
  | cons a program ih =>
    have hfirst : ∀ i ∈ s, ¬ a.Stores h v i := fun i hi ↦ (not_or.mp (hs i hi)).1
    have hrest : ∀ i ∈ s, ¬ StoredAt v i (a.run h).2 program := fun i hi ↦
      (not_or.mp (hs i hi)).2
    have hna : Numbered (a.run h).2.arena := (keeps_runAll program _).numbered hn
    have hstep := upheld_run a ha hna hr hv hfirst hu.1
    obtain ⟨r', hr', -, hpay⟩ := hstep.shows
    exact hstep.trans (ih (a.arises ha) hu.2 hrest hn hr' (hpay.length ▸ hv)) hr'

theorem Upheld.read (hu : Upheld h v s r g) (ha : Arises h) (hg : Arises g) (hn : Numbered h.arena)
    (hr : h.arena.get? v = some r) (hi : i ∈ s) (k : Getter) : k.read g v i = k.read h v i := by
  obtain ⟨r', hr', ht, hpay⟩ := hu.shows
  refine read_congr_on hi ha.proper hg.proper hr hr' ht hpay hu.missingString (fun y hy ↦ ?_) k
  obtain ⟨bytes, hs⟩ := ha.lettered hn v r hr y (Payload.mem_texts_of_string? hy)
  rw [(charBytes_eq_ok_iff ha.proper).mpr hs,
    (charBytes_eq_ok_iff hg.proper).mpr (hu.spells i hi y hy bytes hs)]

end Heap

end TaggedHeap
