import TaggedHeap.Proofs.Coherence

namespace TaggedHeap

namespace Arena

variable {a : Arena} {x : Handle} {r : Record} {roots : List Handle}

theorem get?_of_get?_collect (ha : Unmarked a) (hx : (a.mark roots).2.sweep.2.get? x = some r) :
    a.get? x = some r := by
  have hreach := (contains_collect_iff ha).mp (contains_of_get? hx)
  rwa [get?_collect_of_reach ha hreach] at hx

end Arena

namespace Heap

open Arena

variable {a b c h g : Heap} {x y : Handle} {j k n : Nat} {bytes : List UInt8}

section Interned

def Spells (h : Heap) (x : Handle) (bytes : List UInt8) : Prop :=
  ∃ r, h.arena.get? x = some r ∧ r.payload = .char bytes

theorem Spells.isLive (hx : h.Spells x bytes) : h.isLive x = true := by
  obtain ⟨r, hr, _⟩ := hx
  exact contains_of_get? hr

/-- The cache knows the `char` records in use but for that of the missing string, and no others. -/
structure Interned (h : Heap) : Prop where
  nodup : (h.chars.map Prod.fst).Nodup
  spells : ∀ bytes x, (bytes, x) ∈ h.chars → h.Spells x bytes
  ne_missing : ∀ bytes x, (bytes, x) ∈ h.chars → x ≠ h.missingString
  known : ∀ bytes x, h.Spells x bytes → x ≠ h.missingString → (bytes, x) ∈ h.chars
  missing : h.isLive h.missingString = true

theorem Interned.of_eq (hi : Interned a) (ha : b.arena = a.arena) (hc : b.chars = a.chars)
    (hm : b.missingString = a.missingString) : Interned b := by
  have hs (x : Handle) (bytes : List UInt8) : b.Spells x bytes ↔ a.Spells x bytes := by
    unfold Spells
    rw [ha]
  refine ⟨hc ▸ hi.nodup, fun bytes x hx ↦ (hs x bytes).mpr (hi.spells bytes x (hc ▸ hx)),
    fun bytes x hx ↦ hm ▸ hi.ne_missing bytes x (hc ▸ hx), fun bytes x hx hne ↦ ?_, ?_⟩
  · exact hc ▸ hi.known bytes x ((hs x bytes).mp hx) (hm ▸ hne)
  · rw [isLive, ha, hm]
    exact hi.missing

/-- Two `char` records in use have different content, if neither stands for the missing string. -/
theorem Interned.eq_of_spells (hi : Interned h) (hx : h.Spells x bytes) (hy : h.Spells y bytes)
    (hxm : x ≠ h.missingString) (hym : y ≠ h.missingString) : x = y := by
  have hx := hi.known bytes x hx hxm
  have hy := hi.known bytes y hy hym
  exact congrArg Prod.snd (List.inj_on_of_nodup_map hi.nodup hx hy rfl)

theorem Interned.collectWith (hi : Interned h) (hp : Proper h.arena) (pending : List Handle) :
    Interned (h.collectWith pending).2 := by
  have hget {x : Handle} {r : Record} (hx : (h.collectWith pending).2.arena.get? x = some r) :
      h.arena.get? x = some r := get?_of_get?_collect hp.unmarked hx
  have hmem {bytes : List UInt8} {x : Handle} : (bytes, x) ∈ (h.collectWith pending).2.chars ↔
      (bytes, x) ∈ h.chars ∧ (h.collectWith pending).2.isLive x = true := List.mem_filter
  refine ⟨hi.nodup.sublist (List.filter_sublist.map _), fun bytes x hx ↦ ?_,
    fun bytes x hx ↦ hi.ne_missing bytes x (hmem.mp hx).1, fun bytes x hx hne ↦ ?_, ?_⟩
  · obtain ⟨hx, hl⟩ := hmem.mp hx
    obtain ⟨q, hq⟩ := contains_iff.mp hl
    obtain ⟨r, hr, hpay⟩ := hi.spells bytes x hx
    rw [hget hq, Option.some_inj] at hr
    exact ⟨q, hq, hr ▸ hpay⟩
  · obtain ⟨r, hr, hpay⟩ := hx
    exact hmem.mpr ⟨hi.known bytes x ⟨r, hget hr, hpay⟩ hne, contains_of_get? hr⟩
  · exact contains_collect_of_mem (mem_rootHandles.mpr (.inr (.inl rfl))) hi.missing

theorem Interned.settle (hi : Interned h) (hp : Proper h.arena) (pending : List Handle) :
    Interned (h.settle pending) := by
  unfold Heap.settle
  split
  · exact hi.collectWith hp pending
  · exact hi

theorem lookup_of_mem {α β : Type} [BEq α] [LawfulBEq α] {l : List (α × β)} {key : α} {value : β}
    (hl : (l.map Prod.fst).Nodup) (hx : (key, value) ∈ l) : l.lookup key = some value := by
  obtain ⟨l₁, l₂, rfl⟩ := List.append_of_mem hx
  refine List.lookup_eq_some_iff.mpr ⟨l₁, l₂, rfl, fun entry he ↦ bne_iff_ne.mpr ?_⟩
  rintro rfl
  rw [List.map_append, List.nodup_append] at hl
  exact hl.2.2 _ (List.mem_map.mpr ⟨_, he, rfl⟩) _ List.mem_cons_self rfl

theorem mem_of_lookup {α β : Type} [BEq α] [LawfulBEq α] {l : List (α × β)} {key : α} {value : β}
    (hx : l.lookup key = some value) : (key, value) ∈ l := by
  obtain ⟨l₁, l₂, rfl, _⟩ := List.lookup_eq_some_iff.mp hx
  exact List.mem_append_right _ List.mem_cons_self

variable {tag : TypeTag} {payload : Payload}

theorem chars_alloc (h : Heap) (tag : TypeTag) (payload : Payload) :
    (h.alloc tag payload).2.chars = (h.settle payload.children).chars := by
  rw [alloc_eq]

theorem missingString_alloc (h : Heap) (tag : TypeTag) (payload : Payload) :
    (h.alloc tag payload).2.missingString = (h.settle payload.children).missingString := by
  rw [alloc_eq]

theorem isLive_alloc_of_settle (hx : (h.settle payload.children).isLive x = true) :
    (h.alloc tag payload).2.isLive x = true := by
  rw [alloc_eq]
  exact contains_insert _ hx

theorem not_isLive_settle_alloc (hp : Proper h.arena)
    (hn : Numbered (h.alloc tag payload).2.arena) :
    ¬ (h.settle payload.children).isLive (h.alloc tag payload).1 = true := by
  rw [alloc_eq] at hn ⊢
  have hs := Evolves.proper (h.evolves_settle payload.children) hp
  have hnone := (hs.accounted ((size_slots_insert _ _).1.trans hn)).get?_fst_insert _ hn
  rw [isLive, contains, hnone]
  exact Bool.false_ne_true

theorem ne_alloc_of_isLive (hp : Proper h.arena) (hn : Numbered (h.alloc tag payload).2.arena)
    (hx : (h.settle payload.children).isLive x = true) : x ≠ (h.alloc tag payload).1 := by
  rintro rfl
  exact not_isLive_settle_alloc hp hn hx

theorem spells_alloc_iff (hp : Proper h.arena) (hn : Numbered (h.alloc tag payload).2.arena) :
    (h.alloc tag payload).2.Spells x bytes ↔
      (x = (h.alloc tag payload).1 ∧ payload = .char bytes) ∨
        (h.settle payload.children).Spells x bytes := by
  by_cases hx : x = (h.alloc tag payload).1
  · have hs : ¬ (h.settle payload.children).Spells x bytes := fun hx' ↦
      ne_alloc_of_isLive hp hn hx'.isLive hx
    rw [or_iff_left hs, Spells, hx, h.get?_alloc hp hn]
    simp [Record.new]
  · unfold Spells
    rw [get?_alloc_of_ne hx]
    exact (or_iff_right fun he ↦ hx he.1).symm

theorem Interned.alloc (hi : Interned h) (hp : Proper h.arena)
    (hn : Numbered (h.alloc tag payload).2.arena) (hc : ∀ bytes, payload ≠ .char bytes) :
    Interned (h.alloc tag payload).2 := by
  have hs := hi.settle hp payload.children
  have hspells (x : Handle) (bytes : List UInt8) : (h.alloc tag payload).2.Spells x bytes ↔
      (h.settle payload.children).Spells x bytes :=
    (spells_alloc_iff hp hn).trans (or_iff_right fun he ↦ hc bytes he.2)
  have hchars := h.chars_alloc tag payload
  have hmissing := h.missingString_alloc tag payload
  refine ⟨hchars ▸ hs.nodup,
    fun bytes x hx ↦ (hspells x bytes).mpr (hs.spells bytes x (hchars ▸ hx)),
    fun bytes x hx ↦ hmissing ▸ hs.ne_missing bytes x (hchars ▸ hx),
    fun bytes x hx hne ↦ hchars ▸ hs.known bytes x ((hspells x bytes).mp hx) (hmissing ▸ hne), ?_⟩
  exact hmissing ▸ isLive_alloc_of_settle hs.missing

theorem mem_chars_of_settle {pending : List Handle} {entry : List UInt8 × Handle}
    (he : entry ∈ (h.settle pending).chars) : entry ∈ h.chars := by
  unfold settle at he
  split at he
  · exact List.mem_of_mem_filter he
  · exact he

theorem Interned.add (hg : Interned g) (bytes : List UInt8) (x : Handle)
    (hm : h.missingString = g.missingString)
    (hl : h.isLive g.missingString = true) (hx : x ≠ g.missingString)
    (hs : ∀ b y, h.Spells y b ↔ (y = x ∧ bytes = b) ∨ g.Spells y b)
    (hc : h.chars = (bytes, x) :: g.chars.filter fun entry ↦ entry.1 ≠ bytes)
    (hfresh : ∀ y, (bytes, y) ∉ g.chars) : Interned h := by
  have hmem {b : List UInt8} {y : Handle} :
      (b, y) ∈ h.chars ↔ (b = bytes ∧ y = x) ∨ (b, y) ∈ g.chars ∧ b ≠ bytes := by
    rw [hc, List.mem_cons, List.mem_filter, decide_eq_true_iff, Prod.mk.injEq]
  refine ⟨?_, fun b y hy ↦ ?_, fun b y hy ↦ ?_, fun b y hy hne ↦ ?_, hm ▸ hl⟩
  · rw [hc, List.map_cons, List.nodup_cons]
    refine ⟨fun hx ↦ ?_, hg.nodup.sublist (List.filter_sublist.map _)⟩
    obtain ⟨entry, he, hb⟩ := List.mem_map.mp hx
    exact of_decide_eq_true (List.mem_filter.mp he).2 hb
  · rcases hmem.mp hy with ⟨rfl, rfl⟩ | ⟨hy, _⟩
    · exact (hs _ _).mpr (.inl ⟨rfl, rfl⟩)
    · exact (hs _ _).mpr (.inr (hg.spells b y hy))
  · rw [hm]
    rcases hmem.mp hy with ⟨rfl, rfl⟩ | ⟨hy, _⟩
    · exact hx
    · exact hg.ne_missing b y hy
  · rcases (hs b y).mp hy with ⟨rfl, rfl⟩ | hy
    · exact hmem.mpr (.inl ⟨rfl, rfl⟩)
    · have hy := hg.known b y hy (hm ▸ hne)
      exact hmem.mpr (.inr ⟨hy, fun he ↦ hfresh y (he ▸ hy)⟩)

theorem Interned.intern (hi : Interned h) (hp : Proper h.arena) (bytes : List UInt8)
    (hn : Numbered (h.intern bytes).2.arena) :
    Interned (h.intern bytes).2 ∧ (bytes, (h.intern bytes).1) ∈ (h.intern bytes).2.chars := by
  unfold Heap.intern at hn ⊢
  split
  · next x hx => exact ⟨hi, mem_of_lookup (Option.filter_eq_some_iff.mp hx).1⟩
  · next hlookup =>
    rw [hlookup] at hn
    let p := h.alloc .char (.char bytes)
    have hn : Numbered p.2.arena := hn
    have hs := hi.settle hp []
    have hm : p.2.missingString = (h.settle []).missingString := missingString_alloc ..
    refine ⟨hs.add bytes p.1 hm ?_ (ne_alloc_of_isLive hp hn hs.missing).symm (fun b y ↦ ?_) ?_ ?_,
      List.mem_cons_self⟩
    · exact isLive_alloc_of_settle hs.missing
    · exact (spells_alloc_iff hp hn).trans (by rw [Payload.char.injEq]; rfl)
    · exact congrArg _ (congrArg _ (h.chars_alloc .char (.char bytes)))
    · intro y hy
      have hy := mem_chars_of_settle hy
      rw [lookup_of_mem hi.nodup hy, Option.filter_eq_none_iff] at hlookup
      exact hlookup y rfl (hi.spells bytes y hy).isLive

end Interned

end Heap

end TaggedHeap
