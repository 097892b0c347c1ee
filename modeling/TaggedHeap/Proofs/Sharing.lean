import TaggedHeap.Proofs.Founding
import TaggedHeap.Proofs.Operands
import Mathlib.Data.Set.Function

namespace TaggedHeap.Heap

open Arena

variable {h : Heap} {x y : Handle} {bytes : List UInt8}

theorem Interned.release (hi : Interned h) (x : Handle) : Interned (h.release x) := by
  unfold Heap.release
  split <;> exact hi.of_eq rfl rfl rfl

theorem interned_create (ordinal threshold : Nat) : Interned (create ordinal threshold) := by
  obtain ⟨σ, ht⟩ := twin_create ordinal ordinal threshold threshold
  exact ht.left.interned

theorem Made.interned {allowed : Heap → Request → Prop} (hm : Made allowed h)
    (hn : Numbered h.arena) : Interned h := by
  induction hm with
  | create ordinal threshold => exact interned_create ordinal threshold
  | run r hm _ ih =>
    have hi := ih ((r.keeps _).numbered hn)
    cases r with
    | query q =>
      rcases q.run_cases _ with he | ⟨e, he⟩
      · exact he.symm ▸ hi
      · exact he.symm ▸ hi.of_eq rfl rfl rfl
    | update u =>
      by_cases hu : u.Ordinary
      · exact (u.course _ hu).interned hm.proper hn hi
      · cases u with
        | preserve _ => exact hi.of_eq rfl rfl rfl
        | release x => exact hi.release x
        | _ => exact absurd trivial hu
  | take _ _ ih => exact (ih hn).of_eq rfl rfl rfl
  | letGo x _ ih =>
    have hi := ih ((keeps_release _ x).numbered hn)
    exact (hi.release x).of_eq rfl rfl rfl
  | report _ _ ih => exact (ih hn).of_eq rfl rfl rfl
  | drain _ ih => exact (ih hn).of_eq rfl rfl rfl

theorem charBytes_eq_ok_iff (hp : Proper h.arena) :
    h.charBytes x = .ok bytes ↔ h.Spells x bytes := by
  by_cases hx : h.isLive x = true
  · obtain ⟨r, hr⟩ := get?_of_isLive hx
    rw [charBytes_of_get? hr (hp.wellFormed.get? hr), orRefuse_eq_ok_iff, Spells, hr]
    cases hb : r.payload with
    | char _ => simp [Payload.bytes?, hb]
    | _ => simp [Payload.bytes?, hb]
  · rw [charBytes_of_not_isLive hx]
    refine iff_of_false (fun he ↦ ?_) fun hs ↦ hx hs.isLive
    cases he

theorem tagOf_eq_char_iff (hp : Proper h.arena) :
    h.tagOf x = .ok .char ↔ ∃ bytes, h.Spells x bytes := by
  constructor
  · intro ht
    by_cases hx : h.isLive x = true
    · obtain ⟨r, hr⟩ := get?_of_isLive hx
      rw [tagOf_of_get? hr, Except.ok.injEq] at ht
      have hw := hp.wellFormed.get? hr
      rw [Record.WellFormed, ht] at hw
      cases hb : r.payload with
      | char bytes => exact ⟨bytes, r, hr, hb⟩
      | _ =>
        rw [hb] at hw
        cases hw
    · rw [tagOf_of_not_isLive hx] at ht
      cases ht
  · rintro ⟨bytes, r, hr, hb⟩
    have hw := hp.wellFormed.get? hr
    rw [Record.WellFormed, hb] at hw
    rw [tagOf_of_get? hr, eq_of_beq hw]

/-- The `char` records in use, without the one that stands for the missing string. -/
def texts (h : Heap) : Set Handle :=
  {x | h.tagOf x = .ok .char ∧ x ≠ h.missingString}

def cached (h : Heap) (bytes : List UInt8) : Option Handle :=
  h.chars.lookup bytes

def contents (h : Heap) : Set (List UInt8) :=
  {bytes | ∃ x, h.cached bytes = some x}

/-- What interning promises: the record of the content if there is one, and else a new record. -/
structure Obtains (h : Heap) (bytes : List UInt8) (p : Handle × Heap) : Prop where
  existing : ∀ x, h.charBytes x = .ok bytes → x ≠ h.missingString → p = (x, h)
  fresh : (∀ x, h.charBytes x = .ok bytes → x = h.missingString) →
    ¬ h.isLive p.1 = true ∧ p.2.record p.1 = .ok (.new .char h.nil (.char bytes))
  ne_missing : p.1 ≠ h.missingString
  charBytes : p.2.charBytes p.1 = .ok bytes

structure Shares (h : Heap) : Prop where
  nodup : (h.chars.map Prod.fst).Nodup
  bijOn : Set.BijOn h.cached h.contents (some '' h.texts)
  cached_iff : ∀ bytes x, h.cached bytes = some x ↔ x ∈ h.texts ∧ h.charBytes x = .ok bytes
  eq_of_charBytes : ∀ bytes x y, h.charBytes x = .ok bytes → h.charBytes y = .ok bytes →
    x = y ∨ x = h.missingString ∨ y = h.missingString
  intern : ∀ bytes, Numbered (h.intern bytes).2.arena → h.Obtains bytes (h.intern bytes)
  internText : ∀ text, Numbered (h.internText text).2.arena →
    h.Obtains (Text.Utf8.encode text) (h.internText text)

theorem Interned.cached_iff (hi : Interned h) (hp : Proper h.arena) :
    h.cached bytes = some x ↔ x ∈ h.texts ∧ h.charBytes x = .ok bytes := by
  constructor
  · intro hx
    have hx := mem_of_lookup hx
    have hs := hi.spells bytes x hx
    exact ⟨⟨(tagOf_eq_char_iff hp).mpr ⟨bytes, hs⟩, hi.ne_missing bytes x hx⟩,
      (charBytes_eq_ok_iff hp).mpr hs⟩
  · rintro ⟨⟨_, hne⟩, hb⟩
    exact lookup_of_mem hi.nodup (hi.known bytes x ((charBytes_eq_ok_iff hp).mp hb) hne)

theorem Interned.bijOn (hi : Interned h) (hp : Proper h.arena) :
    Set.BijOn h.cached h.contents (some '' h.texts) := by
  refine ⟨fun bytes hb ↦ ?_, fun bytes hb bytes' _ he ↦ ?_, ?_⟩
  · obtain ⟨x, hx⟩ := hb
    exact ⟨x, ((hi.cached_iff hp).mp hx).1, hx.symm⟩
  · obtain ⟨x, hx⟩ := hb
    have hb := ((hi.cached_iff hp).mp hx).2
    have hb' := ((hi.cached_iff hp).mp (he ▸ hx)).2
    exact Except.ok.inj (hb.symm.trans hb')
  · rintro _ ⟨x, hx, rfl⟩
    obtain ⟨bytes, hs⟩ := (tagOf_eq_char_iff hp).mp hx.1
    have hl := (hi.cached_iff hp).mpr ⟨hx, (charBytes_eq_ok_iff hp).mpr hs⟩
    exact ⟨bytes, ⟨x, hl⟩, hl⟩

/-- A new record has a handle that found nothing before, not even before the collection that may
have made room for it. -/
theorem not_isLive_alloc {tag : TypeTag} {payload : Payload} (hp : Proper h.arena)
    (hn : Numbered (h.alloc tag payload).2.arena) : ¬ h.isLive (h.alloc tag payload).1 = true := by
  intro hl
  have hs := not_isLive_settle_alloc hp hn
  have hd := mt (isLive_settle_iff hp hl).mpr hs
  obtain ⟨hd, hr⟩ := Classical.not_imp.mp hd
  exact (gone_alloc (gone_settle hp hl hd hr)).not_isLive (isLive_alloc_self hp hn)

theorem Interned.obtains (hi : Interned h) (hp : Proper h.arena) (bytes : List UInt8)
    (hn : Numbered (h.intern bytes).2.arena) : h.Obtains bytes (h.intern bytes) := by
  obtain ⟨hi', hx⟩ := hi.intern hp bytes hn
  have hc := h.continues_intern bytes
  have hp' := hc.evolves.proper hp
  have hm : (h.intern bytes).2.missingString = h.missingString :=
    congrArg (fun v ↦ v.2.1) hc.values
  have hne := hm ▸ hi'.ne_missing _ _ hx
  refine ⟨fun x hb hm ↦ ?_, fun hnone ↦ ?_, hne,
    (charBytes_eq_ok_iff hp').mpr (hi'.spells _ _ hx)⟩
  · have hs := (charBytes_eq_ok_iff hp).mp hb
    have hl := lookup_of_mem hi.nodup (hi.known bytes x hs hm)
    rw [Heap.intern, hl, Option.filter_some, if_pos hs.isLive]
  · have hl : h.chars.lookup bytes = none := by
      refine Option.eq_none_iff_forall_ne_some.mpr fun x hx ↦ ?_
      obtain ⟨hx, hb⟩ := (hi.cached_iff hp).mp hx
      exact hx.2 (hnone x hb)
    rw [Heap.intern, hl] at hn ⊢
    exact ⟨not_isLive_alloc hp hn, record_of_get? (h.get?_alloc hp hn)⟩

/-- However a heap has come about, its cache pairs contents with `char` records, and interning goes
by the records that there are. The slots must not outnumber the 32 bits of their numbers. -/
theorem Arises.shares (ha : Arises h) (hn : Numbered h.arena) : Shares h where
  nodup := (ha.interned hn).nodup
  bijOn := (ha.interned hn).bijOn ha.proper
  cached_iff _ _ := (ha.interned hn).cached_iff ha.proper
  eq_of_charBytes bytes x y hx hy := by
    by_contra! hne
    have hx := (charBytes_eq_ok_iff ha.proper).mp hx
    have hy := (charBytes_eq_ok_iff ha.proper).mp hy
    exact hne.1 ((ha.interned hn).eq_of_spells hx hy hne.2.1 hne.2.2)
  intern := (ha.interned hn).obtains ha.proper
  internText text := (ha.interned hn).obtains ha.proper (Text.Utf8.encode text)

/-- The text that the missing string is spelt with is interned as any other, again and again, while
every allocation starts with a collection. -/
theorem shares_missingText :
    let p := (create 0 1).internText missingText
    let q := p.2.internText missingText
    Arises p.2 ∧ Numbered p.2.arena ∧ Shares p.2 ∧ q = p ∧ p.1 ≠ p.2.missingString := by
  intro p q
  have ha : Arises p.2 := .run (.update (.internText missingText)) (.create 0 1) trivial
  have hn : Numbered p.2.arena := Nat.le_of_ble_eq_true rfl
  have hs := Arises.shares ha hn
  have hb : p.2.charBytes p.1 = .ok (Text.Utf8.encode missingText) := by rfl
  have hne : p.1 ≠ p.2.missingString := by decide
  have hq : q = p := (hs.internText missingText (Nat.le_of_ble_eq_true rfl)).existing p.1 hb hne
  exact ⟨ha, hn, hs, hq, hne⟩

end TaggedHeap.Heap
