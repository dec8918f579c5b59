import Heapstore.HeapPage
import Mathlib.Algebra.BigOperators.Group.List

namespace Heapstore

namespace Page

/-- `(slot_id, offset, length)` of slot `t` when its entry reads as valid. -/
def liveEntry (p : Page) (t : Nat) : Option (Nat × Nat × Nat) :=
  if (p.slot t).inUse = slotInUseValid then some (t, (p.slot t).offset, (p.slot t).length)
  else none

/-- The live slots in slot order, as `compact` and `iter_used_slots` collect them. -/
def liveEntries (p : Page) : List (Nat × Nat × Nat) :=
  (List.range p.getNumSlots).filterMap p.liveEntry

/-- The bytes the live records take, as `get_free_space` counts them. -/
def liveBytes (p : Page) : Nat := (p.liveEntries.map fun e => e.2.2).sum

/-- The number of live slots among the first `num_slots` entries. -/
def liveCount (p : Page) : Nat := p.liveEntries.length

theorem mem_liveEntries {p : Page} {e : Nat × Nat × Nat} :
    e ∈ p.liveEntries ↔ e.1 < p.getNumSlots ∧ (p.slot e.1).inUse = slotInUseValid ∧
      e.2.1 = (p.slot e.1).offset ∧ e.2.2 = (p.slot e.1).length := by
  simp only [liveEntries, liveEntry, List.mem_filterMap, List.mem_range]
  constructor
  · rintro ⟨t, ht, h⟩
    split at h
    · cases h
      exact ⟨ht, ‹_›, rfl, rfl⟩
    · cases h
  · rintro ⟨ht, hv, h1, h2⟩
    exact ⟨e.1, ht, by rw [if_pos hv, ← h1, ← h2]⟩

theorem liveEntries_nodup_fst (p : Page) : (p.liveEntries.map Prod.fst).Nodup := by
  rw [liveEntries, List.map_filterMap]
  refine (List.nodup_range _).filterMap fun a a' b ha ha' => ?_
  simp only [liveEntry, Option.mem_def] at ha ha'
  split at ha <;> split at ha' <;> simp_all

theorem liveEntries_map_fst_congr {p q : Page} (hn : q.getNumSlots = p.getNumSlots)
    (hflags : ∀ t < p.getNumSlots, (q.slot t).inUse = (p.slot t).inUse) :
    q.liveEntries.map Prod.fst = p.liveEntries.map Prod.fst := by
  simp only [liveEntries, List.map_filterMap, hn]
  refine List.filterMap_congr fun t ht => ?_
  by_cases hv : (p.slot t).inUse = slotInUseValid <;>
    simp [liveEntry, hflags t (List.mem_range.mp ht), hv]

theorem liveBytes_congr {p q : Page} (hn : q.getNumSlots = p.getNumSlots)
    (hflags : ∀ t < p.getNumSlots, (q.slot t).inUse = (p.slot t).inUse)
    (hlen : ∀ t < p.getNumSlots, (p.slot t).inUse = slotInUseValid →
      (q.slot t).length = (p.slot t).length) :
    q.liveBytes = p.liveBytes := by
  simp only [liveBytes, liveEntries, List.map_filterMap, hn]
  refine congrArg List.sum (List.filterMap_congr fun t ht => ?_)
  have ht := List.mem_range.mp ht
  unfold liveEntry
  rw [hflags t ht]
  by_cases hv : (p.slot t).inUse = slotInUseValid
  · rw [if_pos hv, if_pos hv, Option.map_some', Option.map_some', hlen t ht hv]
  · rw [if_neg hv, if_neg hv]

theorem sum_filterMap_range_drop {f g : Nat → Option Nat} {s a : Nat} (hf : f s = some a)
    (hg : g s = none) (hother : ∀ t, t ≠ s → g t = f t) :
    ∀ n, s < n → ((List.range n).filterMap g).sum + a = ((List.range n).filterMap f).sum
  | 0, h => absurd h (Nat.not_lt_zero s)
  | n + 1, h => by
    simp only [List.range_succ, List.filterMap_append, List.sum_append]
    rcases Nat.lt_succ_iff_lt_or_eq.mp h with h | rfl
    · have e : List.filterMap g [n] = List.filterMap f [n] :=
        List.filterMap_congr fun t ht => hother t (by rw [List.mem_singleton.mp ht]; omega)
      rw [e, ← sum_filterMap_range_drop hf hg hother n h]
      omega
    · have e : (List.range s).filterMap g = (List.range s).filterMap f :=
        List.filterMap_congr fun t ht => hother t (List.mem_range.mp ht).ne
      simp [e, hf, hg]

theorem liveBytes_free {p q : Page} {s : Nat} (hn : q.getNumSlots = p.getNumSlots)
    (hs : s < p.getNumSlots) (hv : (p.slot s).inUse = slotInUseValid)
    (hfree : (q.slot s).inUse ≠ slotInUseValid) (hother : ∀ t, t ≠ s → q.slot t = p.slot t) :
    q.liveBytes + (p.slot s).length = p.liveBytes := by
  simp only [liveBytes, liveEntries, List.map_filterMap, hn]
  exact sum_filterMap_range_drop (by simp [liveEntry, hv]) (by simp [liveEntry, hfree])
    (fun t ht => by simp only [liveEntry, hother t ht]) _ hs

theorem liveCount_le (p : Page) : p.liveCount ≤ p.getNumSlots := by
  simpa [liveCount, liveEntries] using List.length_filterMap_le p.liveEntry (List.range _)

theorem liveCount_eq_getNumSlots {p : Page}
    (h : ∀ t < p.getNumSlots, (p.slot t).inUse = slotInUseValid) : p.liveCount = p.getNumSlots := by
  rw [liveCount, liveEntries, List.length_filterMap_eq_countP, List.countP_eq_length.mpr,
    List.length_range]
  intro t ht
  simp [liveEntry, h t (List.mem_range.mp ht)]

/-- Every entry's `in_use` byte lies inside the page, so no read of the directory panics. -/
def DirectoryReadable (p : Page) : Prop := ∀ t < p.getNumSlots, 8 + 6 * t + 4 < pageSize

theorem directoryReadable_iff (p : Page) : p.DirectoryReadable ↔ p.getNumSlots ≤ 681 := by
  unfold DirectoryReadable pageSize
  constructor
  · intro h
    by_contra hn
    have := h 681 (by omega)
    omega
  · intro h t ht
    omega

theorem directoryReadable_of_header {p : Page} (h : p.getHeaderSize ≤ pageSize) :
    p.DirectoryReadable := by
  rw [getHeaderSize_eq] at h
  intro t ht
  omega

theorem getHeaderSize_le_getFreeStart {p : Page} (hr : p.DirectoryReadable) :
    p.getHeaderSize ≤ p.getFreeStart := by
  have := (directoryReadable_iff p).mp hr
  rw [getFreeStart_eq, getHeaderSize_eq]
  unfold pageSize
  omega

/-- What `find_lowest_free_slot_id` returns on a readable directory. -/
def lowestFreeSlotId (p : Page) : Nat :=
  ((List.range p.getNumSlots).find? fun t => (p.slot t).inUse == slotInUseFree).getD p.getNumSlots

theorem lowestFreeSlotId_spec (p : Page) :
    (p.getNumSlots ≤ p.lowestFreeSlotId ∨ (p.slot p.lowestFreeSlotId).inUse = slotInUseFree) ∧
      ∀ i < p.lowestFreeSlotId, i < p.getNumSlots ∧ (p.slot i).inUse ≠ slotInUseFree := by
  unfold lowestFreeSlotId
  cases h : (List.range p.getNumSlots).find? fun t => (p.slot t).inUse == slotInUseFree with
  | none =>
    rw [List.find?_range_eq_none] at h
    exact ⟨.inl le_rfl, fun i hi => ⟨hi, by simpa using h i hi⟩⟩
  | some s =>
    rw [Option.getD_some]
    obtain ⟨hs, hsn, hlt⟩ := List.find?_range_eq_some.mp h
    have := List.mem_range.mp hsn
    exact ⟨.inr (by simpa using hs), fun i hi => ⟨by omega, by simpa using hlt i hi⟩⟩

theorem lowestFreeSlotId_le (p : Page) : p.lowestFreeSlotId ≤ p.getNumSlots := by
  by_contra h
  exact absurd rfl ((lowestFreeSlotId_spec p).2 _ (Nat.lt_of_not_le h)).1.ne

theorem lowestFreeSlotId_congr {p q : Page} (hn : q.getNumSlots = p.getNumSlots)
    (hflags : ∀ t < p.getNumSlots, (q.slot t).inUse = (p.slot t).inUse) :
    q.lowestFreeSlotId = p.lowestFreeSlotId := by
  have hq := lowestFreeSlotId_spec q
  have hp := lowestFreeSlotId_spec p
  have hq' := lowestFreeSlotId_le q
  have hp' := lowestFreeSlotId_le p
  rw [hn] at hq hq'
  rcases Nat.lt_trichotomy q.lowestFreeSlotId p.lowestFreeSlotId with h | h | h
  · obtain ⟨hlt, hnf⟩ := hp.2 _ h
    rcases hq.1 with h1 | h1
    · omega
    · exact absurd (by rw [← hflags _ hlt]; exact h1) hnf
  · exact h
  · obtain ⟨hlt, hnf⟩ := hq.2 _ h
    rcases hp.1 with h1 | h1
    · omega
    · exact absurd (by rw [hflags _ hlt]; exact h1) hnf

section Readable

variable {p : Page} (hr : p.DirectoryReadable)
include hr

theorem getSlotInUse_eq (t : Nat) :
    p.getSlotInUse t = .ok (if t < p.getNumSlots then some (p.slot t).inUse else none) := by
  split
  · exact getSlotInUse_of_lt ‹_› (hr t ‹_›)
  · exact getSlotInUse_of_le (by omega)

theorem getSlotOffsetLength_eq (t : Nat) : p.getSlotOffsetLength t =
    .ok (if t < p.getNumSlots then some ((p.slot t).offset, (p.slot t).length) else none) := by
  split
  · exact getSlotOffsetLength_of_lt ‹_› (by have := hr t ‹_›; omega)
  · exact getSlotOffsetLength_of_le (by omega)

theorem findFree_eq (ids : List Nat) (hids : ∀ t ∈ ids, t < p.getNumSlots) :
    p.findFree p.getNumSlots ids =
      .ok ((ids.find? fun t => (p.slot t).inUse == slotInUseFree).getD p.getNumSlots) := by
  induction ids with
  | nil => rfl
  | cons t ids ih =>
    have ht := hids t (by simp)
    rw [findFree, getSlotInUse_eq hr, if_pos ht, ok_bind, List.find?_cons]
    by_cases hf : (p.slot t).inUse = slotInUseFree
    · simp only [hf, beq_self_eq_true, Option.map_some', Option.getD_some, if_true]
      rfl
    · simp only [beq_false_of_ne hf, Option.map_some', Option.getD_some, Bool.false_eq_true,
        if_false]
      exact ih fun t h => hids t (by simp [h])

theorem findLowestFreeSlotId_eq : p.findLowestFreeSlotId = .ok p.lowestFreeSlotId :=
  findFree_eq hr _ fun _ => List.mem_range.mp

theorem usedFrom_eq (ids : List Nat) (hids : ∀ t ∈ ids, t < p.getNumSlots) :
    p.usedFrom ids = .ok (ids.filterMap p.liveEntry) := by
  induction ids with
  | nil => rfl
  | cons t ids ih =>
    have ht := hids t (by simp)
    simp only [usedFrom, getSlotInUse_eq hr, getSlotOffsetLength_eq hr, if_pos ht, ok_bind,
      ih fun t h => hids t (by simp [h]), Option.map_some', Option.getD_some, List.filterMap_cons,
      liveEntry, beq_iff_eq]
    split <;> rfl

theorem usedSlots_eq : p.usedSlots = .ok p.liveEntries :=
  usedFrom_eq hr _ fun _ => List.mem_range.mp

theorem getFreeSpace_eq : p.getFreeSpace = .ok (pageSize - p.getHeaderSize - p.liveBytes) := by
  simp only [getFreeSpace, iterUsedSlots, usedSlots_eq hr, liveBytes, Except.map, ok_bind,
    List.map_map]
  rfl

theorem getValue_eq (t : Nat) : p.getValue t =
    .ok (if t < p.getNumSlots ∧ (p.slot t).inUse = slotInUseValid ∧
        (p.slot t).offset + (p.slot t).length ≤ pageSize
      then some (p.slice (p.slot t).offset (p.slot t).length) else none) := by
  unfold getValue
  rw [getSlotInUse_eq hr, getSlotOffsetLength_eq hr]
  by_cases ht : t < p.getNumSlots
  · simp only [if_pos ht, ok_bind]
    by_cases hv : (p.slot t).inUse = slotInUseValid
    · rw [if_neg (not_not.mpr hv)]
      by_cases hl : (p.slot t).offset + (p.slot t).length ≤ pageSize
      · rw [if_neg (Nat.not_lt.mpr hl), if_pos ⟨ht, hv, hl⟩]
        rfl
      · rw [if_pos (Nat.lt_of_not_le hl), if_neg fun h => hl h.2.2]
        rfl
    · rw [if_pos hv, if_neg fun h => hv h.2.1]
      rfl
  · rw [if_neg ht, if_neg ht, if_neg fun h => ht h.1]
    rfl

end Readable

theorem getValue_congr_at {p q : Page} (hp : p.DirectoryReadable) (hq : q.DirectoryReadable)
    {t : Nat} (hlive : t < q.getNumSlots ∧ (q.slot t).inUse = slotInUseValid ↔
      t < p.getNumSlots ∧ (p.slot t).inUse = slotInUseValid)
    (hrec : t < p.getNumSlots → (p.slot t).inUse = slotInUseValid →
      (q.slot t).length = (p.slot t).length ∧ (q.slot t).offset + (q.slot t).length ≤ pageSize ∧
      (p.slot t).offset + (p.slot t).length ≤ pageSize ∧
      q.slice (q.slot t).offset (p.slot t).length = p.slice (p.slot t).offset (p.slot t).length) :
    q.getValue t = p.getValue t := by
  rw [getValue_eq hq, getValue_eq hp]
  by_cases hv : t < p.getNumSlots ∧ (p.slot t).inUse = slotInUseValid
  · obtain ⟨hl, hqf, hpf, hs⟩ := hrec hv.1 hv.2
    rw [if_pos ⟨(hlive.mpr hv).1, (hlive.mpr hv).2, hqf⟩, if_pos ⟨hv.1, hv.2, hpf⟩, hl, hs]
  · rw [if_neg fun h => hv (hlive.mp ⟨h.1, h.2.1⟩), if_neg fun h => hv ⟨h.1, h.2.1⟩]

theorem getValue_congr {p q : Page} (hp : p.DirectoryReadable) (hq : q.DirectoryReadable)
    (hn : q.getNumSlots = p.getNumSlots)
    (hflags : ∀ t < p.getNumSlots, (q.slot t).inUse = (p.slot t).inUse)
    (hlive : ∀ t < p.getNumSlots, (p.slot t).inUse = slotInUseValid →
      (q.slot t).length = (p.slot t).length ∧ (q.slot t).offset + (q.slot t).length ≤ pageSize ∧
      (p.slot t).offset + (p.slot t).length ≤ pageSize ∧
      q.slice (q.slot t).offset (p.slot t).length = p.slice (p.slot t).offset (p.slot t).length)
    (t : Nat) : q.getValue t = p.getValue t :=
  getValue_congr_at hp hq (by rw [hn]; exact and_congr_right fun ht => by rw [hflags t ht]) (hlive t)

theorem readable_of_getSlotInUse {p : Page} {t : Nat} {u : Option UInt8}
    (h : p.getSlotInUse t = .ok u) (ht : t < p.getNumSlots) : 8 + 6 * t + 4 < pageSize := by
  by_contra hc
  rw [getSlotInUse_of_past ht (by omega)] at h
  cases h

theorem readable_of_usedFrom {p : Page} {ids : List Nat} {l : List (Nat × Nat × Nat)}
    (h : p.usedFrom ids = .ok l) : ∀ t ∈ ids, t < p.getNumSlots → 8 + 6 * t + 4 < pageSize := by
  induction ids generalizing l with
  | nil => simp
  | cons t ids ih =>
    rw [usedFrom, bind_eq_ok] at h
    obtain ⟨u, hu, h⟩ := h
    have hrest : ∃ l', p.usedFrom ids = .ok l' := by
      split at h <;> obtain ⟨_, _, h⟩ := bind_eq_ok.mp h <;> obtain ⟨l', hl', _⟩ := bind_eq_ok.mp h <;>
        exact ⟨l', hl'⟩
    obtain ⟨l', hl'⟩ := hrest
    intro x hx hxn
    rcases List.mem_cons.mp hx with rfl | hx
    · exact readable_of_getSlotInUse hu hxn
    · exact ih hl' x hx hxn

theorem getFreeSpace_eq_ok {p : Page} {f : Nat} (h : p.getFreeSpace = .ok f) :
    p.DirectoryReadable ∧ f = pageSize - p.getHeaderSize - p.liveBytes := by
  obtain ⟨_, hu, _⟩ := bind_eq_ok.mp h
  obtain ⟨l, hl, -⟩ : ∃ l, p.usedSlots = .ok l ∧ True := by
    revert hu
    cases hs : p.usedSlots <;> simp [iterUsedSlots, hs, Except.map]
  have hr : p.DirectoryReadable := fun t ht =>
    readable_of_usedFrom hl t (List.mem_range.mpr ht) ht
  exact ⟨hr, by simpa [getFreeSpace_eq hr] using h.symm⟩

end Page

end Heapstore
