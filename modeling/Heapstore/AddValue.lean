import Heapstore.Compact
import Heapstore.Shift

namespace Heapstore

namespace Page

/-- The directory growth of `add_value` keeps every flag and moves the free start by at most 6. -/
theorem grow_spec {p p' : Page} {n : Nat} {need : Prop} [Decidable need]
    (hr : p.DirectoryReadable) (hn : p.getNumSlots = n)
    (hroom : need → p.getHeaderSize + 6 ≤ pageSize)
    (h : (if need then do
        let q ← (if 0 < n then p.shiftBodyForNewSlot else pure p)
        pure (q.setNumSlots (n + 1))
      else pure p) = .ok p') :
    p'.getNumSlots = (if need then n + 1 else n) ∧
      (∀ t < n, (p'.slot t).inUse = (p.slot t).inUse) ∧
      p'.getHeaderSize ≤ p'.getFreeStart ∧
      p'.getFreeStart ≤ p.getFreeStart + (if need then bytesPerSlotMeta else 0) := by
  have hH := getHeaderSize_le_getFreeStart hr
  have h681 := (directoryReadable_iff p).mp hr
  have hfs := getFreeStart_eq p
  have hHe := getHeaderSize_eq p
  subst hn
  by_cases hneed : need
  · simp only [hneed, if_true, bytesPerSlotMeta] at h ⊢
    have hroom := hroom hneed
    obtain ⟨q, hq, h⟩ := bind_eq_ok.mp h
    cases h
    have hnum : (q.setNumSlots (p.getNumSlots + 1)).getNumSlots = p.getNumSlots + 1 := by
      rw [getNumSlots_setNumSlots, Nat.mod_eq_of_lt (by omega)]
    -- the shift, when it runs, keeps every flag and moves the free start up by at most 6
    obtain ⟨hflags, hqf⟩ : (∀ t < p.getNumSlots, (q.slot t).inUse = (p.slot t).inUse) ∧
        min (max q.storedFreeStart (p.getHeaderSize + 6)) pageSize ≤ p.getFreeStart + 6 := by
      split at hq
      · obtain ⟨q', hq', -, hqf, hslot, -, -⟩ := shiftBodyForNewSlot_spec hr hroom
        rw [hq'] at hq
        cases hq
        refine ⟨fun t ht => ?_, by rw [hqf]; omega⟩
        rw [hslot t ht]
        split
        · next hv => exact hv.symm
        · rfl
      · cases hq
        exact ⟨fun _ _ => rfl, by omega⟩
    refine ⟨hnum, fun t ht => by rw [slot_setNumSlots]; exact hflags t ht, ?_⟩
    rw [getFreeStart_eq (q.setNumSlots _), getHeaderSize_eq (q.setNumSlots _), hnum,
      storedFreeStart_setNumSlots]
    omega
  · simp only [hneed, if_false] at h ⊢
    cases h
    exact ⟨rfl, fun _ _ => rfl, hH, by omega⟩

theorem grow_ok {p : Page} {n : Nat} {need : Prop} [Decidable need] (hr : p.DirectoryReadable)
    (hroom : need → p.getHeaderSize + 6 ≤ pageSize) :
    ∃ p', (if need then do
        let q ← (if 0 < n then p.shiftBodyForNewSlot else pure p)
        pure (q.setNumSlots (n + 1))
      else pure p) = .ok p' := by
  by_cases hneed : need
  · rw [if_pos hneed]
    by_cases hn0 : 0 < n
    · obtain ⟨q, hq, -⟩ := shiftBodyForNewSlot_spec hr (hroom hneed)
      rw [if_pos hn0, hq]
      exact ⟨_, rfl⟩
    · rw [if_neg hn0]
      exact ⟨_, rfl⟩
  · rw [if_neg hneed]
    exact ⟨_, rfl⟩

/-- Everything `add_value` can do without a panic; its late `PAGE_SIZE` refusal is never taken. -/
theorem addValue_eq_ok {p q : Page} {b : List UInt8} {r : Option Nat}
    (h : p.addValue b = .ok (r, q)) :
    (r = none ∧ q = p ∧ (pageSize < b.length ∨ p.DirectoryReadable ∧
      pageSize - p.getHeaderSize - p.liveBytes <
        b.length + (if p.getNumSlots ≤ p.lowestFreeSlotId then bytesPerSlotMeta else 0))) ∨
    ∃ p' : Page, r = some p.lowestFreeSlotId ∧ p.DirectoryReadable ∧
      b.length + (if p.getNumSlots ≤ p.lowestFreeSlotId then bytesPerSlotMeta else 0) ≤
        pageSize - p.getHeaderSize - p.liveBytes ∧
      p'.getNumSlots =
        (if p.getNumSlots ≤ p.lowestFreeSlotId then p.getNumSlots + 1 else p.getNumSlots) ∧
      (∀ t < p.getNumSlots, (p'.slot t).inUse = (p.slot t).inUse) ∧
      p'.getHeaderSize ≤ p'.getFreeStart ∧ p'.getFreeStart + b.length ≤ pageSize ∧
      q = ((p'.store p'.getFreeStart b).putSlot p.lowestFreeSlotId p'.getFreeStart b.length
        slotInUseValid).setFreeStart (p'.getFreeStart + b.length) ∧
      ∃ p1 : Page, (if pageSize - (p.getFreeStart +
          (if p.getNumSlots ≤ p.lowestFreeSlotId then bytesPerSlotMeta else 0)) < b.length
        then p.compact else pure p) = .ok p1 ∧
      (if p.getNumSlots ≤ p.lowestFreeSlotId then do
          let q ← (if 0 < p.getNumSlots then p1.shiftBodyForNewSlot else pure p1)
          pure (q.setNumSlots (p.getNumSlots + 1))
        else pure p1) = .ok p' := by
  unfold addValue at h
  simp only [pure_bind] at h
  split at h
  · rename_i hbig
    cases h
    exact .inl ⟨rfl, rfl, .inl hbig⟩
  obtain ⟨s, hs, h⟩ := bind_eq_ok.mp h
  obtain ⟨f, hf, h⟩ := bind_eq_ok.mp h
  obtain ⟨hr, rfl⟩ := getFreeSpace_eq_ok hf
  rw [findLowestFreeSlotId_eq hr] at hs
  cases hs
  set extra := if p.getNumSlots ≤ p.lowestFreeSlotId then bytesPerSlotMeta else 0 with hextra
  split at h
  · rename_i hno
    cases h
    exact .inl ⟨rfl, rfl, .inr ⟨hr, hno⟩⟩
  rename_i hfit
  have hH := getHeaderSize_le_getFreeStart hr
  have h681 := (directoryReadable_iff p).mp hr
  obtain ⟨p1, h1, h⟩ := bind_eq_ok.mp h
  obtain ⟨p2, h2, h⟩ := bind_eq_ok.mp h
  obtain ⟨hn1, hflags1, hroom1⟩ : p1.getNumSlots = p.getNumSlots ∧
      (∀ t < p.getNumSlots, (p1.slot t).inUse = (p.slot t).inUse) ∧
      (b.length = 0 ∨ p1.getFreeStart + extra + b.length ≤ pageSize) := by
    split at h1
    · obtain ⟨-, hn, hf, hfl⟩ := compact_header h1
      refine ⟨hn, hfl, .inr ?_⟩
      have := getFreeStart_eq p1
      rw [hf, getHeaderSize_eq p1, hn] at this
      rw [getHeaderSize_eq] at hfit this
      omega
    · cases h1
      exact ⟨rfl, fun _ _ => rfl, by omega⟩
  have hr1 : p1.DirectoryReadable := by
    unfold DirectoryReadable
    rw [hn1]
    exact hr
  obtain ⟨hn2, hflags2, hH2, hfs2⟩ := grow_spec hr1 hn1 (fun hneed => by
    rw [if_pos hneed] at hextra
    rw [getHeaderSize_eq, hn1, ← getHeaderSize_eq]
    unfold bytesPerSlotMeta at hextra
    omega) h2
  have hle := getFreeStart_le p2
  split at h
  · omega
  obtain ⟨p3, h3, h⟩ := bind_eq_ok.mp h
  obtain ⟨p4, h4, h⟩ := bind_eq_ok.mp h
  cases h
  obtain ⟨-, rfl⟩ := writeBytes_eq_ok.mp h3
  obtain ⟨-, rfl⟩ := writeSlot_eq_ok.mp h4
  exact .inr ⟨p2, rfl, hr, by omega, hn2, fun t ht => (hflags2 t ht).trans (hflags1 t ht), hH2,
    by omega, rfl, p1, h1, h2⟩

theorem addValue_some_spec {p q : Page} {b : List UInt8} {s : Nat}
    (h : p.addValue b = .ok (some s, q)) :
    s = p.lowestFreeSlotId ∧ p.DirectoryReadable ∧
      q.getNumSlots = (if p.getNumSlots ≤ s then p.getNumSlots + 1 else p.getNumSlots) ∧
      (q.slot s).inUse = slotInUseValid ∧
      (∀ t < p.getNumSlots, t ≠ s → (q.slot t).inUse = (p.slot t).inUse) ∧
      q.DirectoryReadable ∧ s < q.getNumSlots ∧ ∃ off, q.slot s = ⟨off, b.length, slotInUseValid⟩ ∧
        off + b.length ≤ pageSize ∧ q.slice off b.length = b := by
  rcases addValue_eq_ok h with ⟨h1, -⟩ | ⟨p', hs, hr, -, hn', hfl, hH', hroom, hq, -⟩
  · cases h1
  cases hs
  have hsn := lowestFreeSlotId_le p
  have hHe := getHeaderSize_eq p'
  have hlt : p.getNumSlots ≤ p'.getNumSlots ∧ p.lowestFreeSlotId < p'.getNumSlots := by
    rw [hn']
    split <;> omega
  have hw : 8 + 6 * p.lowestFreeSlotId + 5 ≤ pageSize := by
    have := getFreeStart_le p'
    omega
  have hn : q.getNumSlots = p'.getNumSlots := by
    rw [hq, getNumSlots_setFreeStart, getNumSlots_putSlot, getNumSlots_store _ (by omega)]
  have hslot : q.slot p.lowestFreeSlotId = ⟨p'.getFreeStart, b.length, slotInUseValid⟩ := by
    rw [hq, slot_setFreeStart, slot_putSlot _ hw, if_pos rfl]
    unfold pageSize at hroom
    rw [Nat.mod_eq_of_lt (by omega), Nat.mod_eq_of_lt (by omega)]
  refine ⟨rfl, hr, hn.trans hn', by rw [hslot], fun t ht hts => ?_,
    directoryReadable_of_header (by rw [getHeaderSize_eq, hn]; omega), hn ▸ hlt.2, _, hslot, hroom,
    ?_⟩
  · rw [hq, slot_setFreeStart, slot_putSlot _ hw, if_neg hts, slot_store _ (.inl (by omega)),
      hfl t ht]
  · refine (slice_congr fun k _ => ?_).trans (slice_store p' hroom)
    rw [hq, byte_setFreeStart _ _ (by omega), byte_putSlot _ (.inr (by omega))]

theorem addValue_none_unchanged {p q : Page} {b : List UInt8}
    (h : p.addValue b = .ok (none, q)) : q = p := by
  rcases addValue_eq_ok h with ⟨-, rfl, -⟩ | ⟨_, hs, -⟩
  · rfl
  · cases hs

theorem addValue_none_unchanged_full :
    ∃ p q, p = (((new 0).setNumSlots 2).putSlot 0 20 4000 slotInUseValid).setFreeStart 4020 ∧
      p.getFreeSpace = .ok 76 ∧ p.addValue (List.replicate 80 7) = .ok (none, q) ∧ q = p :=
  ⟨_, _, rfl, rfl, rfl, @addValue_none_unchanged _ _ (List.replicate 80 7) rfl⟩

theorem addValue_lowest_free_slot {p q : Page} {b : List UInt8} {s : Nat}
    (h : p.addValue b = .ok (some s, q)) :
    (p.getNumSlots ≤ s ∨ (p.slot s).inUse = slotInUseFree) ∧
      (∀ i < s, i < p.getNumSlots ∧ (p.slot i).inUse ≠ slotInUseFree) ∧
      (q.slot s).inUse = slotInUseValid ∧
      (∀ t < p.getNumSlots, t ≠ s → (q.slot t).inUse = (p.slot t).inUse) ∧
      q.getNumSlots = if s = p.getNumSlots then p.getNumSlots + 1 else p.getNumSlots := by
  obtain ⟨rfl, -, hn, hv, hfl, -⟩ := addValue_some_spec h
  refine ⟨(lowestFreeSlotId_spec p).1, (lowestFreeSlotId_spec p).2, hv, hfl, ?_⟩
  have := lowestFreeSlotId_le p
  rw [hn]
  split_ifs <;> omega

theorem addValue_lowest_free_slot_reuse :
    ∃ p1 p2 p3 p4 q, (new 0).addValue [1] = .ok (some 0, p1) ∧ p1.addValue [2] = .ok (some 1, p2) ∧
      p2.addValue [3] = .ok (some 2, p3) ∧ p3.deleteValue 1 = .ok (some (), p4) ∧
      p4.addValue [4] = .ok (some 1, q) ∧ p4.getNumSlots = 3 ∧
      (p4.getNumSlots ≤ 1 ∨ (p4.slot 1).inUse = slotInUseFree) ∧
      (∀ i < 1, i < p4.getNumSlots ∧ (p4.slot i).inUse ≠ slotInUseFree) ∧
      (q.slot 1).inUse = slotInUseValid ∧
      (∀ t < p4.getNumSlots, t ≠ 1 → (q.slot t).inUse = (p4.slot t).inUse) ∧
      q.getNumSlots = if 1 = p4.getNumSlots then p4.getNumSlots + 1 else p4.getNumSlots :=
  ⟨_, _, _, _, _, rfl, rfl, rfl, rfl, rfl, rfl, @addValue_lowest_free_slot _ _ [4] _ rfl⟩

/-- The bytes `add_value` writes read back through `get_value` at the slot it returns. -/
theorem addValue_some_getValue {p q : Page} {b : List UInt8} {s : Nat}
    (h : p.addValue b = .ok (some s, q)) : q.getValue s = .ok (some b) := by
  obtain ⟨-, -, -, -, -, hq, hlt, off, hslot, hroom, hbytes⟩ := addValue_some_spec h
  rw [getValue_eq hq, if_pos ⟨hlt, by rw [hslot], by rw [hslot]; exact hroom⟩, hslot]
  exact congrArg (fun l => Except.ok (some l)) hbytes

theorem addValue_some_getValue_compact :
    ∃ q, (((((new 0).setNumSlots 3).putSlot 0 26 1 slotInUseValid).putSlot 2 4090 1
        slotInUseValid).setFreeStart 4091).addValue (List.replicate 10 5) =
        .ok (some 1, q) ∧ (q.slot 2).offset = 27 ∧ q.getValue 1 = .ok (some (List.replicate 10 5)) :=
  let ⟨q, h, h2⟩ : ∃ q, (((((new 0).setNumSlots 3).putSlot 0 26 1 slotInUseValid).putSlot 2 4090 1
        slotInUseValid).setFreeStart 4091).addValue
      (List.replicate 10 5) = .ok (some 1, q) ∧ (q.slot 2).offset = 27 := ⟨_, rfl, rfl⟩
  ⟨q, h, h2, addValue_some_getValue h⟩

end Page

end Heapstore
