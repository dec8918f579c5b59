import Heapstore.AddValue

namespace Heapstore

namespace Page

theorem InvAway.putRecord {p q : Page} {s : Nat} {b : List UInt8} (h : p.InvAway s)
    (hfit : p.getFreeStart + b.length ≤ pageSize)
    (hq : q = ((p.store p.getFreeStart b).putSlot s p.getFreeStart b.length
      slotInUseValid).setFreeStart (p.getFreeStart + b.length)) :
    q.Inv ∧ ∀ t, t ≠ s → q.getValue t = p.getValue t := by
  have hH := getHeaderSize_eq p
  have hHf := h.header_le_free
  have hs := h.slot_lt
  have hw : 8 + 6 * s + 5 ≤ pageSize := by have := getFreeStart_le p; omega
  have hn : q.getNumSlots = p.getNumSlots := by
    rw [hq, getNumSlots_setFreeStart, getNumSlots_putSlot, getNumSlots_store _ (by omega)]
  have hHq : q.getHeaderSize = p.getHeaderSize := by rw [getHeaderSize_eq, hn, hH]
  have hf : q.storedFreeStart = p.getFreeStart + b.length := by
    rw [hq, storedFreeStart_setFreeStart, min_eq_left hfit]
  have hqs : q.slot s = ⟨p.getFreeStart, b.length, slotInUseValid⟩ := by
    rw [hq, slot_setFreeStart, slot_putSlot _ hw, if_pos rfl]
    unfold pageSize at hfit
    rw [Nat.mod_eq_of_lt (by omega), Nat.mod_eq_of_lt (by omega)]
  have hqt : ∀ t < p.getNumSlots, t ≠ s → q.slot t = p.slot t := fun t ht hts => by
    rw [hq, slot_setFreeStart, slot_putSlot _ hw, if_neg hts, slot_store _ (.inl (by omega))]
  -- a live entry of `q` other than `s` is a live entry of `p`
  have hlive : ∀ t < q.getNumSlots, t ≠ s → (q.slot t).inUse = slotInUseValid →
      t < p.getNumSlots ∧ q.slot t = p.slot t ∧ (p.slot t).inUse = slotInUseValid :=
    fun t ht hts hv => by
      rw [hn] at ht
      rw [hqt t ht hts] at hv ⊢
      exact ⟨ht, rfl, hv⟩
  have hinv : q.Inv := by
    refine ⟨by rw [hHq, hf]; omega, by rw [hf]; exact hfit, fun t ht => ?_, fun t ht hv => ?_,
      fun t ht hv => ?_, fun a ha c hc hac hva hvc => ?_⟩
    · by_cases hts : t = s
      · exact .inr (by rw [hts, hqs])
      · rw [hqt t (hn ▸ ht) hts]
        exact h.in_use_flag t (hn ▸ ht) hts
    · by_cases hts : t = s
      · rw [hHq, hts, hqs]
        exact hHf
      · obtain ⟨ht', heq, hv'⟩ := hlive t ht hts hv
        rw [hHq, heq]
        exact (h.live_within t ht' hts hv').1
    · by_cases hts : t = s
      · rw [hf, hts, hqs]
      · obtain ⟨ht', heq, hv'⟩ := hlive t ht hts hv
        rw [hf, heq]
        exact (h.live_within t ht' hts hv').2.trans (Nat.le_add_right _ _)
    · by_cases has : a = s <;> by_cases hcs : c = s
      · exact absurd (has.trans hcs.symm) hac
      · obtain ⟨hc', heq, hvc'⟩ := hlive c hc hcs hvc
        rw [has, hqs, heq]
        exact .inr (.inl (h.live_within c hc' hcs hvc').2)
      · obtain ⟨ha', heq, hva'⟩ := hlive a ha has hva
        rw [hcs, hqs, heq]
        exact .inl (h.live_within a ha' has hva').2
      · obtain ⟨ha', hqa, hva'⟩ := hlive a ha has hva
        obtain ⟨hc', hqc, hvc'⟩ := hlive c hc hcs hvc
        rw [hqa, hqc]
        exact h.live_disjoint a ha' c hc' has hcs hac hva' hvc'
  have hr : p.DirectoryReadable := directoryReadable_of_header (hHf.trans (getFreeStart_le p))
  refine ⟨hinv, fun t hts => getValue_congr_at hr hinv.readable
    (by rw [hn]; exact and_congr_right fun ht => by rw [hqt t ht hts]) fun ht hv => ?_⟩
  obtain ⟨hafter, hbefore⟩ := h.live_within t ht hts hv
  have hfits := hbefore.trans (getFreeStart_le p)
  rw [hqt t ht hts]
  refine ⟨rfl, hfits, hfits, slice_congr fun k hk => ?_⟩
  rw [hq, byte_setFreeStart _ _ (by omega), byte_putSlot _ (.inr (by omega)),
    byte_store_of_not_mem _ (.inl (by omega))]

/-- `add_value` never panics on a page that satisfies the invariant. -/
theorem addValue_ok {p : Page} (hp : p.Inv) (b : List UInt8) : ∃ res, p.addValue b = .ok res := by
  have hr := hp.readable
  have hH := getHeaderSize_eq p
  have hsn := lowestFreeSlotId_le p
  have h681 := (directoryReadable_iff p).mp hr
  unfold addValue
  simp only [pure_bind, findLowestFreeSlotId_eq hr, getFreeSpace_eq hr, ok_bind]
  by_cases hbig : pageSize < b.length
  · rw [if_pos hbig]
    exact ⟨_, rfl⟩
  by_cases hfit : pageSize - p.getHeaderSize - p.liveBytes <
      b.length + if p.getNumSlots ≤ p.lowestFreeSlotId then bytesPerSlotMeta else 0
  · rw [if_neg hbig, if_pos hfit]
    exact ⟨_, rfl⟩
  rw [if_neg hbig, if_neg hfit]
  -- the request fits, so a new entry, when one is needed, has room after the header
  have hroom : p.getNumSlots ≤ p.lowestFreeSlotId → p.getHeaderSize + 6 ≤ pageSize :=
    fun hneed => by
      rw [if_pos hneed] at hfit
      unfold bytesPerSlotMeta at hfit
      omega
  refine bind_ok_of (fun p1 : Page => p1.getNumSlots = p.getNumSlots) ?_ fun p1 hn1 => ?_
  · by_cases hc : pageSize - (p.getFreeStart +
        if p.getNumSlots ≤ p.lowestFreeSlotId then bytesPerSlotMeta else 0) < b.length
    · obtain ⟨q, hq, hn, -⟩ := compact_inv hp
      exact ⟨q, by rw [if_pos hc, hq], hn⟩
    · exact ⟨p, by rw [if_neg hc]; rfl, rfl⟩
  obtain ⟨p2, h2⟩ := grow_ok (by unfold DirectoryReadable; rw [hn1]; exact hr)
    fun hneed => by have := hroom hneed; rw [getHeaderSize_eq, hn1]; omega
  refine bind_ok_of (fun _ => True) ⟨p2, h2, trivial⟩ fun p2 _ => ?_
  by_cases hins : pageSize < p2.getFreeStart + b.length
  · rw [if_pos hins]
    exact ⟨_, rfl⟩
  have hw : 8 + 6 * p.lowestFreeSlotId + 5 ≤ pageSize := by
    by_cases hneed : p.getNumSlots ≤ p.lowestFreeSlotId
    · have := hroom hneed
      omega
    · unfold pageSize
      omega
  rw [if_neg hins, writeBytes_eq_ok.mpr ⟨by omega, rfl⟩, ok_bind, writeSlot_of_le hw, ok_bind]
  exact ⟨_, rfl⟩

theorem addValue_reply {p : Page} (hp : p.Inv) (b : List UInt8) :
    ∃ q, p.addValue b = .ok (if b.length +
        (if p.getNumSlots ≤ p.lowestFreeSlotId then bytesPerSlotMeta else 0) ≤
          pageSize - p.getHeaderSize - p.liveBytes then some p.lowestFreeSlotId else none, q) := by
  obtain ⟨⟨r, q⟩, h⟩ := addValue_ok hp b
  refine ⟨q, h.trans (congrArg (fun r => Except.ok (r, q)) ?_)⟩
  rcases addValue_eq_ok h with ⟨rfl, -, hno⟩ | ⟨-, rfl, -, hfit, -⟩
  · rw [if_neg]
    rcases hno with hbig | ⟨-, hno⟩ <;> omega
  · rw [if_pos hfit]

/-- On an invariant page `add_value` succeeds exactly when the request fits in `get_free_space()`. -/
theorem addValue_some_iff_fits {p : Page} (hp : p.Inv) (b : List UInt8) :
    (∃ s q, p.addValue b = .ok (some s, q)) ↔ ∃ f, p.getFreeSpace = .ok f ∧
      b.length + (if p.getNumSlots ≤ p.lowestFreeSlotId then bytesPerSlotMeta else 0) ≤ f := by
  have hr := hp.readable
  constructor
  · rintro ⟨s, q, h⟩
    rcases addValue_eq_ok h with ⟨h1, -⟩ | ⟨-, -, -, hfit, -⟩
    · cases h1
    · exact ⟨_, getFreeSpace_eq hr, hfit⟩
  · rintro ⟨f, hf, hfit⟩
    rw [getFreeSpace_eq hr] at hf
    obtain rfl := Except.ok.inj hf
    obtain ⟨⟨r, q⟩, h⟩ := addValue_ok hp b
    rcases addValue_eq_ok h with ⟨-, -, hbig | ⟨-, hno⟩⟩ | ⟨_, rfl, -⟩
    · omega
    · omega
    · exact ⟨_, q, h⟩

theorem addValue_some_iff_fits_gap :
    ∃ p r, p = ((((new 0).setNumSlots 3).putSlot 0 26 1 slotInUseValid).putSlot 2 4090 1
        slotInUseValid).setFreeStart 4091 ∧
      r = (((new 0).setNumSlots 2).putSlot 0 20 4000 slotInUseValid).setFreeStart 4020 ∧ p.Inv ∧ r.Inv ∧
      p.lowestFreeSlotId = 1 ∧ p.getFreeSpace = .ok 4068 ∧
      (∃ q, p.addValue (List.replicate 10 5) = .ok (some 1, q)) ∧
      r.getFreeSpace = .ok 76 ∧ r.addValue (List.replicate 80 7) = .ok (none, r) ∧
      ((∃ s q, p.addValue (List.replicate 10 5) = .ok (some s, q)) ↔ ∃ f, p.getFreeSpace = .ok f ∧
        (List.replicate 10 (5 : UInt8)).length +
          (if p.getNumSlots ≤ p.lowestFreeSlotId then bytesPerSlotMeta else 0) ≤ f) ∧
      ((∃ s q, r.addValue (List.replicate 80 7) = .ok (some s, q)) ↔ ∃ f, r.getFreeSpace = .ok f ∧
        (List.replicate 80 (7 : UInt8)).length +
          (if r.getNumSlots ≤ r.lowestFreeSlotId then bytesPerSlotMeta else 0) ≤ f) :=
  ⟨_, _, rfl, rfl, by decide, by decide, rfl, rfl, ⟨_, rfl⟩, rfl, rfl,
    addValue_some_iff_fits (by decide) _, addValue_some_iff_fits (by decide) _⟩

theorem addValue_keeps_inv {p q : Page} {b : List UInt8} {s : Nat} (hp : p.Inv)
    (hb : 0 < b.length ∨ p.lowestFreeSlotId < p.getNumSlots ∨
      ∀ t < p.getNumSlots, (p.slot t).inUse = slotInUseValid →
        (p.slot t).offset + (p.slot t).length + bytesPerSlotMeta ≤ pageSize)
    (h : p.addValue b = .ok (some s, q)) :
    q.Inv ∧ ∀ t, t ≠ s → q.getValue t = p.getValue t := by
  rcases addValue_eq_ok h with ⟨h1, -⟩ | ⟨p', hs, -, hfit, hn', -, -, hroom, hq, p1, h1, h2⟩
  · cases h1
  cases hs
  have hsn := lowestFreeSlotId_le p
  have hfs := hp.getFreeStart_eq
  -- after the optional compaction: the invariant and every value hold, and when a new entry is
  -- needed it has room and no live record ends within the last 6 bytes
  obtain ⟨hp1, hn1, hval1, hroom1⟩ : p1.Inv ∧ p1.getNumSlots = p.getNumSlots ∧
      (∀ t, p1.getValue t = p.getValue t) ∧
      (p.getNumSlots ≤ p.lowestFreeSlotId → p1.getHeaderSize + 6 ≤ pageSize ∧
        ∀ t < p1.getNumSlots, (p1.slot t).inUse = slotInUseValid →
          (p1.slot t).offset + (p1.slot t).length + 6 ≤ pageSize) := by
    by_cases hc : pageSize - (p.getFreeStart +
        if p.getNumSlots ≤ p.lowestFreeSlotId then bytesPerSlotMeta else 0) < b.length
    · obtain ⟨q1, hq1, hn, -, hval, hinv, hf, -⟩ := compact_inv hp
      rw [if_pos hc, hq1] at h1
      obtain rfl := Except.ok.inj h1
      refine ⟨hinv, hn, hval, fun hneed => ?_⟩
      rw [if_pos hneed] at hfit
      unfold bytesPerSlotMeta at hfit
      have hroom : q1.storedFreeStart + 6 ≤ pageSize := by omega
      exact ⟨by have := hinv.header_le_free; omega,
        fun t ht hv => by have := hinv.live_before_free t ht hv; omega⟩
    · rw [if_neg hc] at h1
      obtain rfl := Except.ok.inj h1
      refine ⟨hp, rfl, fun _ => rfl, fun hneed => ⟨?_, fun t ht hv => ?_⟩⟩
      · rw [if_pos hneed] at hfit
        unfold bytesPerSlotMeta at hfit
        omega
      · rw [if_pos hneed] at hc
        have := hp.live_before_free t ht hv
        unfold bytesPerSlotMeta at hc hb
        rcases hb with hb | hb | hb
        · omega
        · omega
        · exact hb t ht hv
  -- after the directory growth: the invariant away from the new record's slot, and every value
  obtain ⟨hp2, hval2⟩ : p'.InvAway p.lowestFreeSlotId ∧
      ∀ t, t ≠ p.lowestFreeSlotId → p'.getValue t = p.getValue t := by
    by_cases hneed : p.getNumSlots ≤ p.lowestFreeSlotId
    · rw [if_pos hneed] at h2 hn'
      by_cases hn0 : 0 < p.getNumSlots
      · obtain ⟨q2, hq2, hinv2, -, -, hval2⟩ :=
          shift_grow_inv_of_ends hp1 (hroom1 hneed).1 (hroom1 hneed).2
        rw [if_pos hn0, hq2, ok_bind] at h2
        obtain rfl := Except.ok.inj h2
        rw [hn1] at hinv2 hval2
        exact ⟨hinv2.invAway (by rw [hn']; omega), fun t _ => (hval2 t).trans (hval1 t)⟩
      · rw [if_neg hn0, pure_bind] at h2
        obtain rfl := Except.ok.inj h2
        have hr' : (p1.setNumSlots (p.getNumSlots + 1)).DirectoryReadable :=
          (directoryReadable_iff _).mpr (by rw [hn']; omega)
        refine ⟨⟨by rw [hn']; omega, getHeaderSize_le_getFreeStart hr',
          fun t ht hts => absurd ht (by rw [hn']; omega),
          fun t ht hts => absurd ht (by rw [hn']; omega),
          fun a ha _ _ has => absurd ha (by rw [hn']; omega)⟩, fun t hts => ?_⟩
        rw [getValue_eq hr', getValue_eq hp.readable, if_neg (by rw [hn']; omega),
          if_neg (by omega)]
    · rw [if_neg hneed] at h2 hn'
      obtain rfl := Except.ok.inj h2
      exact ⟨hp1.invAway (by rw [hn1]; omega), fun t _ => hval1 t⟩
  obtain ⟨hinv, hval⟩ := hp2.putRecord hroom hq
  exact ⟨hinv, fun t hts => (hval t hts).trans (hval2 t hts)⟩

end Page

end Heapstore
