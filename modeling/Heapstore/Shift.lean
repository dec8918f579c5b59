import Heapstore.Layout

namespace Heapstore

namespace Page

theorem writeSlot_of_le {q : Page} {s o l : Nat} {u : UInt8} (h : 8 + 6 * s + 5 ≤ pageSize) :
    q.writeSlot s o l u = .ok (q.putSlot s o l u) :=
  writeSlot_eq_ok.mpr ⟨h, rfl⟩

/-- The page after one pass of the loop of `shift_body_for_new_slot` over slot `sid`. -/
def bumpOne (q : Page) (sid : Nat) : Page :=
  if (q.slot sid).inUse = slotInUseValid then
    q.putSlot sid ((q.slot sid).offset + bytesPerSlotMeta) (q.slot sid).length slotInUseValid
  else q

theorem bumpOffsets_cons {q : Page} {sid : Nat} {rest : List Nat} (hr : q.DirectoryReadable)
    (hs : sid < q.getNumSlots) : bumpOffsets (sid :: rest) q = bumpOffsets rest (q.bumpOne sid) := by
  have hw : 8 + 6 * sid + 5 ≤ pageSize := by have := hr sid hs; omega
  simp only [bumpOffsets, getSlotInUse_eq hr, getSlotOffsetLength_eq hr, if_pos hs, ok_bind,
    Option.map_some', Option.getD_some, beq_iff_eq, bumpOne]
  split
  · rw [writeSlot_of_le hw]
    rfl
  · rfl

theorem getNumSlots_bumpOne (q : Page) (sid : Nat) : (q.bumpOne sid).getNumSlots = q.getNumSlots := by
  unfold bumpOne
  split <;> simp only [getNumSlots_putSlot]

/-- The offset loop of `shift_body_for_new_slot` moves every live offset among `ids` up by 6. -/
theorem bumpOffsets_spec {ids : List Nat} {q : Page} (hr : q.DirectoryReadable)
    (hids : ∀ t ∈ ids, t < q.getNumSlots) (hnd : ids.Nodup) :
    ∃ q', bumpOffsets ids q = .ok q' ∧ q'.getNumSlots = q.getNumSlots ∧
      q'.storedFreeStart = q.storedFreeStart ∧
      (∀ t, q'.slot t = if t ∈ ids ∧ (q.slot t).inUse = slotInUseValid then
        ⟨((q.slot t).offset + 6) % 65536, (q.slot t).length, slotInUseValid⟩ else q.slot t) ∧
      ∀ i, 8 + 6 * q.getNumSlots ≤ i → q'.byte i = q.byte i := by
  induction ids generalizing q with
  | nil => exact ⟨q, rfl, rfl, rfl, by simp, fun _ _ => rfl⟩
  | cons sid rest ih =>
    have hs := hids sid (by simp)
    have hw : 8 + 6 * sid + 5 ≤ pageSize := by have := hr sid hs; omega
    have hn1 := getNumSlots_bumpOne q sid
    obtain ⟨q', hloop, hn, hf, hslot, hbyte⟩ := @ih (q.bumpOne sid)
      (by unfold DirectoryReadable; rw [hn1]; exact hr)
      (by rw [hn1]; exact fun t ht => hids t (List.mem_cons_of_mem _ ht)) (List.nodup_cons.mp hnd).2
    have hsr : sid ∉ rest := (List.nodup_cons.mp hnd).1
    have hlen : (q.slot sid).length % 65536 = (q.slot sid).length := by
      rw [slot_eq]
      exact Nat.mod_eq_of_lt (u16At_lt _ _)
    refine ⟨q', by rw [bumpOffsets_cons hr hs]; exact hloop, hn.trans hn1, ?_, fun t => ?_,
      fun i hi => ?_⟩
    · rw [hf]
      unfold bumpOne
      split <;> simp only [storedFreeStart_putSlot]
    · rw [hslot t]
      by_cases hts : t = sid
      · subst hts
        unfold bumpOne
        by_cases hv : (q.slot t).inUse = slotInUseValid
        · simp [hsr, hv, slot_putSlot _ hw, hlen, bytesPerSlotMeta]
        · simp [hsr, hv]
      · have hq1 : (q.bumpOne sid).slot t = q.slot t := by
          unfold bumpOne
          split
          · rw [slot_putSlot _ hw, if_neg hts]
          · rfl
        simp [hq1, hts]
    · rw [hbyte i (by rw [hn1]; exact hi)]
      unfold bumpOne
      split
      · exact byte_putSlot _ (.inr (by omega))
      · rfl

/-- `shift_body_for_new_slot` on a readable directory with room for one more entry. -/
theorem shiftBodyForNewSlot_spec {p : Page} (hr : p.DirectoryReadable)
    (h : p.getHeaderSize + 6 ≤ pageSize) :
    ∃ q, p.shiftBodyForNewSlot = .ok q ∧ q.getNumSlots = p.getNumSlots ∧
      q.storedFreeStart = min (p.getFreeStart + 6) pageSize ∧
      (∀ t < p.getNumSlots, q.slot t = if (p.slot t).inUse = slotInUseValid then
        ⟨((p.slot t).offset + 6) % 65536, (p.slot t).length, slotInUseValid⟩ else p.slot t) ∧
      (q.slot p.getNumSlots = ⟨0, 0, 0⟩ ∧ ∀ k < 6, q.byte (p.getHeaderSize + k) = 0) ∧
      ∀ i, p.getHeaderSize + 6 ≤ i → q.byte i =
        if i < p.getHeaderSize + 6 +
            min (p.getFreeStart - p.getHeaderSize) (pageSize - (p.getHeaderSize + 6))
        then p.byte (i - 6) else p.byte i := by
  have hH := getHeaderSize_eq p
  have hbs : fixedPageMetaSize + p.getNumSlots * bytesPerSlotMeta = p.getHeaderSize := rfl
  have h6 : bytesPerSlotMeta = 6 := rfl
  set sl := min (p.getFreeStart - p.getHeaderSize) (pageSize - (p.getHeaderSize + 6)) with hsl
  set p2 := (p.move p.getHeaderSize sl (p.getHeaderSize + 6)).store p.getHeaderSize
    (List.replicate 6 0) with hp2
  have hn2 : p2.getNumSlots = p.getNumSlots := by
    rw [hp2, getNumSlots_store _ (by omega), getNumSlots_move _ (by omega)]
  obtain ⟨q', hloop, hn, hf, hslot, hbyte⟩ := @bumpOffsets_spec (List.range p.getNumSlots) p2
    (by unfold DirectoryReadable; rw [hn2]; exact hr) (by rw [hn2]; exact fun t => List.mem_range.mp)
    (List.nodup_range _)
  have hshift : p.shiftBodyForNewSlot =
      .ok (q'.setFreeStart (min (p.getFreeStart + 6) pageSize)) := by
    simp only [shiftBodyForNewSlot, hbs]
    simp only [h6]
    by_cases hb : 0 < p.getFreeStart - p.getHeaderSize
    · rw [if_pos hb, if_pos h, copyWithin_eq_ok.mpr ⟨⟨by omega, by omega⟩, rfl⟩, ok_bind,
        writeBytes_eq_ok.mpr ⟨by simp; omega, rfl⟩, ok_bind, ← hp2, hloop]
      rfl
    · have hp0 : p.store p.getHeaderSize (List.replicate 6 0) = p2 := by
        rw [hp2, show sl = 0 by omega, move_zero]
      rw [if_neg hb, pure_bind, writeBytes_eq_ok.mpr ⟨by simp; omega, rfl⟩, ok_bind, hp0, hloop]
      rfl
  have hzero : ∀ i, p.getHeaderSize ≤ i → i < p.getHeaderSize + 6 → p2.byte i = 0 := by
    intro i h1 h2
    rw [hp2, byte_store _ (by simp; omega), if_pos ⟨h1, by simpa using h2⟩]
    simp only [List.getD_eq_getElem?_getD, List.getElem?_replicate]
    split <;> rfl
  refine ⟨_, hshift, ?_, ?_, fun t ht => ?_, ?_, fun i hi => ?_⟩
  · rw [getNumSlots_setFreeStart, hn, hn2]
  · rw [storedFreeStart_setFreeStart]
    omega
  · rw [slot_setFreeStart, hslot, hp2, slot_store _ (.inl (by omega)), slot_move _ (by omega)]
    simp only [List.mem_range, ht, true_and]
  · refine ⟨?_, fun k hk => ?_⟩
    · rw [slot_setFreeStart, hslot, if_neg (by simp), slot_eq]
      simp (disch := omega) only [u16At, hzero, UInt8.toNat_zero]
    · rw [byte_setFreeStart _ _ (by omega), hbyte _ (by omega), hzero _ (by omega) (by omega)]
  · rw [byte_setFreeStart _ _ (by omega), hbyte i (by omega), hp2,
      byte_store_of_not_mem _ (.inr (by simp; omega)), byte_move _ (by omega)]
    by_cases hin : i < p.getHeaderSize + 6 + sl
    · rw [if_pos ⟨hi, hin⟩, if_pos hin, show p.getHeaderSize + (i - (p.getHeaderSize + 6)) = i - 6 by
        omega]
    · rw [if_neg fun h => hin h.2, if_neg hin]

theorem shift_grow_inv_of_ends {p : Page} (hp : p.Inv) (hH6 : p.getHeaderSize + 6 ≤ pageSize)
    (hends : ∀ t < p.getNumSlots, (p.slot t).inUse = slotInUseValid →
      (p.slot t).offset + (p.slot t).length + 6 ≤ pageSize) :
    ∃ q, p.shiftBodyForNewSlot = .ok q ∧ (q.setNumSlots (p.getNumSlots + 1)).Inv ∧
      (q.setNumSlots (p.getNumSlots + 1)).storedFreeStart = min (p.storedFreeStart + 6) pageSize ∧
      ((q.setNumSlots (p.getNumSlots + 1)).slot p.getNumSlots).inUse = slotInUseFree ∧
      ∀ t, (q.setNumSlots (p.getNumSlots + 1)).getValue t = p.getValue t := by
  have hr := hp.readable
  have hH := getHeaderSize_eq p
  have hfs := hp.getFreeStart_eq
  have hHf := hp.header_le_free
  have h681 := (directoryReadable_iff p).mp hr
  obtain ⟨q, hq, -, hf, hslot, ⟨hnew, -⟩, hbyte⟩ := shiftBodyForNewSlot_spec hr hH6
  set p2 := q.setNumSlots (p.getNumSlots + 1) with hp2
  have hn2 : p2.getNumSlots = p.getNumSlots + 1 := by
    rw [getNumSlots_setNumSlots, Nat.mod_eq_of_lt (by omega)]
  have hf2 : p2.storedFreeStart = min (p.storedFreeStart + 6) pageSize := by
    rw [storedFreeStart_setNumSlots, hf, hfs]
  have hH2 : p2.getHeaderSize = p.getHeaderSize + 6 := by
    rw [getHeaderSize_eq, hn2, hH]
    omega
  have hnew2 : (p2.slot p.getNumSlots).inUse = slotInUseFree := by
    rw [slot_setNumSlots, hnew]
    rfl
  -- the live entries of `p2` are those of `p`, each moved up by 6
  have hmoved : ∀ t < p.getNumSlots, (p.slot t).inUse = slotInUseValid →
      p2.slot t = ⟨(p.slot t).offset + 6, (p.slot t).length, slotInUseValid⟩ := fun t ht hv => by
    have := hends t ht hv
    rw [slot_setNumSlots, hslot t ht, if_pos hv,
      Nat.mod_eq_of_lt (by unfold pageSize at this; omega)]
  have hkept : ∀ t < p.getNumSlots, (p.slot t).inUse ≠ slotInUseValid → p2.slot t = p.slot t :=
    fun t ht hv => by rw [slot_setNumSlots, hslot t ht, if_neg hv]
  have hlive2 : ∀ t < p2.getNumSlots, (p2.slot t).inUse = slotInUseValid →
      t < p.getNumSlots ∧ (p.slot t).inUse = slotInUseValid := fun t ht hv => by
    have htn : t ≠ p.getNumSlots := fun h => absurd (hnew2 ▸ h ▸ hv) (by decide)
    have ht' : t < p.getNumSlots := by omega
    by_cases hvp : (p.slot t).inUse = slotInUseValid
    · exact ⟨ht', hvp⟩
    · exact absurd (hkept t ht' hvp ▸ hv) hvp
  have hinv : p2.Inv := by
    refine ⟨by rw [hH2, hf2]; omega, by rw [hf2]; omega, fun t ht => ?_, fun t ht hv => ?_,
      fun t ht hv => ?_, fun a ha b hb hab hva hvb => ?_⟩
    · by_cases htn : t = p.getNumSlots
      · exact .inl (htn ▸ hnew2)
      have ht' : t < p.getNumSlots := by omega
      by_cases hvp : (p.slot t).inUse = slotInUseValid
      · exact .inr (by rw [hmoved t ht' hvp])
      · rw [hkept t ht' hvp]
        exact hp.in_use_flag t ht'
    · obtain ⟨ht', hvp⟩ := hlive2 t ht hv
      rw [hH2, hmoved t ht' hvp]
      exact Nat.add_le_add_right (hp.live_after_header t ht' hvp) 6
    · obtain ⟨ht', hvp⟩ := hlive2 t ht hv
      have := hp.live_before_free t ht' hvp
      have := hends t ht' hvp
      rw [hf2, hmoved t ht' hvp]
      dsimp only
      omega
    · obtain ⟨ha', hva'⟩ := hlive2 a ha hva
      obtain ⟨hb', hvb'⟩ := hlive2 b hb hvb
      rw [hmoved a ha' hva', hmoved b hb' hvb']
      exact rangesDisjoint_add 6 (hp.live_disjoint a ha' b hb' hab hva' hvb')
  refine ⟨q, hq, hinv, hf2, hnew2, fun t => getValue_congr_at hr hinv.readable
    ⟨fun h => hlive2 t h.1 h.2, fun ⟨ht, hv⟩ => ⟨by omega, by rw [hmoved t ht hv]⟩⟩
    fun ht hv => ?_⟩
  have hafter := hp.live_after_header t ht hv
  have hbefore := hp.live_before_free t ht hv
  have hend := hends t ht hv
  rw [hmoved t ht hv]
  dsimp only
  refine ⟨rfl, by omega, by omega, slice_congr_offset fun k hk => ?_⟩
  rw [byte_setNumSlots _ _ (by omega), hbyte _ (by omega), if_pos (by omega), Nat.add_right_comm,
    Nat.add_sub_cancel]

theorem shift_grow_inv {p : Page} (hp : p.Inv) (hroom : p.storedFreeStart + 6 ≤ pageSize) :
    ∃ q, p.shiftBodyForNewSlot = .ok q ∧ (q.setNumSlots (p.getNumSlots + 1)).Inv ∧
      (q.setNumSlots (p.getNumSlots + 1)).storedFreeStart = p.storedFreeStart + 6 ∧
      ((q.setNumSlots (p.getNumSlots + 1)).slot p.getNumSlots).inUse = slotInUseFree ∧
      ∀ t, (q.setNumSlots (p.getNumSlots + 1)).getValue t = p.getValue t := by
  obtain ⟨q, hq, hinv, hf, hnew, hval⟩ := shift_grow_inv_of_ends hp
    (by have := hp.header_le_free; omega)
    (fun t ht hv => by have := hp.live_before_free t ht hv; omega)
  exact ⟨q, hq, hinv, by rw [hf, min_eq_left hroom], hnew, hval⟩

/-- The directory growth of `add_value` on a full invariant page with 6 free bytes at the end. -/
theorem shift_then_grow_keeps_layout {p : Page} (hp : p.Inv) (hn : 1 ≤ p.getNumSlots)
    (hall : ∀ t < p.getNumSlots, (p.slot t).inUse = slotInUseValid)
    (hroom : p.getFreeStart + 6 ≤ pageSize) :
    ∃ q, p.shiftBodyForNewSlot = .ok q ∧ (q.setNumSlots (p.getNumSlots + 1)).Inv ∧
      (∀ k < bytesPerSlotMeta,
        (q.setNumSlots (p.getNumSlots + 1)).byte (slotMetaOffset p.getNumSlots + k) = 0) ∧
      (q.setNumSlots (p.getNumSlots + 1)).getFreeStart = p.getFreeStart + 6 ∧
      (∀ t < p.getNumSlots,
        ((q.setNumSlots (p.getNumSlots + 1)).slot t).offset = (p.slot t).offset + 6 ∧
        ((q.setNumSlots (p.getNumSlots + 1)).slot t).length = (p.slot t).length) ∧
      ∀ s < p.getNumSlots, (q.setNumSlots (p.getNumSlots + 1)).getValue s = p.getValue s := by
  have hfs := hp.getFreeStart_eq
  have hH := getHeaderSize_eq p
  obtain ⟨q, hq, hinv, hf, -, hval⟩ := shift_grow_inv hp (by rw [← hfs]; exact hroom)
  obtain ⟨q', hq', -, -, hslot, ⟨-, hzero⟩, -⟩ :=
    shiftBodyForNewSlot_spec hp.readable (by have := hp.header_le_free; omega)
  obtain rfl : q' = q := Except.ok.inj (hq'.symm.trans hq)
  refine ⟨q', hq', hinv, fun k hk => ?_, by rw [hinv.getFreeStart_eq, hf, hfs], fun t ht => ?_,
    fun s _ => hval s⟩
  · rw [slotMetaOffset_eq, byte_setNumSlots _ _ (by omega), ← hH]
    exact hzero k hk
  · have := hp.live_before_free t ht (hall t ht)
    rw [slot_setNumSlots, hslot t ht, if_pos (hall t ht),
      Nat.mod_eq_of_lt (by unfold pageSize at hroom; omega)]
    exact ⟨rfl, rfl⟩

theorem shift_then_grow_keeps_layout_one :
    ∃ p : Page, p.Inv ∧ 1 ≤ p.getNumSlots ∧
      (∀ t < p.getNumSlots, (p.slot t).inUse = slotInUseValid) ∧ p.getFreeStart + 6 ≤ pageSize ∧
      ∃ q, p.shiftBodyForNewSlot = .ok q ∧ (q.setNumSlots (p.getNumSlots + 1)).Inv ∧
        (q.setNumSlots (p.getNumSlots + 1)).getFreeStart = p.getFreeStart + 6 :=
  let p := (((new 0).setNumSlots 1).putSlot 0 14 3 slotInUseValid).setFreeStart 17
  have hp : p.Inv := by decide
  have hn : 1 ≤ p.getNumSlots := by decide
  have hall : ∀ t < p.getNumSlots, (p.slot t).inUse = slotInUseValid := by decide
  have hroom : p.getFreeStart + 6 ≤ pageSize := by decide
  let ⟨q, hq, hinv, _, hfs, _⟩ := shift_then_grow_keeps_layout hp hn hall hroom
  ⟨p, hp, hn, hall, hroom, q, hq, hinv, hfs⟩

end Page

end Heapstore
