import Heapstore.Run

namespace Heapstore

namespace Page

/-- `add_value(&[])` with a full directory and the free start near the end cuts off a record. -/
theorem addValue_empty_drops_tail_record {p : Page} (hp : p.Inv)
    (hfull : ∀ t < p.getNumSlots, (p.slot t).inUse = slotInUseValid) (hn : 0 < p.getNumSlots)
    (htail : pageSize < p.getFreeStart + 6) (hroom : p.getHeaderSize + p.liveBytes + 6 ≤ pageSize)
    {t : Nat} (ht : t < p.getNumSlots)
    (hend : pageSize < (p.slot t).offset + (p.slot t).length + 6) :
    ∃ q, p.addValue [] = .ok (some p.getNumSlots, q) ∧ q.getValue t = .ok none := by
  have hr := hp.readable
  have hs : p.lowestFreeSlotId = p.getNumSlots := by
    by_contra hne
    have hlt := lt_of_le_of_ne (lowestFreeSlotId_le p) hne
    rcases (lowestFreeSlotId_spec p).1 with h | h
    · omega
    · rw [hfull _ hlt] at h
      exact absurd h (by decide)
  obtain ⟨q1, hq1, hn1, hf1, hslot1, -, -⟩ := shiftBodyForNewSlot_spec hr (by omega)
  have h681 := (directoryReadable_iff p).mp hr
  have hH := getHeaderSize_eq p
  set p2 := q1.setNumSlots (p.getNumSlots + 1) with hp2
  have hn2 : p2.getNumSlots = p.getNumSlots + 1 := by
    rw [getNumSlots_setNumSlots, Nat.mod_eq_of_lt (by omega)]
  have hfs2 : p2.getFreeStart = pageSize := by
    rw [getFreeStart_eq, getHeaderSize_eq, hn2, storedFreeStart_setNumSlots, hf1]
    omega
  have hw : 8 + 6 * p.getNumSlots + 5 ≤ pageSize := by omega
  unfold addValue
  simp only [pure_bind, List.length_nil, findLowestFreeSlotId_eq hr, getFreeSpace_eq hr, ok_bind,
    hs, le_refl, if_true, bytesPerSlotMeta, Nat.not_lt_zero, if_false, hn, hq1, ← hp2, hfs2,
    Nat.add_zero, Nat.lt_irrefl, (@writeBytes_eq_ok p2 _ pageSize []).mpr ⟨le_refl _, rfl⟩, writeSlot_of_le hw]
  rw [if_neg (by omega)]
  refine ⟨_, rfl, ?_⟩
  have hend' := hp.live_before_free t ht (hfull t ht)
  have hfp := hp.free_le_page
  have hqt : (((p2.store pageSize []).putSlot p.getNumSlots pageSize 0 slotInUseValid).setFreeStart
      pageSize).slot t = ⟨(p.slot t).offset + 6, (p.slot t).length, slotInUseValid⟩ := by
    have hoff : (p.slot t).offset + 6 < 65536 := by unfold pageSize at hfp; omega
    rw [slot_setFreeStart, slot_putSlot _ hw, if_neg (by omega), slot_store _ (.inl (by omega)),
      hp2, slot_setNumSlots, hslot1 t ht, if_pos (hfull t ht), Nat.mod_eq_of_lt hoff]
  have hrq : (((p2.store pageSize []).putSlot p.getNumSlots pageSize 0 slotInUseValid).setFreeStart
      pageSize).DirectoryReadable := by
    rw [directoryReadable_iff, getNumSlots_setFreeStart, getNumSlots_putSlot,
      getNumSlots_store _ (by decide), hn2]
    unfold pageSize at hw
    omega
  rw [getValue_eq hrq, if_neg fun h => by simp only [hqt] at h; omega]
end Page

set_option maxRecDepth 10000

/-- Eight inserts, a delete of slot 0 and an empty insert reusing it: what the shift bug needs. -/
def fillOps : List Op :=
  List.replicate 7 (.addValue (List.replicate 500 1)) ++
    [.addValue (List.replicate 537 2), .deleteValue 0, .addValue []]

/-- The page and ghost the run `ops` from `Page::new(0)` reaches. -/
def runFromNew (ops : List Op) : Page × Ghost :=
  match runFrom (Page.new 0) ⟨(Page.new 0).liveCount, 0, fun _ => none⟩ ops with
  | .ok s => s
  | .error _ => (Page.new 0, ⟨0, 0, fun _ => none⟩)

theorem addValue_empty_drops_tail_record_filled :
    ∃ q, (runFromNew fillOps).1.addValue [] = .ok (some (runFromNew fillOps).1.getNumSlots, q) ∧
      q.getValue 7 = .ok none :=
  Page.addValue_empty_drops_tail_record (by decide) (by decide) (by decide) (by decide) (by decide)
    (by decide) (by decide)

/-- `fillOps` and one more empty insert, which shifts the body with no compaction first. -/
def shiftTruncationState : Page × Ghost := runFromNew (fillOps ++ [.addValue []])

theorem shiftTruncationState_run : Run shiftTruncationState.1 shiftTruncationState.2 :=
  @Run.runFrom _ _ (fillOps ++ [Op.addValue []]) _ (Run.new 0) rfl

/-- Slot 7's record is stored past `PAGE_SIZE`, so `get_value(7)` returns `None`. -/
theorem get_value_loses_shifted_record :
    ∃ q g, Run q g ∧ g.map 7 = some (List.replicate 537 2) ∧ q.getValue 7 = .ok none :=
  ⟨_, _, shiftTruncationState_run, by decide, rfl⟩

theorem shift_breaks_page_invariant : ∃ q g, Run q g ∧ ¬ q.Inv :=
  ⟨_, _, shiftTruncationState_run, by decide⟩

theorem shiftTruncationState_addValue :
    shiftTruncationState.1.addValue [5] = .error .outOfBounds := rfl

theorem add_value_panics_on_reachable_page :
    ∃ q g, Run q g ∧ q.addValue [5] = .error .outOfBounds :=
  ⟨_, _, shiftTruncationState_run, shiftTruncationState_addValue⟩

theorem add_value_refuses_fitting_record :
    ∃ q g, Run q g ∧ q.getFreeSpace = .ok 497 ∧
      (∀ t < q.getNumSlots, (q.slot t).inUse = slotInUseValid) ∧
      ¬ ∃ s q', q.addValue [5] = .ok (some s, q') :=
  ⟨_, _, shiftTruncationState_run, rfl, by decide, fun ⟨_, _, h⟩ => by
    rw [shiftTruncationState_addValue] at h
    cases h⟩

end Heapstore
