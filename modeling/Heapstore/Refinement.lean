import Heapstore.Run
import Heapstore.Insert
import Heapstore.Iter

namespace Heapstore

/-- The page stands for the run's map: it keeps the invariant and `get_value` reads the map. -/
def Refines (p : Page) (g : Ghost) : Prop := p.Inv ∧ ∀ t, p.getValue t = .ok (g.map t)

theorem refines_new (pageId : Nat) :
    Refines (Page.new pageId) ⟨(Page.new pageId).liveCount, 0, fun _ => none⟩ := by
  have hp := Page.inv_new pageId
  refine ⟨hp, fun t => ?_⟩
  rw [Page.getValue_eq hp.readable, if_neg fun h => absurd h.1 (by rw [Page.getNumSlots_new]; omega)]

/-- The state in which `add_value(&[])` cuts off a live record ending in the last 6 bytes. -/
def Page.TailHazard (p : Page) : Prop :=
  p.getNumSlots ≤ p.lowestFreeSlotId ∧
    p.getHeaderSize + p.liveBytes + bytesPerSlotMeta ≤ pageSize ∧
    ∃ t < p.getNumSlots, (p.slot t).inUse = slotInUseValid ∧
      pageSize < (p.slot t).offset + (p.slot t).length + bytesPerSlotMeta

instance (p : Page) : Decidable p.TailHazard := inferInstanceAs (Decidable (_ ∧ _ ∧ _))

/-- One call keeps the refinement unless it is an empty insert in the tail hazard. -/
theorem Refines.exec_of_not_hazard {p : Page} {g : Ghost} (hi : Refines p g) {op : Op}
    (hop : op = .addValue [] → ¬ p.TailHazard) :
    ∃ r q, p.exec op = .ok (r, q) ∧ Refines q (g.step op r q) := by
  cases op with
  | addValue b =>
    obtain ⟨⟨r, q⟩, h⟩ := Page.addValue_ok hi.1 b
    refine ⟨.added r, q, by rw [Page.exec, h]; rfl, ?_⟩
    rcases r with _ | s
    · rcases Page.addValue_eq_ok h with ⟨-, rfl, -⟩ | ⟨_, hs, -⟩
      · exact hi
      · cases hs
    -- an empty record that needs a new entry leaves no live record in the tail
    have hb : 0 < b.length ∨ p.lowestFreeSlotId < p.getNumSlots ∨
        ∀ t < p.getNumSlots, (p.slot t).inUse = slotInUseValid →
          (p.slot t).offset + (p.slot t).length + bytesPerSlotMeta ≤ pageSize := by
      rcases Nat.eq_zero_or_pos b.length with h0 | h0
      · obtain rfl := List.length_eq_zero.mp h0
        rcases Page.addValue_eq_ok h with ⟨h1, -⟩ | ⟨-, -, -, hfit, -⟩
        · cases h1
        by_cases hneed : p.getNumSlots ≤ p.lowestFreeSlotId
        · rw [if_pos hneed, List.length_nil] at hfit
          refine .inr (.inr fun t ht hv => Nat.le_of_not_lt fun hend => ?_)
          exact hop rfl ⟨hneed, by unfold bytesPerSlotMeta at hfit ⊢; omega, t, ht, hv, hend⟩
        · exact .inr (.inl (by omega))
      · exact .inl h0
    obtain ⟨hinv, hval⟩ := Page.addValue_keeps_inv hi.1 hb h
    obtain ⟨-, -, -, -, -, hq, hlt, off, hslot, hroom, hbytes⟩ := Page.addValue_some_spec h
    refine ⟨hinv, fun t => ?_⟩
    show q.getValue t = .ok (if t = s then some b else g.map t)
    by_cases hts : t = s
    · rw [if_pos hts, hts, Page.getValue_eq hq,
        if_pos ⟨hlt, by rw [hslot], by rw [hslot]; exact hroom⟩, hslot]
      exact congrArg (fun l => Except.ok (some l)) hbytes
    · rw [if_neg hts, hval t hts, hi.2 t]
  | deleteValue s =>
    obtain ⟨r, q, h, -, hnone, hinv, hs, hval⟩ := Page.deleteValue_spec hi.1 s
    refine ⟨.deleted r, q, by rw [Page.exec, h]; rfl, ?_⟩
    rcases r with _ | ⟨⟩
    · obtain rfl := hnone rfl
      exact hi
    refine ⟨hinv, fun t => ?_⟩
    show q.getValue t = .ok (if t = s then none else g.map t)
    by_cases hts : t = s
    · rw [if_pos hts, hts, hs]
    · rw [if_neg hts, hval t hts, hi.2 t]

theorem Refines.exec {p : Page} {g : Ghost} (hi : Refines p g) {op : Op}
    (hop : op ≠ .addValue []) : ∃ r q, p.exec op = .ok (r, q) ∧ Refines q (g.step op r q) :=
  hi.exec_of_not_hazard fun h => absurd h hop

/-- Outside the tail hazard, compacting only when the tail is too short is not observable. -/
theorem addValue_agrees_with_compact_first {p : Page} (hp : p.Inv) (b : List UInt8)
    (hb : b = [] → ¬ p.TailHazard) :
    ∃ pc r q q', p.compact = .ok pc ∧ p.addValue b = .ok (r, q) ∧ pc.addValue b = .ok (r, q') ∧
      ∀ t, q.getValue t = q'.getValue t := by
  obtain ⟨pc, hpc, hn, hflags, hval, hinv, hfs, -⟩ := Page.compact_inv hp
  obtain ⟨pc', hpc', -, -, -, -, -, hentry⟩ := Page.compact_layout hp
  obtain rfl : pc = pc' := Except.ok.inj (hpc.symm.trans hpc')
  have hL : pc.liveBytes = p.liveBytes :=
    Page.liveBytes_congr hn hflags fun t ht hv => (hentry t ht hv).1
  have hH : pc.getHeaderSize = p.getHeaderSize := by
    rw [Page.getHeaderSize_eq, Page.getHeaderSize_eq, hn]
  -- the compacted page is never in the tail hazard: its live records end at its free start
  have hpcz : ¬ pc.TailHazard := fun ⟨_, hroom, t, ht, hv, hend⟩ => by
    have := hinv.live_before_free t ht hv
    rw [hfs] at this
    rw [hH, hL] at hroom
    unfold bytesPerSlotMeta at hroom hend
    omega
  -- both pages stand for the map that `get_value` reads off `p`
  obtain ⟨m, hi⟩ : ∃ m, Refines p ⟨0, 0, m⟩ := ⟨_, hp, fun t => Page.getValue_eq hp.readable t⟩
  have hic : Refines pc ⟨0, 0, m⟩ := ⟨hinv, fun t => (hval t).trans (hi.2 t)⟩
  obtain ⟨q, hq⟩ := Page.addValue_reply hp b
  obtain ⟨q', hq'⟩ := Page.addValue_reply hinv b
  rw [Page.lowestFreeSlotId_congr hn hflags, hn, hH, hL] at hq'
  obtain ⟨r1, q1, h1, hr1⟩ := @Refines.exec_of_not_hazard p _ hi (.addValue b)
    fun h => hb (Op.addValue.inj h)
  obtain ⟨r2, q2, h2, hr2⟩ := @Refines.exec_of_not_hazard pc _ hic (.addValue b)
    fun _ => hpcz
  rw [Page.exec, hq] at h1
  rw [Page.exec, hq'] at h2
  obtain ⟨rfl, rfl⟩ := Prod.mk.inj (Except.ok.inj h1)
  obtain ⟨rfl, rfl⟩ := Prod.mk.inj (Except.ok.inj h2)
  exact ⟨pc, _, q, q', hpc, hq, hq', fun t => (hr1.2 t).trans (hr2.2 t).symm⟩

theorem addValue_agrees_with_compact_first_gap :
    ∃ p, p = ((((Page.new 0).setNumSlots 3).putSlot 0 26 1 slotInUseValid).putSlot 2 4090 1
        slotInUseValid).setFreeStart 4091 ∧ p.Inv ∧
      ([(5 : UInt8)] = [] → ¬ p.TailHazard) ∧
      (∃ q, p.addValue [5] = .ok (some 1, q) ∧ (q.slot 1).offset = 4091) ∧
      (∃ pc q', p.compact = .ok pc ∧ (pc.slot 2).offset = 27 ∧ pc.addValue [5] = .ok (some 1, q') ∧
        (q'.slot 1).offset = 28) ∧
      ∃ pc r q q', p.compact = .ok pc ∧ p.addValue [5] = .ok (r, q) ∧ pc.addValue [5] = .ok (r, q') ∧
        ∀ t, q.getValue t = q'.getValue t :=
  have hb : [(5 : UInt8)] ≠ [] := List.cons_ne_nil _ _
  ⟨_, rfl, by decide, (absurd · hb), ⟨_, rfl, rfl⟩, ⟨_, _, rfl, rfl, rfl, rfl⟩,
    addValue_agrees_with_compact_first (by decide) [5] (absurd · hb)⟩

/-- Deleting a record makes room for any record no longer than it. -/
theorem deleteValue_then_addValue {p : Page} (hp : p.Inv) {s : Nat} {v : List UInt8}
    (hv : p.getValue s = .ok (some v)) {b : List UInt8} (hb : b.length ≤ v.length) :
    ∃ q, p.deleteValue s = .ok (some (), q) ∧
      ∃ s' q', q.addValue b = .ok (some s', q') ∧ s' ≤ s := by
  rw [Page.getValue_eq hp.readable] at hv
  split_ifs at hv with hlive
  case neg => cases hv
  obtain ⟨hs, hvs, -⟩ := hlive
  have hlen : v.length = (p.slot s).length := by
    rw [← Option.some.inj (Except.ok.inj hv), Page.slice, List.length_map, List.length_range]
  obtain ⟨r, q, h, hiff, -, hq, -⟩ := Page.deleteValue_spec hp s
  obtain rfl := hiff.mpr ⟨hs, hvs⟩
  rcases Page.deleteValue_eq_ok h with ⟨h0, -⟩ | ⟨-, -, -, hw, rfl⟩
  · cases h0
  have hslot := @Page.slot_store_inUse p s slotInUseFree hw
  have hn := @Page.getNumSlots_store p (8 + 6 * s + 4) [slotInUseFree] (by omega)
  have hfree : ((p.store (8 + 6 * s + 4) [slotInUseFree]).slot s).inUse = slotInUseFree := by
    rw [hslot, if_pos rfl]
  -- the freed entry is free, so the lowest free slot is at or below it and needs no new entry
  have hlow : (p.store (8 + 6 * s + 4) [slotInUseFree]).lowestFreeSlotId ≤ s :=
    Nat.le_of_not_lt fun hlt => ((Page.lowestFreeSlotId_spec _).2 s hlt).2 hfree
  have hL := Page.liveBytes_free hn hs hvs (by rw [hfree]; decide) fun t ht => by rw [hslot, if_neg ht]
  have hH : (p.store (8 + 6 * s + 4) [slotInUseFree]).getHeaderSize = p.getHeaderSize := by
    rw [Page.getHeaderSize_eq, Page.getHeaderSize_eq, hn]
  obtain ⟨pc, -, -, -, hfs, hfp, -⟩ := Page.compact_layout hp
  obtain ⟨q', hq'⟩ := Page.addValue_reply hq b
  rw [if_neg (show ¬ (p.store (8 + 6 * s + 4) [slotInUseFree]).getNumSlots ≤ _ by omega),
    if_pos (by rw [hH]; omega)] at hq'
  exact ⟨_, h, _, q', hq', hlow⟩

theorem deleteValue_then_addValue_new :
    ∃ p, (Page.new 0).addValue [7, 8] = .ok (some 0, p) ∧ p.Inv ∧
      p.getValue 0 = .ok (some [7, 8]) ∧ [9].length ≤ [7, 8].length ∧
      ∃ q, p.deleteValue 0 = .ok (some (), q) ∧ ∃ s' q', q.addValue [9] = .ok (some s', q') ∧ s' ≤ 0 := by
  obtain ⟨p, hcall, hv⟩ : ∃ p, (Page.new 0).addValue [7, 8] = .ok (some 0, p) ∧
      p.getValue 0 = .ok (some [7, 8]) := ⟨_, rfl, rfl⟩
  have hp := (Page.addValue_keeps_inv (Page.inv_new 0) (.inl (by decide)) hcall).1
  exact ⟨p, hcall, hp, hv, by decide, deleteValue_then_addValue hp hv (by decide)⟩

theorem Refines.drain {p : Page} {g : Ghost} (hi : Refines p g) :
    p.intoIter.drain (p.getNumSlots + 1) =
      .ok (some ((List.range p.getNumSlots).filterMap fun t => (g.map t).map fun v => (v, t))) := by
  have hitem : ∀ t, p.valueItem t = (g.map t).map fun v => (v, t) := fun t => by
    rw [Page.valueItem, hi.2 t]
    cases g.map t <;> rfl
  rw [Page.intoIter, List.range_eq_range', HeapPageIntoIter.drain_from hi.1.readable _ 0 _
    (Nat.sub_zero _) (Nat.zero_le _) (Nat.lt_succ_self _), List.filterMap_congr fun t _ => hitem t]

theorem Refines.getFreeSpace {p : Page} {g : Ghost} (hi : Refines p g) :
    p.getFreeSpace = .ok (pageSize - p.getHeaderSize -
      (((List.range p.getNumSlots).filterMap g.map).map List.length).sum) := by
  have hitem : ∀ t ∈ List.range p.getNumSlots,
      (p.liveEntry t).map (fun e => e.2.2) = (g.map t).map List.length := fun t ht => by
    have hv := hi.2 t
    rw [Page.getValue_eq hi.1.readable] at hv
    unfold Page.liveEntry
    by_cases hvt : (p.slot t).inUse = slotInUseValid
    · have hfit := (hi.1.live_before_free t (List.mem_range.mp ht) hvt).trans hi.1.free_le_page
      rw [if_pos ⟨List.mem_range.mp ht, hvt, hfit⟩] at hv
      rw [if_pos hvt, ← Except.ok.inj hv]
      simp [Page.slice]
    · rw [if_neg fun h => hvt h.2.1] at hv
      rw [if_neg hvt, ← Except.ok.inj hv]
      rfl
  rw [Page.getFreeSpace_eq hi.1.readable, Page.liveBytes, Page.liveEntries, List.map_filterMap,
    List.map_filterMap, List.filterMap_congr hitem]

theorem Refines.runFrom {p : Page} {g : Ghost} (hi : Refines p g) (ops : List Op)
    (hops : ∀ op ∈ ops, op ≠ .addValue []) :
    ∃ q g', Heapstore.runFrom p g ops = .ok (q, g') ∧ Refines q g' := by
  induction ops generalizing p g with
  | nil => exact ⟨p, g, rfl, hi⟩
  | cons op ops ih =>
    obtain ⟨r, q, hexec, hq⟩ := hi.exec (hops op (List.mem_cons_self _ _))
    obtain ⟨q', g', hrun, hq'⟩ := ih hq fun o ho => hops o (List.mem_cons_of_mem _ ho)
    exact ⟨q', g', by rw [Heapstore.runFrom, hexec, ok_bind]; exact hrun, hq'⟩

/-- Every run from `Page::new` with no empty insert keeps the invariant and reads back its map. -/
theorem runFrom_new_refines (pageId : Nat) (ops : List Op) (hops : ∀ op ∈ ops, op ≠ .addValue []) :
    ∃ q g, runFrom (Page.new pageId) ⟨(Page.new pageId).liveCount, 0, fun _ => none⟩ ops =
      .ok (q, g) ∧ q.Inv ∧ ∀ t, q.getValue t = .ok (g.map t) :=
  (refines_new pageId).runFrom ops hops

theorem runFrom_new_refines_insert_delete :
    (∀ op ∈ [Op.addValue [1, 2], .addValue [3], .deleteValue 0], op ≠ .addValue []) ∧
      ∃ q g, runFrom (Page.new 0) ⟨(Page.new 0).liveCount, 0, fun _ => none⟩
          [.addValue [1, 2], .addValue [3], .deleteValue 0] = .ok (q, g) ∧
        q.Inv ∧ ∀ t, q.getValue t = .ok (g.map t) :=
  have hops : ∀ op ∈ [Op.addValue [1, 2], .addValue [3], .deleteValue 0], op ≠ .addValue [] := by
    decide
  ⟨hops, runFrom_new_refines 0 _ hops⟩

theorem runFrom_new_intoIter (pageId : Nat) (ops : List Op) (hops : ∀ op ∈ ops, op ≠ .addValue []) :
    ∃ q g, runFrom (Page.new pageId) ⟨(Page.new pageId).liveCount, 0, fun _ => none⟩ ops =
      .ok (q, g) ∧ q.intoIter.drain (q.getNumSlots + 1) =
        .ok (some ((List.range q.getNumSlots).filterMap fun t => (g.map t).map fun v => (v, t))) :=
  let ⟨q, g, hrun, hi⟩ := (refines_new pageId).runFrom ops hops
  ⟨q, g, hrun, hi.drain⟩

theorem runFrom_new_intoIter_insert_delete :
    (∀ op ∈ [Op.addValue [1, 2], .addValue [3], .deleteValue 0], op ≠ .addValue []) ∧
      ∃ q g, runFrom (Page.new 0) ⟨(Page.new 0).liveCount, 0, fun _ => none⟩
          [.addValue [1, 2], .addValue [3], .deleteValue 0] = .ok (q, g) ∧
        q.intoIter.drain (q.getNumSlots + 1) =
          .ok (some ((List.range q.getNumSlots).filterMap fun t => (g.map t).map fun v => (v, t))) :=
  have hops : ∀ op ∈ [Op.addValue [1, 2], .addValue [3], .deleteValue 0], op ≠ .addValue [] := by
    decide
  ⟨hops, runFrom_new_intoIter 0 _ hops⟩

theorem runFrom_new_freeSpace (pageId : Nat) (ops : List Op) (hops : ∀ op ∈ ops, op ≠ .addValue []) :
    ∃ q g, runFrom (Page.new pageId) ⟨(Page.new pageId).liveCount, 0, fun _ => none⟩ ops =
      .ok (q, g) ∧ q.getFreeSpace = .ok (pageSize - q.getHeaderSize -
        (((List.range q.getNumSlots).filterMap g.map).map List.length).sum) :=
  let ⟨q, g, hrun, hi⟩ := (refines_new pageId).runFrom ops hops
  ⟨q, g, hrun, hi.getFreeSpace⟩

theorem runFrom_new_freeSpace_insert_delete :
    (∀ op ∈ [Op.addValue [1, 2], .addValue [3], .deleteValue 0], op ≠ .addValue []) ∧
      ∃ q g, runFrom (Page.new 0) ⟨(Page.new 0).liveCount, 0, fun _ => none⟩
          [.addValue [1, 2], .addValue [3], .deleteValue 0] = .ok (q, g) ∧
        q.getFreeSpace = .ok (pageSize - q.getHeaderSize -
          (((List.range q.getNumSlots).filterMap g.map).map List.length).sum) :=
  have hops : ∀ op ∈ [Op.addValue [1, 2], .addValue [3], .deleteValue 0], op ≠ .addValue [] := by
    decide
  ⟨hops, runFrom_new_freeSpace 0 _ hops⟩

theorem Refines.runFrom_until_hazard {p : Page} {g : Ghost} (hi : Refines p g) (ops : List Op) :
    (∃ q g', Heapstore.runFrom p g ops = .ok (q, g') ∧ Refines q g') ∨
      ∃ pre post q g', ops = pre ++ .addValue [] :: post ∧
        Heapstore.runFrom p g pre = .ok (q, g') ∧ Refines q g' ∧ q.TailHazard := by
  induction ops generalizing p g with
  | nil => exact .inl ⟨p, g, rfl, hi⟩
  | cons op ops ih =>
    by_cases hz : op = .addValue [] ∧ p.TailHazard
    · obtain ⟨rfl, hz⟩ := hz
      exact .inr ⟨[], ops, p, g, rfl, rfl, hi, hz⟩
    obtain ⟨r, q, hexec, hq⟩ := hi.exec_of_not_hazard fun h hz' => hz ⟨h, hz'⟩
    have hstep : ∀ {l : List Op}, Heapstore.runFrom p g (op :: l) =
        Heapstore.runFrom q (g.step op r q) l := by
      intro l
      rw [Heapstore.runFrom, hexec, ok_bind]
    rcases ih hq with ⟨q', g', hrun, hq'⟩ | ⟨pre, post, q', g', rfl, hrun, hq', hz'⟩
    · exact .inl ⟨q', g', hstep.trans hrun, hq'⟩
    · exact .inr ⟨op :: pre, post, q', g', rfl, hstep.trans hrun, hq', hz'⟩

/-- Every run from `Page::new` refines its map up to the first empty insert in the tail hazard. -/
theorem runFrom_new_refines_until_hazard (pageId : Nat) (ops : List Op) :
    (∃ q g, runFrom (Page.new pageId) ⟨(Page.new pageId).liveCount, 0, fun _ => none⟩ ops =
        .ok (q, g) ∧ q.Inv ∧ ∀ t, q.getValue t = .ok (g.map t)) ∨
      ∃ pre post q g, ops = pre ++ .addValue [] :: post ∧
        runFrom (Page.new pageId) ⟨(Page.new pageId).liveCount, 0, fun _ => none⟩ pre =
          .ok (q, g) ∧ q.Inv ∧ (∀ t, q.getValue t = .ok (g.map t)) ∧ q.TailHazard :=
  ((refines_new pageId).runFrom_until_hazard ops).imp
    (fun ⟨q, g, hrun, hi⟩ => ⟨q, g, hrun, hi.1, hi.2⟩)
    fun ⟨pre, post, q, g, hops, hrun, hi, hz⟩ => ⟨pre, post, q, g, hops, hrun, hi.1, hi.2, hz⟩

end Heapstore
