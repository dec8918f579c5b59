import Heapstore.AddValue
import Heapstore.DeleteValue

namespace Heapstore

/-- A call of the `HeapPage` interface. -/
inductive Op
  | addValue (bytes : List UInt8)
  | deleteValue (slotId : Nat)
  deriving DecidableEq, Repr

/-- What a call returned. -/
inductive Reply
  | added (slotId : Option Nat)
  | deleted (result : Option Unit)
  deriving DecidableEq, Repr

/-- One for an insert that returned a slot, zero for any other reply. -/
def Reply.inserted : Reply → Nat
  | .added (some _) => 1
  | _ => 0

namespace Page

/-- One call on the page. -/
def exec (p : Page) : Op → Except Panic (Reply × Page)
  | .addValue bytes => (p.addValue bytes).map fun (r, q) => (.added r, q)
  | .deleteValue slotId => (p.deleteValue slotId).map fun (r, q) => (.deleted r, q)

end Page

/-- What a run has seen: the peak of live slots, the successful inserts, and the slot map. -/
structure Ghost where
  peak : Nat
  inserts : Nat
  map : Nat → Option (List UInt8)

/-- The ghost state after a call `op` that replied `r` and left page `q`. -/
def Ghost.step (g : Ghost) (op : Op) (r : Reply) (q : Page) : Ghost where
  peak := max g.peak q.liveCount
  inserts := g.inserts + r.inserted
  map := match op, r with
    | .addValue bytes, .added (some s) => fun t => if t = s then some bytes else g.map t
    | .deleteValue s, .deleted (some ()) => fun t => if t = s then none else g.map t
    | _, _ => g.map

/-- The runs of calls from `Page::new`, each state with its ghost. A panic ends a run. -/
inductive Run : Page → Ghost → Prop
  | new (pageId : Nat) : Run (Page.new pageId) ⟨(Page.new pageId).liveCount, 0, fun _ => none⟩
  | step {p q : Page} {g : Ghost} {op : Op} {r : Reply} :
      Run p g → p.exec op = .ok (r, q) → Run q (g.step op r q)

/-- The calls `ops` made one after another from page `p` with ghost `g`; a panic ends the run. -/
def runFrom (p : Page) (g : Ghost) : List Op → Except Panic (Page × Ghost)
  | [] => .ok (p, g)
  | op :: ops => do
    let (r, q) ← p.exec op
    runFrom q (g.step op r q) ops

theorem Run.runFrom {p : Page} {g : Ghost} {ops : List Op} {s : Page × Ghost} (h : Run p g)
    (hs : Heapstore.runFrom p g ops = .ok s) : Run s.1 s.2 := by
  induction ops generalizing p g with
  | nil =>
    cases hs
    exact h
  | cons op ops ih =>
    obtain ⟨⟨r, q⟩, hexec, hs⟩ := bind_eq_ok.mp hs
    exact ih (h.step hexec) hs

/-- What the slot count law rests on: flags free or valid, and `num_slots` = peak ≤ inserts. -/
structure PeakInv (p : Page) (g : Ghost) : Prop where
  in_use_flag : ∀ t < p.getNumSlots,
    (p.slot t).inUse = slotInUseFree ∨ (p.slot t).inUse = slotInUseValid
  num_eq_peak : p.getNumSlots = g.peak
  num_le_inserts : p.getNumSlots ≤ g.inserts

namespace PeakInv

variable {p q : Page} {g : Ghost}

theorem addValue_some {b : List UInt8} {s : Nat} (hi : PeakInv p g)
    (h : p.addValue b = .ok (some s, q)) :
    PeakInv q (g.step (.addValue b) (.added (some s)) q) ∧ p.getNumSlots ≤ q.getNumSlots := by
  obtain ⟨rfl, -, hn, hv, hfl, -⟩ := Page.addValue_some_spec h
  have hfree := (Page.lowestFreeSlotId_spec p).2
  have hle := Page.lowestFreeSlotId_le p
  have hlive := Page.liveCount_le q
  have hflags : ∀ t < q.getNumSlots,
      (q.slot t).inUse = slotInUseFree ∨ (q.slot t).inUse = slotInUseValid := by
    intro t ht
    by_cases hts : t = p.lowestFreeSlotId
    · exact .inr (hts ▸ hv)
    · have htn : t < p.getNumSlots := by
        rw [hn] at ht
        split at ht <;> omega
      rw [hfl t htn hts]
      exact hi.in_use_flag t htn
  have := hi.num_eq_peak
  have := hi.num_le_inserts
  refine ⟨⟨hflags, ?_, ?_⟩, ?_⟩
  · simp only [Ghost.step]
    by_cases hns : p.getNumSlots ≤ p.lowestFreeSlotId
    · have hall : q.liveCount = q.getNumSlots := Page.liveCount_eq_getNumSlots fun t ht => by
        by_cases hts : t = p.lowestFreeSlotId
        · exact hts ▸ hv
        · have htn : t < p.getNumSlots := by
            rw [hn, if_pos hns] at ht
            omega
          rw [hfl t htn hts]
          exact (hi.in_use_flag t htn).resolve_left (hfree t (by omega)).2
      rw [hall, hn, if_pos hns]
      omega
    · rw [hn, if_neg hns] at hlive ⊢
      omega
  · simp only [Ghost.step, Reply.inserted]
    rw [hn]
    split <;> omega
  · rw [hn]
    split <;> omega

theorem exec (hi : PeakInv p g) {op : Op} {r : Reply} (h : p.exec op = .ok (r, q)) :
    PeakInv q (g.step op r q) ∧ p.getNumSlots ≤ q.getNumSlots := by
  cases op with
  | addValue b =>
    obtain ⟨⟨r', q'⟩, hadd, he⟩ := map_eq_ok.mp h
    cases he
    rcases r' with _ | s
    · rcases Page.addValue_eq_ok hadd with ⟨-, rfl, -⟩ | ⟨_, hs, -⟩
      · have := Page.liveCount_le q
        have := hi.num_eq_peak
        exact ⟨⟨hi.in_use_flag, by simp only [Ghost.step]; omega,
          by simpa [Ghost.step, Reply.inserted] using hi.num_le_inserts⟩, le_rfl⟩
      · cases hs
    · exact hi.addValue_some hadd
  | deleteValue s =>
    obtain ⟨⟨r', q'⟩, hdel, he⟩ := map_eq_ok.mp h
    cases he
    have hsame : q.getNumSlots = p.getNumSlots ∧ ∀ t < q.getNumSlots,
        (q.slot t).inUse = slotInUseFree ∨ (q.slot t).inUse = slotInUseValid := by
      rcases Page.deleteValue_eq_ok hdel with ⟨-, rfl⟩ | ⟨-, -, -, hr, rfl⟩
      · exact ⟨rfl, hi.in_use_flag⟩
      · rw [Page.getNumSlots_store _ (by omega)]
        refine ⟨rfl, fun t ht => ?_⟩
        rw [Page.slot_store_inUse _ hr]
        split
        · exact .inl rfl
        · exact hi.in_use_flag t ht
    have hlive := Page.liveCount_le q
    refine ⟨⟨hsame.2, ?_, ?_⟩, hsame.1.ge⟩ <;> simp only [Ghost.step, Reply.inserted] <;>
      have := hi.num_eq_peak <;> have := hi.num_le_inserts <;> omega

end PeakInv

theorem Run.peakInv {p : Page} {g : Ghost} (h : Run p g) : PeakInv p g := by
  induction h with
  | new pageId => exact ⟨by simp [Page.getNumSlots_new], by
      simp [Page.getNumSlots_new, Page.liveCount, Page.liveEntries], by simp [Page.getNumSlots_new]⟩
  | step _ hexec ih => exact (ih.exec hexec).1

theorem run_numSlots_eq_peak {p : Page} {g : Ghost} (h : Run p g) :
    p.getNumSlots = g.peak ∧ p.getHeaderSize ≤ 8 + 6 * g.inserts ∧
      ∀ op r q, p.exec op = .ok (r, q) → p.getNumSlots ≤ q.getNumSlots := by
  have hi := h.peakInv
  refine ⟨hi.num_eq_peak, ?_, fun _ _ _ hexec => (hi.exec hexec).2⟩
  rw [Page.getHeaderSize_eq]
  have := hi.num_le_inserts
  omega

theorem run_numSlots_eq_peak_reuse :
    ∃ q g, runFrom (Page.new 0) ⟨(Page.new 0).liveCount, 0, fun _ => none⟩
        [.addValue [1], .addValue [2], .deleteValue 0, .addValue [3]] = .ok (q, g) ∧
      g.peak = 2 ∧ g.inserts = 3 ∧ q.getNumSlots = g.peak ∧ q.getHeaderSize ≤ 8 + 6 * g.inserts ∧
      ∀ op r q', q.exec op = .ok (r, q') → q.getNumSlots ≤ q'.getNumSlots :=
  let ⟨q, g, h, hpeak, hins⟩ : ∃ q g, runFrom (Page.new 0) ⟨(Page.new 0).liveCount, 0, fun _ => none⟩
      [.addValue [1], .addValue [2], .deleteValue 0, .addValue [3]] = .ok (q, g) ∧
      g.peak = 2 ∧ g.inserts = 3 := ⟨_, _, rfl, rfl, rfl⟩
  ⟨q, g, h, hpeak, hins, run_numSlots_eq_peak ((Run.new 0).runFrom h)⟩

end Heapstore
