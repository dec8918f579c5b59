import Heapstore.Directory

namespace Heapstore

/-- `HeapPageIntoIter`: the page, `current_slot` (a `u16`), and the slot count read at creation. -/
structure HeapPageIntoIter where
  page : Page
  currentSlot : Nat
  numSlots : Nat

namespace HeapPageIntoIter

/-- `next`: skip slots whose `get_value` is `None`; `current_slot += 1` panics past `u16::MAX`. -/
def next (it : HeapPageIntoIter) : Except Panic (Option (List UInt8 × Nat) × HeapPageIntoIter) :=
  if it.currentSlot < it.numSlots then
    if it.currentSlot + 1 < 65536 then do
      let slotId := it.currentSlot
      let it' : HeapPageIntoIter := ⟨it.page, slotId + 1, it.numSlots⟩
      match ← it.page.getValue slotId with
      | some value => pure (some (value, slotId), it')
      | none => it'.next
    else .error .addOverflow
  else .ok (none, it)
termination_by it.numSlots - it.currentSlot

/-- A complete traversal: `next` until `None`, at most `calls` times; `none` when calls run out. -/
def drain (it : HeapPageIntoIter) : Nat → Except Panic (Option (List (List UInt8 × Nat)))
  | 0 => .ok none
  | calls + 1 => do
    match ← it.next with
    | (none, _) => pure (some [])
    | (some item, it') => return (← it'.drain calls).map (item :: ·)

end HeapPageIntoIter

namespace Page

/-- `into_iter`. -/
def intoIter (p : Page) : HeapPageIntoIter := ⟨p, 0, p.getNumSlots⟩

/-- `(value, slot_id)` when `get_value(slot_id)` returns `Some(value)`. -/
def valueItem (p : Page) (slotId : Nat) : Option (List UInt8 × Nat) :=
  match p.getValue slotId with
  | .ok (some value) => some (value, slotId)
  | _ => none

end Page

namespace HeapPageIntoIter

variable {p : Page} {c n : Nat}

theorem next_of_le (h : n ≤ c) : next ⟨p, c, n⟩ = .ok (none, ⟨p, c, n⟩) := by
  rw [next, if_neg (by simp only; omega)]

theorem next_of_none (hc : c < n) (hn : n < 65536) (hv : p.getValue c = .ok none) :
    next ⟨p, c, n⟩ = next ⟨p, c + 1, n⟩ := by
  rw [next, if_pos hc, if_pos (by simp only; omega)]
  simp only [hv, ok_bind]

theorem next_of_some {v : List UInt8} (hc : c < n) (hn : n < 65536)
    (hv : p.getValue c = .ok (some v)) : next ⟨p, c, n⟩ = .ok (some (v, c), ⟨p, c + 1, n⟩) := by
  rw [next, if_pos hc, if_pos (by simp only; omega)]
  simp only [hv, ok_bind]
  rfl

theorem drain_from (hr : p.DirectoryReadable) :
    ∀ d c k, p.getNumSlots - c = d → c ≤ p.getNumSlots → d < k →
      drain ⟨p, c, p.getNumSlots⟩ k = .ok (some ((List.range' c d).filterMap p.valueItem))
  | d, c, 0, _, _, hk => absurd hk (Nat.not_lt_zero d)
  | 0, c, k + 1, hd, hc, _ => by
    rw [drain, next_of_le (by omega)]
    rfl
  | d + 1, c, k + 1, hd, hc, hk => by
    have hn := p.getNumSlots_lt
    have hv := p.getValue_eq hr c
    rw [List.range'_succ, List.filterMap_cons]
    split at hv
    · rw [drain, next_of_some (by omega) hn hv, ok_bind]
      simp only
      rw [drain_from hr d (c + 1) k (by omega) (by omega) (by omega), ok_bind]
      simp only [Page.valueItem, hv, Option.map_some']
      rfl
    · rw [show drain ⟨p, c, p.getNumSlots⟩ (k + 1) = drain ⟨p, c + 1, p.getNumSlots⟩ (k + 1) by
        simp only [drain, next_of_none (by omega) hn hv],
        drain_from hr d (c + 1) (k + 1) (by omega) (by omega) (by omega)]
      simp only [Page.valueItem, hv]

end HeapPageIntoIter

namespace Page

end Page

end Heapstore
