import Heapstore.Header
import Mathlib.Data.List.Sort
import Mathlib.Algebra.Order.Ring.Nat

namespace Heapstore

namespace Page

/-- The loop of `find_lowest_free_slot_id`: the first id whose entry is free, else `num_slots`. -/
def findFree (p : Page) (numSlots : Nat) : List Nat → Except Panic Nat
  | [] => .ok numSlots
  | slotId :: rest => do
    let u ← p.getSlotInUse slotId
    if (u.map (· == slotInUseFree)).getD true then pure slotId else p.findFree numSlots rest

/-- `find_lowest_free_slot_id`. -/
def findLowestFreeSlotId (p : Page) : Except Panic Nat :=
  p.findFree p.getNumSlots (List.range p.getNumSlots)

/-- The `filter_map` of `iter_used_slots`: `(slot_id, offset, length)` of each valid entry. -/
def usedFrom (p : Page) : List Nat → Except Panic (List (Nat × Nat × Nat))
  | [] => .ok []
  | sid :: rest => do
    let u ← p.getSlotInUse sid
    let entry ← if (u.map (· == slotInUseValid)).getD false then
        (p.getSlotOffsetLength sid).map (Option.map fun (off, len) => (sid, off, len))
      else pure none
    let entries ← p.usedFrom rest
    pure (entry.toList ++ entries)

/-- The live slots as `compact` collects them, in slot order. -/
def usedSlots (p : Page) : Except Panic (List (Nat × Nat × Nat)) :=
  p.usedFrom (List.range p.getNumSlots)

/-- `iter_used_slots`. -/
def iterUsedSlots (p : Page) : Except Panic (List (Nat × Nat)) :=
  p.usedSlots.map (List.map fun (sid, _, len) => (sid, len))

/-- `get_free_space`; `saturating_sub` is truncated subtraction. -/
def getFreeSpace (p : Page) : Except Panic Nat := do
  let used ← p.iterUsedSlots
  pure (pageSize - p.getHeaderSize - (used.map Prod.snd).sum)

/-- `sort_by_key` on the offset: a stable sort, keeping slot order among equal offsets. -/
def sortByOffset (used : List (Nat × Nat × Nat)) : List (Nat × Nat × Nat) :=
  used.insertionSort fun a b => a.2.1 ≤ b.2.1

/-- The loop of `compact` over the sorted live slots, from `write_pos`. -/
def compactLoop : List (Nat × Nat × Nat) → Page → Nat → Except Panic (Page × Nat)
  | [], p, writePos => .ok (p, writePos)
  | (slotId, oldOffset, length) :: rest, p, writePos => do
    let p ← if oldOffset ≠ writePos then p.copyWithin oldOffset length writePos else pure p
    let p ← p.writeSlot slotId writePos length slotInUseValid
    compactLoop rest p (writePos + length)

/-- `compact`: every live record slides to the body start, in order of offset. -/
def compact (p : Page) : Except Panic Page := do
  let numSlots := p.getNumSlots
  let bodyStart := fixedPageMetaSize + numSlots * bytesPerSlotMeta
  let used ← p.usedSlots
  let (p, writePos) ← compactLoop (sortByOffset used) p bodyStart
  pure (p.setFreeStart writePos)

/-- The loop of `shift_body_for_new_slot`: each valid entry's offset grows by 6, stored `as u16`. -/
def bumpOffsets : List Nat → Page → Except Panic Page
  | [], p => .ok p
  | sid :: rest, p => do
    let u ← p.getSlotInUse sid
    let p ← if (u.map (· == slotInUseValid)).getD false then do
        match ← p.getSlotOffsetLength sid with
        | some (off, len) => p.writeSlot sid (off + bytesPerSlotMeta) len slotInUseValid
        | none => pure p
      else pure p
    bumpOffsets rest p

/-- `shift_body_for_new_slot`. `PAGE_SIZE - new_body_start` panics below zero. -/
def shiftBodyForNewSlot (p : Page) : Except Panic Page := do
  let numSlots := p.getNumSlots
  let oldBodyStart := fixedPageMetaSize + numSlots * bytesPerSlotMeta
  let newBodyStart := oldBodyStart + bytesPerSlotMeta
  let freeStart := p.getFreeStart
  let bodyLen := freeStart - oldBodyStart
  let p ← if 0 < bodyLen then
      if newBodyStart ≤ pageSize then
        p.copyWithin oldBodyStart (min bodyLen (pageSize - newBodyStart)) newBodyStart
      else .error .subtractOverflow
    else pure p
  let p ← p.writeBytes oldBodyStart (List.replicate bytesPerSlotMeta 0)
  let p ← bumpOffsets (List.range numSlots) p
  pure (p.setFreeStart (min (freeStart + bytesPerSlotMeta) pageSize))

/-- `add_value`: the slot id it returns and the page after the call. -/
def addValue (p : Page) (bytes : List UInt8) : Except Panic (Option Nat × Page) := do
  let valueLen := bytes.length
  if pageSize < valueLen then
    return (none, p)
  let slotId ← p.findLowestFreeSlotId
  let numSlots := p.getNumSlots
  let needNewSlot := numSlots ≤ slotId
  let extraHeader := if needNewSlot then bytesPerSlotMeta else 0
  let freeSpace ← p.getFreeSpace
  if freeSpace < valueLen + extraHeader then
    return (none, p)
  let contiguousSpace := pageSize - (p.getFreeStart + extraHeader)
  let p ← (if contiguousSpace < valueLen then p.compact else pure p)
  let p ← (if needNewSlot then do
      let p ← (if 0 < numSlots then p.shiftBodyForNewSlot else pure p)
      pure (p.setNumSlots (numSlots + 1))
    else pure p)
  let insertOffset := p.getFreeStart
  if pageSize < insertOffset + valueLen then
    return (none, p)
  let p ← p.writeBytes insertOffset bytes
  let p ← p.writeSlot slotId insertOffset valueLen slotInUseValid
  pure (some slotId, p.setFreeStart (insertOffset + valueLen))

/-- `get_value`: `None` for a slot out of range, free, or whose range runs past the page. -/
def getValue (p : Page) (slotId : Nat) : Except Panic (Option (List UInt8)) := do
  match ← p.getSlotInUse slotId with
  | none => pure none
  | some u =>
    if u ≠ slotInUseValid then pure none else
    match ← p.getSlotOffsetLength slotId with
    | none => pure none
    | some (offset, length) =>
      if pageSize < offset + length then pure none
      else pure (some (p.slice offset length))

/-- `delete_value`: marks a live slot free. -/
def deleteValue (p : Page) (slotId : Nat) : Except Panic (Option Unit × Page) := do
  if p.getNumSlots ≤ slotId then
    return (none, p)
  match ← p.getSlotInUse slotId with
  | none => pure (none, p)
  | some u =>
    if u ≠ slotInUseValid then pure (none, p) else do
    let p ← p.setSlotInUse slotId slotInUseFree
    pure (some (), p)

end Page

end Heapstore
