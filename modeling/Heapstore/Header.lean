import Heapstore.Page

namespace Heapstore

/-- `PAGE_META_NUM_SLOTS_OFFSET`. -/
def pageMetaNumSlotsOffset : Nat := 2

/-- `PAGE_META_FREE_START_OFFSET`. -/
def pageMetaFreeStartOffset : Nat := 4

/-- `PAGE_META_RESERVED_OFFSET`: the reserved padding after `free_start`. -/
def pageMetaReservedOffset : Nat := 6

/-- `FIXED_PAGE_META_SIZE`. -/
def fixedPageMetaSize : Nat := 8

/-- `BYTES_PER_SLOT_META`. -/
def bytesPerSlotMeta : Nat := 6

/-- `SLOT_OFFSET_OFFSET`. -/
def slotOffsetOffset : Nat := 0

/-- `SLOT_LENGTH_OFFSET`. -/
def slotLengthOffset : Nat := 2

/-- `SLOT_IN_USE_OFFSET`. -/
def slotInUseOffset : Nat := 4

/-- `SLOT_IN_USE_VALID`. -/
def slotInUseValid : UInt8 := 1

/-- `SLOT_IN_USE_FREE`. -/
def slotInUseFree : UInt8 := 0

/-- One decoded slot entry: `offset`, `length` and the `in_use` flag. -/
structure SlotEntry where
  offset : Nat
  length : Nat
  inUse : UInt8
  deriving DecidableEq, Repr

namespace Page

/-- `get_num_slots`. -/
def getNumSlots (p : Page) : Nat := p.u16At pageMetaNumSlotsOffset

/-- `set_num_slots(n)`, which stores `n as u16`. -/
def setNumSlots (p : Page) (n : Nat) : Page := p.store pageMetaNumSlotsOffset (leBytes n)

/-- `get_header_size`: the fixed metadata and one entry per slot; the body starts here. -/
def getHeaderSize (p : Page) : Nat := fixedPageMetaSize + p.getNumSlots * bytesPerSlotMeta

/-- The `free_start` field as it is stored. -/
def storedFreeStart (p : Page) : Nat := p.u16At pageMetaFreeStartOffset

/-- `get_free_start`: the stored value raised to the body start and capped at `PAGE_SIZE`. -/
def getFreeStart (p : Page) : Nat :=
  let bodyStart := fixedPageMetaSize + p.getNumSlots * bytesPerSlotMeta
  let stored := p.storedFreeStart
  let raw := if stored < bodyStart then bodyStart else stored
  min raw pageSize

/-- `set_free_start(pos)`, capped at `PAGE_SIZE`. -/
def setFreeStart (p : Page) (pos : Nat) : Page :=
  p.store pageMetaFreeStartOffset (leBytes (min pos pageSize))

/-- `slot_meta_offset`. -/
def slotMetaOffset (slotId : Nat) : Nat := fixedPageMetaSize + slotId * bytesPerSlotMeta

/-- The entry at `slot_meta_offset(slotId)`, decoded whether or not it is in range. -/
def slot (p : Page) (slotId : Nat) : SlotEntry where
  offset := p.u16At (slotMetaOffset slotId + slotOffsetOffset)
  length := p.u16At (slotMetaOffset slotId + slotLengthOffset)
  inUse := p.byte (slotMetaOffset slotId + slotInUseOffset)

/-- `get_slot_offset_length`: `None` past `num_slots`; an entry past the page panics. -/
def getSlotOffsetLength (p : Page) (slotId : Nat) : Except Panic (Option (Nat × Nat)) :=
  if p.getNumSlots ≤ slotId then .ok none
  else if slotMetaOffset slotId + slotLengthOffset + 2 ≤ pageSize then
    .ok (some ((p.slot slotId).offset, (p.slot slotId).length))
  else .error .outOfBounds

/-- `get_slot_in_use`. -/
def getSlotInUse (p : Page) (slotId : Nat) : Except Panic (Option UInt8) :=
  if p.getNumSlots ≤ slotId then .ok none
  else some <$> p.get (slotMetaOffset slotId + slotInUseOffset)

/-- `set_slot_in_use`. -/
def setSlotInUse (p : Page) (slotId : Nat) (inUse : UInt8) : Except Panic Page :=
  p.writeBytes (slotMetaOffset slotId + slotInUseOffset) [inUse]

/-- `write_slot`; `offset` and `length` are stored `as u16`. -/
def writeSlot (p : Page) (slotId offset length : Nat) (inUse : UInt8) : Except Panic Page := do
  let base := slotMetaOffset slotId
  let p ← p.writeBytes base (leBytes offset)
  let p ← p.writeBytes (base + 2) (leBytes length)
  p.writeBytes (base + slotInUseOffset) [inUse]

/-- The page `write_slot` produces when it does not panic. -/
def putSlot (p : Page) (slotId offset length : Nat) (inUse : UInt8) : Page :=
  let base := slotMetaOffset slotId
  ((p.store base (leBytes offset)).store (base + 2) (leBytes length)).store
    (base + slotInUseOffset) [inUse]

@[simp] theorem slotMetaOffset_eq (s : Nat) : slotMetaOffset s = 8 + 6 * s := by
  unfold slotMetaOffset fixedPageMetaSize bytesPerSlotMeta
  omega

theorem getNumSlots_lt (p : Page) : p.getNumSlots < 65536 := p.u16At_lt _

theorem getHeaderSize_eq (p : Page) : p.getHeaderSize = 8 + 6 * p.getNumSlots := by
  unfold getHeaderSize fixedPageMetaSize bytesPerSlotMeta
  omega

theorem getFreeStart_eq (p : Page) :
    p.getFreeStart = min (max p.storedFreeStart p.getHeaderSize) pageSize := by
  simp only [getFreeStart, getHeaderSize]
  split <;> omega

theorem getFreeStart_le (p : Page) : p.getFreeStart ≤ pageSize := by
  rw [getFreeStart_eq]
  omega

theorem slot_eq (p : Page) (s : Nat) :
    p.slot s = ⟨p.u16At (8 + 6 * s), p.u16At (8 + 6 * s + 2), p.byte (8 + 6 * s + 4)⟩ := by
  simp [slot, slotOffsetOffset, slotLengthOffset, slotInUseOffset]

theorem getNumSlots_new (pageId : Nat) : (new pageId).getNumSlots = 0 := by
  unfold new getNumSlots pageMetaNumSlotsOffset
  rw [u16At_store_of_disjoint _ (by simp), u16At_store_leBytes _ _ (by decide)]
  rfl

theorem storedFreeStart_new (pageId : Nat) : (new pageId).storedFreeStart = 8 := by
  unfold new storedFreeStart pageMetaFreeStartOffset
  rw [u16At_store_leBytes _ _ (by decide)]
  rfl

theorem getNumSlots_store (p : Page) {pos : Nat} {bs : List UInt8} (h : 4 ≤ pos) :
    (p.store pos bs).getNumSlots = p.getNumSlots :=
  u16At_store_of_disjoint _ (by unfold pageMetaNumSlotsOffset; omega)

theorem storedFreeStart_store (p : Page) {pos : Nat} {bs : List UInt8}
    (h : 6 ≤ pos ∨ pos + bs.length ≤ 4) : (p.store pos bs).storedFreeStart = p.storedFreeStart :=
  u16At_store_of_disjoint _ (by unfold pageMetaFreeStartOffset; omega)

theorem slot_store (p : Page) {pos t : Nat} {bs : List UInt8}
    (h : 8 + 6 * t + 5 ≤ pos ∨ pos + bs.length ≤ 8 + 6 * t) : (p.store pos bs).slot t = p.slot t := by
  simp only [slot_eq, SlotEntry.mk.injEq]
  refine ⟨u16At_store_of_disjoint _ ?_, u16At_store_of_disjoint _ ?_, byte_store_of_not_mem _ ?_⟩ <;>
    omega

theorem getNumSlots_move (p : Page) {src len dest : Nat} (h : 4 ≤ dest) :
    (p.move src len dest).getNumSlots = p.getNumSlots :=
  u16At_move_of_disjoint _ (by unfold pageMetaNumSlotsOffset; omega)

theorem storedFreeStart_move (p : Page) {src len dest : Nat} (h : 6 ≤ dest) :
    (p.move src len dest).storedFreeStart = p.storedFreeStart :=
  u16At_move_of_disjoint _ (by unfold pageMetaFreeStartOffset; omega)

theorem slot_move (p : Page) {src len dest t : Nat} (h : 8 + 6 * t + 5 ≤ dest) :
    (p.move src len dest).slot t = p.slot t := by
  simp only [slot_eq, SlotEntry.mk.injEq]
  refine ⟨u16At_move_of_disjoint _ ?_, u16At_move_of_disjoint _ ?_, byte_move_of_not_mem _ ?_⟩ <;>
    omega

theorem writeSlot_eq_ok {p q : Page} {s o l : Nat} {u : UInt8} :
    p.writeSlot s o l u = .ok q ↔ 8 + 6 * s + 5 ≤ pageSize ∧ q = p.putSlot s o l u := by
  simp only [writeSlot, putSlot, bind_eq_ok, writeBytes_eq_ok, slotMetaOffset_eq, slotInUseOffset,
    leBytes_length, List.length_singleton]
  constructor
  · rintro ⟨_, ⟨_, rfl⟩, _, ⟨_, rfl⟩, h, rfl⟩
    exact ⟨by omega, rfl⟩
  · rintro ⟨h, rfl⟩
    exact ⟨_, ⟨by omega, rfl⟩, _, ⟨by omega, rfl⟩, by omega, rfl⟩

theorem getNumSlots_putSlot (p : Page) (s o l : Nat) (u : UInt8) :
    (p.putSlot s o l u).getNumSlots = p.getNumSlots := by
  simp only [putSlot, slotMetaOffset_eq, slotInUseOffset]
  rw [getNumSlots_store _ (by omega), getNumSlots_store _ (by omega), getNumSlots_store _ (by omega)]

theorem storedFreeStart_putSlot (p : Page) (s o l : Nat) (u : UInt8) :
    (p.putSlot s o l u).storedFreeStart = p.storedFreeStart := by
  simp only [putSlot, slotMetaOffset_eq, slotInUseOffset]
  rw [storedFreeStart_store _ (by omega), storedFreeStart_store _ (by omega),
    storedFreeStart_store _ (by omega)]

theorem byte_putSlot (p : Page) {s i o l : Nat} {u : UInt8} (h : i < 8 + 6 * s ∨ 8 + 6 * s + 5 ≤ i) :
    (p.putSlot s o l u).byte i = p.byte i := by
  simp only [putSlot, slotMetaOffset_eq, slotInUseOffset]
  rw [byte_store_of_not_mem _ (by simp; omega), byte_store_of_not_mem _ (by simp; omega),
    byte_store_of_not_mem _ (by simp; omega)]

theorem slot_putSlot (p : Page) {s o l : Nat} {u : UInt8} (h : 8 + 6 * s + 5 ≤ pageSize) (t : Nat) :
    (p.putSlot s o l u).slot t = if t = s then ⟨o % 65536, l % 65536, u⟩ else p.slot t := by
  split
  · subst t
    have hu : 8 + 6 * s + 4 + [u].length ≤ pageSize := by simp only [List.length_singleton]; omega
    simp (disch := omega) only [putSlot, slotMetaOffset_eq, slotInUseOffset, slot_eq,
      u16At_store_of_disjoint, u16At_store_leBytes, byte_store _ hu]
    simp
  · simp only [putSlot, slotMetaOffset_eq, slotInUseOffset]
    rw [slot_store _ (by simp; omega), slot_store _ (by simp; omega), slot_store _ (by simp; omega)]

theorem putSlot_slot (p : Page) {s : Nat} (h : 8 + 6 * s + 5 ≤ pageSize) :
    p.putSlot s (p.slot s).offset (p.slot s).length (p.slot s).inUse = p := by
  have hin : [p.byte (8 + 6 * s + 4)] = p.slice (8 + 6 * s + 4) 1 := rfl
  simp (disch := omega) only [putSlot, slot_eq, slotMetaOffset_eq, slotInUseOffset, leBytes_u16At,
    store_slice, hin]

theorem getNumSlots_setNumSlots (p : Page) (n : Nat) : (p.setNumSlots n).getNumSlots = n % 65536 :=
  u16At_store_leBytes _ _ (by decide)

theorem storedFreeStart_setNumSlots (p : Page) (n : Nat) :
    (p.setNumSlots n).storedFreeStart = p.storedFreeStart :=
  storedFreeStart_store _ (by simp [pageMetaNumSlotsOffset])

theorem slot_setNumSlots (p : Page) (n t : Nat) : (p.setNumSlots n).slot t = p.slot t :=
  slot_store _ (by simp [pageMetaNumSlotsOffset]; omega)

theorem byte_setNumSlots (p : Page) (n : Nat) {i : Nat} (h : 4 ≤ i) :
    (p.setNumSlots n).byte i = p.byte i :=
  byte_store_of_not_mem _ (by simp [pageMetaNumSlotsOffset]; omega)

theorem getNumSlots_setFreeStart (p : Page) (pos : Nat) :
    (p.setFreeStart pos).getNumSlots = p.getNumSlots :=
  getNumSlots_store _ (by simp [pageMetaFreeStartOffset])

theorem storedFreeStart_setFreeStart (p : Page) (pos : Nat) :
    (p.setFreeStart pos).storedFreeStart = min pos pageSize := by
  rw [setFreeStart, storedFreeStart, u16At_store_leBytes _ _ (by decide), Nat.mod_eq_of_lt]
  unfold pageSize
  omega

theorem slot_setFreeStart (p : Page) (pos t : Nat) : (p.setFreeStart pos).slot t = p.slot t :=
  slot_store _ (by simp [pageMetaFreeStartOffset]; omega)

theorem byte_setFreeStart (p : Page) (pos : Nat) {i : Nat} (h : 6 ≤ i) :
    (p.setFreeStart pos).byte i = p.byte i :=
  byte_store_of_not_mem _ (by simp [pageMetaFreeStartOffset]; omega)

theorem setFreeStart_storedFreeStart (p : Page) (h : p.storedFreeStart ≤ pageSize) :
    p.setFreeStart p.storedFreeStart = p := by
  rw [setFreeStart, min_eq_left h, storedFreeStart, leBytes_u16At, store_slice _ (by decide)]

theorem getSlotOffsetLength_of_le {p : Page} {s : Nat} (h : p.getNumSlots ≤ s) :
    p.getSlotOffsetLength s = .ok none := by
  simp [getSlotOffsetLength, h]

theorem getSlotOffsetLength_of_lt {p : Page} {s : Nat} (h : s < p.getNumSlots)
    (hs : 8 + 6 * s + 4 ≤ pageSize) :
    p.getSlotOffsetLength s = .ok (some ((p.slot s).offset, (p.slot s).length)) := by
  simp only [getSlotOffsetLength, slotMetaOffset_eq, slotLengthOffset]
  rw [if_neg (by omega), if_pos (by omega)]

theorem getSlotInUse_of_le {p : Page} {s : Nat} (h : p.getNumSlots ≤ s) :
    p.getSlotInUse s = .ok none := by
  simp [getSlotInUse, h]

theorem getSlotInUse_of_lt {p : Page} {s : Nat} (h : s < p.getNumSlots)
    (hs : 8 + 6 * s + 4 < pageSize) : p.getSlotInUse s = .ok (some (p.slot s).inUse) := by
  simp only [getSlotInUse, get, slotMetaOffset_eq, slotInUseOffset, slot_eq]
  rw [if_neg (by omega), if_pos hs]
  rfl

theorem getSlotInUse_of_past {p : Page} {s : Nat} (h : s < p.getNumSlots)
    (hs : pageSize ≤ 8 + 6 * s + 4) : p.getSlotInUse s = .error .outOfBounds := by
  simp only [getSlotInUse, get, slotMetaOffset_eq, slotInUseOffset]
  rw [if_neg (by omega), if_neg (by omega)]
  rfl

end Page

end Heapstore
