import Heapstore.Bytes

namespace Heapstore

/-- `INITIAL_NUM_SLOTS`. -/
def initialNumSlots : Nat := 0

/-- `INITIAL_FREE_START`: the body begins right after the 8 byte page metadata. -/
def initialFreeStart : Nat := 8

namespace Page

/-- `Page::new(page_id)`: a zeroed page with the id, `num_slots`, `free_start` at bytes 0, 2, 4. -/
def new (pageId : Nat) : Page :=
  ((Page.mk fun _ => 0).store 0 (leBytes pageId) |>.store 2 (leBytes initialNumSlots)).store 4
    (leBytes initialFreeStart)

/-- `get_page_id`. -/
def getPageId (p : Page) : Nat := p.u16At 0

/-- `Page::from_bytes(data)`: the buffer is taken verbatim. -/
def fromBytes (data : Fin pageSize → UInt8) : Page := ⟨data⟩

/-- `to_bytes`. -/
def toBytes (p : Page) : Fin pageSize → UInt8 := p.data

theorem getPageId_new (pageId : Nat) : (new pageId).getPageId = pageId % 65536 := by
  unfold new getPageId
  rw [u16At_store_of_disjoint _ (by simp), u16At_store_of_disjoint _ (by simp),
    u16At_store_leBytes _ _ (by decide)]

end Page

end Heapstore
