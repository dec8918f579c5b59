import Heapstore.Directory

namespace Heapstore

/-- The byte ranges `[a, a + l)` and `[b, b + m)` share no byte. -/
def RangesDisjoint (a l b m : Nat) : Prop := a + l ≤ b ∨ b + m ≤ a ∨ l = 0 ∨ m = 0

instance (a l b m : Nat) : Decidable (RangesDisjoint a l b m) :=
  inferInstanceAs (Decidable (_ ∨ _ ∨ _ ∨ _))

theorem rangesDisjoint_iff {a l b m : Nat} :
    RangesDisjoint a l b m ↔ ∀ i, a ≤ i → i < a + l → b ≤ i → i < b + m → False := by
  unfold RangesDisjoint
  constructor
  · intro h i
    omega
  · intro h
    by_contra hc
    exact h (max a b) (by omega) (by omega) (by omega) (by omega)

theorem rangesDisjoint_add {a l b m : Nat} (c : Nat) (h : RangesDisjoint a l b m) :
    RangesDisjoint (a + c) l (b + c) m := by
  unfold RangesDisjoint at h ⊢
  omega

namespace Page

/-- The page invariant: header, free start, `PAGE_SIZE` in order, flags 0 or 1, records disjoint. -/
@[mk_iff] structure Inv (p : Page) : Prop where
  header_le_free : p.getHeaderSize ≤ p.storedFreeStart
  free_le_page : p.storedFreeStart ≤ pageSize
  in_use_flag : ∀ t < p.getNumSlots,
    (p.slot t).inUse = slotInUseFree ∨ (p.slot t).inUse = slotInUseValid
  live_after_header : ∀ t < p.getNumSlots, (p.slot t).inUse = slotInUseValid →
    p.getHeaderSize ≤ (p.slot t).offset
  live_before_free : ∀ t < p.getNumSlots, (p.slot t).inUse = slotInUseValid →
    (p.slot t).offset + (p.slot t).length ≤ p.storedFreeStart
  live_disjoint : ∀ s < p.getNumSlots, ∀ t < p.getNumSlots, s ≠ t →
    (p.slot s).inUse = slotInUseValid → (p.slot t).inUse = slotInUseValid →
    RangesDisjoint (p.slot s).offset (p.slot s).length (p.slot t).offset (p.slot t).length

instance (p : Page) : Decidable p.Inv := decidable_of_iff _ (inv_iff p).symm

theorem Inv.readable {p : Page} (h : p.Inv) : p.DirectoryReadable :=
  directoryReadable_of_header (h.header_le_free.trans h.free_le_page)

theorem Inv.getFreeStart_eq {p : Page} (h : p.Inv) : p.getFreeStart = p.storedFreeStart := by
  rw [Page.getFreeStart_eq p, max_eq_left h.header_le_free, min_eq_left h.free_le_page]

theorem inv_new (pageId : Nat) : (new pageId).Inv := by
  have h0 : ∀ t, ¬ t < (new pageId).getNumSlots := fun t => by
    rw [getNumSlots_new]
    exact Nat.not_lt_zero t
  exact ⟨by rw [getHeaderSize_eq, getNumSlots_new, storedFreeStart_new],
    by rw [storedFreeStart_new]; decide, fun t ht => absurd ht (h0 t),
    fun t ht => absurd ht (h0 t), fun t ht => absurd ht (h0 t), fun s hs => absurd hs (h0 s)⟩

/-- The slots `ids` hold, in this order, records laid end to end from `a` up to `b`. -/
def Tiles (p : Page) : List Nat → Nat → Nat → Prop
  | [], a, b => a = b
  | t :: ids, a, b => (p.slot t).offset = a ∧ p.Tiles ids (a + (p.slot t).length) b

theorem Tiles.bounds {p : Page} {ids : List Nat} {a b : Nat} (h : p.Tiles ids a b) :
    a ≤ b ∧ ∀ t ∈ ids, a ≤ (p.slot t).offset ∧ (p.slot t).offset + (p.slot t).length ≤ b := by
  induction ids generalizing a with
  | nil => exact ⟨le_of_eq h, by simp⟩
  | cons s ids ih =>
    obtain ⟨hs, hrest⟩ := h
    obtain ⟨hab, hall⟩ := ih hrest
    refine ⟨by omega, fun t ht => ?_⟩
    rcases List.mem_cons.mp ht with rfl | ht
    · omega
    · have := hall t ht
      omega

theorem Tiles.disjoint {p : Page} {ids : List Nat} {a b : Nat} (h : p.Tiles ids a b)
    (hn : ids.Nodup) : ∀ s ∈ ids, ∀ t ∈ ids, s ≠ t →
      RangesDisjoint (p.slot s).offset (p.slot s).length (p.slot t).offset (p.slot t).length := by
  induction ids generalizing a with
  | nil => simp
  | cons u ids ih =>
    obtain ⟨hu, hrest⟩ := h
    have hafter := hrest.bounds.2
    have hn' := List.nodup_cons.mp hn
    intro s hs t ht hst
    rcases List.mem_cons.mp hs with rfl | hs' <;> rcases List.mem_cons.mp ht with rfl | ht'
    · exact absurd rfl hst
    · have := hafter t ht'
      unfold RangesDisjoint
      omega
    · have := hafter s hs'
      unfold RangesDisjoint
      omega
    · exact ih hrest hn'.2 s hs' t ht' hst

theorem Inv.of_tiles {q : Page} {ids : List Nat} (hfp : q.storedFreeStart ≤ pageSize)
    (hflags : ∀ t < q.getNumSlots,
      (q.slot t).inUse = slotInUseFree ∨ (q.slot t).inUse = slotInUseValid)
    (hids : ∀ t < q.getNumSlots, (q.slot t).inUse = slotInUseValid → t ∈ ids) (hnd : ids.Nodup)
    (htiles : q.Tiles ids q.getHeaderSize q.storedFreeStart) : q.Inv where
  header_le_free := htiles.bounds.1
  free_le_page := hfp
  in_use_flag := hflags
  live_after_header := fun t ht hv => (htiles.bounds.2 t (hids t ht hv)).1
  live_before_free := fun t ht hv => (htiles.bounds.2 t (hids t ht hv)).2
  live_disjoint := fun s hs t ht hst hsv htv =>
    htiles.disjoint hnd s (hids s hs hsv) t (hids t ht htv) hst

/-- The invariant on every entry but `s`: what writing a record into slot `s` needs. -/
structure InvAway (p : Page) (s : Nat) : Prop where
  slot_lt : s < p.getNumSlots
  header_le_free : p.getHeaderSize ≤ p.getFreeStart
  in_use_flag : ∀ t < p.getNumSlots, t ≠ s →
    (p.slot t).inUse = slotInUseFree ∨ (p.slot t).inUse = slotInUseValid
  live_within : ∀ t < p.getNumSlots, t ≠ s → (p.slot t).inUse = slotInUseValid →
    p.getHeaderSize ≤ (p.slot t).offset ∧ (p.slot t).offset + (p.slot t).length ≤ p.getFreeStart
  live_disjoint : ∀ a < p.getNumSlots, ∀ b < p.getNumSlots, a ≠ s → b ≠ s → a ≠ b →
    (p.slot a).inUse = slotInUseValid → (p.slot b).inUse = slotInUseValid →
    RangesDisjoint (p.slot a).offset (p.slot a).length (p.slot b).offset (p.slot b).length

theorem Inv.invAway {p : Page} (h : p.Inv) {s : Nat} (hs : s < p.getNumSlots) : p.InvAway s where
  slot_lt := hs
  header_le_free := by rw [h.getFreeStart_eq]; exact h.header_le_free
  in_use_flag := fun t ht _ => h.in_use_flag t ht
  live_within := fun t ht _ hv =>
    ⟨h.live_after_header t ht hv, by rw [h.getFreeStart_eq]; exact h.live_before_free t ht hv⟩
  live_disjoint := fun a ha b hb _ _ => h.live_disjoint a ha b hb

end Page

end Heapstore