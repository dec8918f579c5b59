import Heapstore.Run

namespace Heapstore

namespace Page

/-- `q` keeps `p`'s page id `data[0..2]` and reserved bytes `data[6..8]`, which no call owns. -/
def SameIdAndReserved (p q : Page) : Prop :=
  ∀ i, i < pageMetaNumSlotsOffset ∨ pageMetaReservedOffset ≤ i ∧ i < fixedPageMetaSize →
    q.byte i = p.byte i

theorem idAndReserved_iff {i : Nat} :
    (i < pageMetaNumSlotsOffset ∨ pageMetaReservedOffset ≤ i ∧ i < fixedPageMetaSize) ↔
      i < 2 ∨ 6 ≤ i ∧ i < 8 := Iff.rfl

theorem SameIdAndReserved.refl (p : Page) : SameIdAndReserved p p := fun _ _ => rfl

theorem SameIdAndReserved.trans {p q r : Page} (h1 : SameIdAndReserved p q)
    (h2 : SameIdAndReserved q r) : SameIdAndReserved p r :=
  fun i hi => (h2 i hi).trans (h1 i hi)

theorem sameIdAndReserved_store (p : Page) {pos : Nat} {bs : List UInt8}
    (h : fixedPageMetaSize ≤ pos ∨
      pageMetaNumSlotsOffset ≤ pos ∧ pos + bs.length ≤ pageMetaReservedOffset) :
    SameIdAndReserved p (p.store pos bs) := fun i hi =>
  byte_store_of_not_mem p (by
    have := idAndReserved_iff.mp hi
    unfold fixedPageMetaSize pageMetaNumSlotsOffset pageMetaReservedOffset at h
    omega)

theorem sameIdAndReserved_putSlot (p : Page) (s o l : Nat) (u : UInt8) :
    SameIdAndReserved p (p.putSlot s o l u) := fun i hi =>
  byte_putSlot p (.inl (by have := idAndReserved_iff.mp hi; omega))

theorem sameIdAndReserved_setNumSlots (p : Page) (n : Nat) :
    SameIdAndReserved p (p.setNumSlots n) :=
  sameIdAndReserved_store p (.inr ⟨le_rfl, by simp [pageMetaNumSlotsOffset, pageMetaReservedOffset]⟩)

theorem sameIdAndReserved_setFreeStart (p : Page) (pos : Nat) :
    SameIdAndReserved p (p.setFreeStart pos) :=
  sameIdAndReserved_store p
    (.inr ⟨by decide, by simp [pageMetaFreeStartOffset, pageMetaReservedOffset]⟩)

theorem sameIdAndReserved_move (p : Page) {src len dest : Nat} (h : fixedPageMetaSize ≤ dest) :
    SameIdAndReserved p (p.move src len dest) := fun i hi =>
  byte_move_of_not_mem p (.inl (by
    have := idAndReserved_iff.mp hi
    unfold fixedPageMetaSize at h
    omega))

theorem sameIdAndReserved_compactLoop {L : List (Nat × Nat × Nat)} {q q' : Page} {w w' : Nat}
    (h : compactLoop L q w = .ok (q', w')) (hw : fixedPageMetaSize ≤ w) :
    SameIdAndReserved q q' := by
  induction L generalizing q w with
  | nil =>
    obtain ⟨rfl, -⟩ := Prod.mk.inj (Except.ok.inj h)
    exact SameIdAndReserved.refl q
  | cons e rest ih =>
    obtain ⟨-, -, h⟩ := compactLoop_cons.mp h
    refine SameIdAndReserved.trans ?_ (ih h (hw.trans (Nat.le_add_right _ _)))
    unfold slide
    split
    · exact (sameIdAndReserved_move q hw).trans (sameIdAndReserved_putSlot _ _ _ _ _)
    · exact sameIdAndReserved_putSlot _ _ _ _ _

theorem sameIdAndReserved_compact {p q : Page} (h : p.compact = .ok q) :
    SameIdAndReserved p q := by
  obtain ⟨used, -, h⟩ := bind_eq_ok.mp h
  obtain ⟨⟨q', w'⟩, hloop, h⟩ := bind_eq_ok.mp h
  cases h
  exact (sameIdAndReserved_compactLoop hloop (Nat.le_add_right _ _)).trans
    (sameIdAndReserved_setFreeStart _ _)

theorem sameIdAndReserved_bumpOffsets :
    ∀ {ids : List Nat} {p q : Page}, bumpOffsets ids p = .ok q → SameIdAndReserved p q
  | [], p, q, h => by
    cases h
    exact SameIdAndReserved.refl p
  | sid :: rest, p, q, h => by
    obtain ⟨u, -, h⟩ := bind_eq_ok.mp h
    dsimp only at h
    split at h
    · obtain ⟨o, -, h⟩ := bind_eq_ok.mp h
      split at h
      · obtain ⟨p1, h1, h⟩ := bind_eq_ok.mp h
        obtain ⟨-, rfl⟩ := writeSlot_eq_ok.mp h1
        exact (sameIdAndReserved_putSlot _ _ _ _ _).trans (sameIdAndReserved_bumpOffsets h)
      · rw [pure_bind] at h
        exact sameIdAndReserved_bumpOffsets h
    · rw [pure_bind] at h
      exact sameIdAndReserved_bumpOffsets h

theorem sameIdAndReserved_shiftBodyForNewSlot {p q : Page} (h : p.shiftBodyForNewSlot = .ok q) :
    SameIdAndReserved p q := by
  have hbody : fixedPageMetaSize ≤ fixedPageMetaSize + p.getNumSlots * bytesPerSlotMeta :=
    Nat.le_add_right _ _
  -- what follows the copy: zero the new entry, bump the offsets, set `free_start`
  have tail : ∀ {p1 : Page} {pos k : Nat} {bs : List UInt8} {ids : List Nat},
      fixedPageMetaSize ≤ pos → SameIdAndReserved p p1 →
      (do
        let p2 ← p1.writeBytes pos bs
        let p3 ← bumpOffsets ids p2
        pure (p3.setFreeStart k)) = Except.ok q → SameIdAndReserved p q := fun hpos hs h => by
    obtain ⟨p2, h2, h⟩ := bind_eq_ok.mp h
    obtain ⟨p3, h3, h⟩ := bind_eq_ok.mp h
    cases h
    obtain ⟨-, rfl⟩ := writeBytes_eq_ok.mp h2
    exact hs.trans ((sameIdAndReserved_store _ (.inl hpos)).trans
      ((sameIdAndReserved_bumpOffsets h3).trans (sameIdAndReserved_setFreeStart _ _)))
  simp only [shiftBodyForNewSlot] at h
  split at h
  · split at h
    · obtain ⟨p1, h1, h⟩ := bind_eq_ok.mp h
      obtain ⟨-, rfl⟩ := copyWithin_eq_ok.mp h1
      exact tail hbody (sameIdAndReserved_move p (hbody.trans (Nat.le_add_right _ _))) h
    · rw [error_bind] at h
      cases h
  · rw [pure_bind] at h
    exact tail hbody (SameIdAndReserved.refl p) h

theorem sameIdAndReserved_ite {c : Prop} [Decidable c] {p p1 : Page} {x : Except Panic Page}
    (hx : ∀ {q}, x = .ok q → SameIdAndReserved p q) (h : (if c then x else pure p) = .ok p1) :
    SameIdAndReserved p p1 := by
  by_cases hc : c
  · rw [if_pos hc] at h
    exact hx h
  · rw [if_neg hc] at h
    obtain rfl := Except.ok.inj h
    exact SameIdAndReserved.refl p

theorem sameIdAndReserved_grow {p p' : Page} {n : Nat} {need : Prop} [Decidable need]
    (h : (if need then do
        let q ← (if 0 < n then p.shiftBodyForNewSlot else pure p)
        pure (q.setNumSlots (n + 1))
      else pure p) = .ok p') : SameIdAndReserved p p' :=
  sameIdAndReserved_ite (fun h => by
    obtain ⟨q, hq, h⟩ := bind_eq_ok.mp h
    obtain rfl := Except.ok.inj h
    exact (sameIdAndReserved_ite sameIdAndReserved_shiftBodyForNewSlot hq).trans
      (sameIdAndReserved_setNumSlots _ _)) h

theorem sameIdAndReserved_addValue {p q : Page} {b : List UInt8} {r : Option Nat}
    (h : p.addValue b = .ok (r, q)) : SameIdAndReserved p q := by
  rcases addValue_eq_ok h with ⟨-, rfl, -⟩ | ⟨p', -, -, -, -, -, hH', -, rfl, p1, h1, h2⟩
  · exact SameIdAndReserved.refl _
  have h8 : fixedPageMetaSize ≤ p'.getFreeStart := (Nat.le_add_right _ _).trans hH'
  exact (sameIdAndReserved_ite sameIdAndReserved_compact h1).trans ((sameIdAndReserved_grow h2).trans
    ((sameIdAndReserved_store _ (.inl h8)).trans
      ((sameIdAndReserved_putSlot _ _ _ _ _).trans (sameIdAndReserved_setFreeStart _ _))))

theorem sameIdAndReserved_deleteValue {p q : Page} {s : Nat} {r : Option Unit}
    (h : p.deleteValue s = .ok (r, q)) : SameIdAndReserved p q := by
  rcases deleteValue_eq_ok h with ⟨-, rfl⟩ | ⟨-, -, -, -, rfl⟩
  · exact SameIdAndReserved.refl _
  · exact sameIdAndReserved_store p (.inl (by unfold fixedPageMetaSize; omega))

theorem sameIdAndReserved_exec {p q : Page} {op : Op} {r : Reply} (h : p.exec op = .ok (r, q)) :
    SameIdAndReserved p q := by
  cases op with
  | addValue b =>
    obtain ⟨⟨r', q'⟩, h', he⟩ := map_eq_ok.mp h
    cases he
    exact sameIdAndReserved_addValue h'
  | deleteValue s =>
    obtain ⟨⟨r', q'⟩, h', he⟩ := map_eq_ok.mp h
    cases he
    exact sameIdAndReserved_deleteValue h'

end Page

theorem sameIdAndReserved_runFrom {p q : Page} {g g' : Ghost} {ops : List Op}
    (h : runFrom p g ops = .ok (q, g')) : p.SameIdAndReserved q := by
  induction ops generalizing p g with
  | nil =>
    obtain ⟨rfl, -⟩ := Prod.mk.inj (Except.ok.inj h)
    exact Page.SameIdAndReserved.refl p
  | cons op ops ih =>
    obtain ⟨⟨r, p1⟩, hexec, h⟩ := bind_eq_ok.mp h
    exact (Page.sameIdAndReserved_exec hexec).trans (ih h)

/-- No run of `add_value` and `delete_value` calls writes the page id or the reserved bytes. -/
theorem runFrom_keeps_pageId {p q : Page} {g g' : Ghost} {ops : List Op}
    (h : runFrom p g ops = .ok (q, g')) :
    q.getPageId = p.getPageId ∧
      ∀ i, pageMetaReservedOffset ≤ i → i < fixedPageMetaSize → q.byte i = p.byte i :=
  have hs := sameIdAndReserved_runFrom h
  ⟨Page.u16At_congr (hs 0 (by decide)) (hs 1 (by decide)), fun i h1 h2 => hs i (.inr ⟨h1, h2⟩)⟩

theorem runFrom_keeps_pageId_new :
    ∃ q g, runFrom (Page.new 5) ⟨(Page.new 5).liveCount, 0, fun _ => none⟩
        [.addValue [1, 2], .deleteValue 0] = .ok (q, g) ∧
      q.getPageId = (Page.new 5).getPageId ∧
      ∀ i, pageMetaReservedOffset ≤ i → i < fixedPageMetaSize → q.byte i = (Page.new 5).byte i :=
  let ⟨q, g, h⟩ : ∃ q g, runFrom (Page.new 5) ⟨(Page.new 5).liveCount, 0, fun _ => none⟩
      [.addValue [1, 2], .deleteValue 0] = .ok (q, g) := ⟨_, _, rfl⟩
  ⟨q, g, h, runFrom_keeps_pageId h⟩

end Heapstore
