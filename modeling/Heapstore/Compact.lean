import Heapstore.Layout
import Mathlib.Algebra.BigOperators.Group.List

namespace Heapstore

namespace Page

/-- One pass of `compact`'s loop body: the record copied to `write_pos` and its entry rewritten. -/
def slide (q : Page) (e : Nat × Nat × Nat) (writePos : Nat) : Page :=
  (if e.2.1 ≠ writePos then q.move e.2.1 e.2.2 writePos else q).putSlot e.1 writePos e.2.2
    slotInUseValid

theorem compactLoop_cons {e : Nat × Nat × Nat} {rest : List (Nat × Nat × Nat)} {q : Page}
    {w : Nat} {r : Page × Nat} :
    compactLoop (e :: rest) q w = .ok r ↔
      (e.2.1 ≠ w → e.2.1 + e.2.2 ≤ pageSize ∧ w + e.2.2 ≤ pageSize) ∧
        8 + 6 * e.1 + 5 ≤ pageSize ∧ compactLoop rest (q.slide e w) (w + e.2.2) = .ok r := by
  obtain ⟨s, o, l⟩ := e
  by_cases ho : o ≠ w
  · simp only [compactLoop, ho, if_true, bind_eq_ok, copyWithin_eq_ok, writeSlot_eq_ok, slide,
      ne_eq, not_false_eq_true, true_implies]
    constructor
    · rintro ⟨_, ⟨hb, rfl⟩, _, ⟨hs, rfl⟩, h⟩
      exact ⟨hb, hs, h⟩
    · rintro ⟨hb, hs, h⟩
      exact ⟨_, ⟨hb, rfl⟩, _, ⟨hs, rfl⟩, h⟩
  · simp only [not_not] at ho
    subst ho
    simp only [compactLoop, ne_eq, not_true_eq_false, if_false, ok_bind, bind_eq_ok,
      writeSlot_eq_ok, slide, false_implies, true_and]
    constructor
    · rintro ⟨_, ⟨⟩, _, ⟨hs, rfl⟩, h⟩
      exact ⟨hs, h⟩
    · rintro ⟨hs, h⟩
      exact ⟨_, rfl, _, ⟨hs, rfl⟩, h⟩

section Slide

variable {q : Page} {e : Nat × Nat × Nat} {w : Nat}

theorem getNumSlots_slide (hw : 4 ≤ w) : (q.slide e w).getNumSlots = q.getNumSlots := by
  unfold slide
  split <;> simp only [getNumSlots_putSlot, getNumSlots_move _ hw]

theorem storedFreeStart_slide (hw : 6 ≤ w) : (q.slide e w).storedFreeStart = q.storedFreeStart := by
  unfold slide
  split <;> simp only [storedFreeStart_putSlot, storedFreeStart_move _ hw]

theorem slot_slide (he : 8 + 6 * e.1 + 5 ≤ pageSize) {t : Nat} (ht : 8 + 6 * t + 5 ≤ w) :
    (q.slide e w).slot t =
      if t = e.1 then ⟨w % 65536, e.2.2 % 65536, slotInUseValid⟩ else q.slot t := by
  unfold slide
  rw [slot_putSlot _ he]
  split
  · rfl
  · split <;> simp only [slot_move _ ht]

theorem byte_slide_of_not_mem {i : Nat} (hi : 8 + 6 * e.1 + 5 ≤ i) (hout : i < w ∨ w + e.2.2 ≤ i) :
    (q.slide e w).byte i = q.byte i := by
  unfold slide
  rw [byte_putSlot _ (.inr hi)]
  split
  · exact byte_move_of_not_mem _ hout
  · rfl

theorem byte_slide_of_mem (hw : w + e.2.2 ≤ pageSize) (hs : 8 + 6 * e.1 + 5 ≤ w) {k : Nat}
    (hk : k < e.2.2) : (q.slide e w).byte (w + k) = q.byte (e.2.1 + k) := by
  unfold slide
  rw [byte_putSlot _ (.inr (by omega))]
  split
  · rw [byte_move _ hw, if_pos (by omega), Nat.add_sub_cancel_left]
  · rename_i ho
    simp only [ne_eq, not_not] at ho
    rw [ho]

end Slide

theorem compactLoop_header {L : List (Nat × Nat × Nat)} {q q' : Page} {w w' : Nat}
    (h : compactLoop L q w = .ok (q', w')) (hw : q.getHeaderSize ≤ w)
    (hL : ∀ e ∈ L, e.1 < q.getNumSlots) :
    w' = w + (L.map fun e => e.2.2).sum ∧ q'.getNumSlots = q.getNumSlots ∧
      q'.storedFreeStart = q.storedFreeStart ∧
      ∀ t < q.getNumSlots, (q'.slot t).inUse =
        if t ∈ L.map Prod.fst then slotInUseValid else (q.slot t).inUse := by
  induction L generalizing q w with
  | nil =>
    cases h
    simp
  | cons e rest ih =>
    obtain ⟨-, he, h⟩ := compactLoop_cons.mp h
    rw [getHeaderSize_eq] at hw
    have hn : (q.slide e w).getNumSlots = q.getNumSlots := getNumSlots_slide (by omega)
    obtain ⟨hw', hn', hf', hs'⟩ := ih h (by rw [getHeaderSize_eq, hn]; omega)
      fun e' he' => hn ▸ hL e' (List.mem_cons_of_mem e he')
    refine ⟨by simp [hw']; omega, hn'.trans hn, hf'.trans (storedFreeStart_slide (by omega)), ?_⟩
    intro t ht
    rw [hs' t (hn ▸ ht), slot_slide he (by omega)]
    by_cases hte : t = e.1 <;> by_cases htr : t ∈ rest.map Prod.fst <;> simp [hte, htr]

/-- The loop of `compact` on records it can slide left without overwriting an unread one. -/
theorem compactLoop_spec {L : List (Nat × Nat × Nat)} {q : Page} {w fs : Nat}
    (hfs : fs ≤ pageSize) (hw : q.getHeaderSize ≤ w) (hwfs : w ≤ fs)
    (hsid : ∀ e ∈ L, e.1 < q.getNumSlots) (hnodup : (L.map Prod.fst).Nodup)
    (hrange : ∀ e ∈ L, e.2.1 + e.2.2 ≤ fs) (hfront : ∀ e ∈ L, 0 < e.2.2 → w ≤ e.2.1)
    (hchain : L.Pairwise fun a b => 0 < a.2.2 → 0 < b.2.2 → a.2.1 + a.2.2 ≤ b.2.1) :
    ∃ q', compactLoop L q w = .ok (q', w + (L.map fun e => e.2.2).sum) ∧
      w + (L.map fun e => e.2.2).sum ≤ fs ∧
      q'.Tiles (L.map Prod.fst) w (w + (L.map fun e => e.2.2).sum) ∧
      (∀ e ∈ L, (q'.slot e.1).length = e.2.2 ∧
        q'.slice (q'.slot e.1).offset e.2.2 = q.slice e.2.1 e.2.2) ∧
      (∀ t < q.getNumSlots, t ∉ L.map Prod.fst → q'.slot t = q.slot t) ∧
      ∀ i, q.getHeaderSize ≤ i → i < w ∨ w + (L.map fun e => e.2.2).sum ≤ i → q'.byte i = q.byte i := by
  induction L generalizing q w with
  | nil => exact ⟨q, rfl, by simpa using hwfs, by simp [Tiles], by simp, by simp, fun _ _ _ => rfl⟩
  | cons e rest ih =>
    obtain ⟨s, o, l⟩ := e
    simp only [List.mem_cons, forall_eq_or_imp, List.map_cons, List.nodup_cons,
      List.pairwise_cons] at hsid hnodup hrange hfront hchain
    rw [getHeaderSize_eq] at hw
    have hslot : 8 + 6 * s + 5 ≤ w := by have := hsid.1; omega
    have hwl : w + l ≤ fs := by
      rcases Nat.eq_zero_or_pos l with hl | hl
      · omega
      · have := hfront.1 hl; have := hrange.1; omega
    have hn1 : (q.slide (s, o, l) w).getNumSlots = q.getNumSlots := getNumSlots_slide (by omega)
    have hfront' : ∀ e ∈ rest, 0 < e.2.2 → w + l ≤ e.2.1 := by
      intro e he hle
      rcases Nat.eq_zero_or_pos l with hl | hl
      · have := hfront.2 e he hle; omega
      · have := hchain.1 e he hl hle; have := hfront.1 hl; omega
    obtain ⟨q', hloop, hW, htiles, hentries, hslots, hbytes⟩ :=
      @ih (q.slide (s, o, l) w) (w + l) (by rw [getHeaderSize_eq, hn1]; omega) hwl
        (fun e he => hn1 ▸ hsid.2 e he) hnodup.2 hrange.2 hfront' hchain.2
    have hhead : q'.slot s = ⟨w, l, slotInUseValid⟩ := by
      rw [hslots s (by rw [hn1]; exact hsid.1) hnodup.1, slot_slide (by omega) (by omega), if_pos rfl]
      simp only [SlotEntry.mk.injEq, and_true]
      unfold pageSize at hfs
      omega
    simp only [List.map_cons, List.sum_cons, ← Nat.add_assoc]
    refine ⟨q', compactLoop_cons.mpr ⟨fun _ => ⟨show o + l ≤ pageSize by omega,
      show w + l ≤ pageSize by omega⟩, show 8 + 6 * s + 5 ≤ pageSize by omega, hloop⟩, hW,
      ⟨by rw [hhead], by rw [hhead]; exact htiles⟩, ?_, ?_, ?_⟩
    · simp only [List.mem_cons, forall_eq_or_imp]
      refine ⟨⟨by rw [hhead], ?_⟩, fun e he => ?_⟩
      · rw [hhead]
        refine List.map_congr_left fun k hk => ?_
        have hk := List.mem_range.mp hk
        rw [hbytes (w + k) (by rw [getHeaderSize_eq, hn1]; omega) (.inl (by omega)),
          byte_slide_of_mem (show w + l ≤ pageSize by omega) hslot hk]
      · obtain ⟨hl, hs⟩ := hentries e he
        refine ⟨hl, hs.trans (List.map_congr_left fun k hk => ?_)⟩
        have hk := List.mem_range.mp hk
        have := hfront' e he (by omega)
        exact byte_slide_of_not_mem (by simp only; omega) (.inr (by simp only; omega))
    · intro t ht htl
      simp only [List.mem_cons, not_or] at htl
      rw [hslots t (by rw [hn1]; exact ht) htl.2, slot_slide (by omega) (by omega), if_neg htl.1]
    · intro i hi hout
      rw [getHeaderSize_eq] at hi
      rw [hbytes i (by rw [getHeaderSize_eq, hn1]; omega) (by omega),
        byte_slide_of_not_mem (by simp only; omega) (by simp only; omega)]

theorem sortByOffset_perm (L : List (Nat × Nat × Nat)) : (sortByOffset L).Perm L :=
  List.perm_insertionSort _ _

theorem sortByOffset_sorted (L : List (Nat × Nat × Nat)) :
    (sortByOffset L).Pairwise fun a b => a.2.1 ≤ b.2.1 :=
  haveI : IsTotal (Nat × Nat × Nat) fun a b => a.2.1 ≤ b.2.1 := ⟨fun _ _ => Nat.le_total _ _⟩
  haveI : IsTrans (Nat × Nat × Nat) fun a b => a.2.1 ≤ b.2.1 := ⟨fun _ _ _ => Nat.le_trans⟩
  List.sorted_insertionSort _ L

theorem sum_sortByOffset (L : List (Nat × Nat × Nat)) :
    ((sortByOffset L).map fun e => e.2.2).sum = (L.map fun e => e.2.2).sum :=
  ((sortByOffset_perm L).map _).sum_eq

theorem mem_sortByOffset_fst {L : List (Nat × Nat × Nat)} {t : Nat} :
    t ∈ (sortByOffset L).map Prod.fst ↔ t ∈ L.map Prod.fst :=
  ((sortByOffset_perm L).map _).mem_iff

theorem compact_header {p q : Page} (h : p.compact = .ok q) :
    p.DirectoryReadable ∧ q.getNumSlots = p.getNumSlots ∧
      q.storedFreeStart = min (p.getHeaderSize + p.liveBytes) pageSize ∧
      ∀ t < p.getNumSlots, (q.slot t).inUse = (p.slot t).inUse := by
  obtain ⟨used, hused, h⟩ := bind_eq_ok.mp h
  have hr : p.DirectoryReadable := fun t ht =>
    readable_of_usedFrom hused t (List.mem_range.mpr ht) ht
  rw [usedSlots_eq hr] at hused
  cases hused
  obtain ⟨⟨q', w'⟩, hloop, h⟩ := bind_eq_ok.mp h
  cases h
  obtain ⟨hw', hn, hf, hflags⟩ := compactLoop_header hloop (le_of_eq rfl)
    fun e he => (mem_liveEntries.mp ((sortByOffset_perm _).mem_iff.mp he)).1
  refine ⟨hr, by rw [getNumSlots_setFreeStart, hn], ?_, fun t ht => ?_⟩
  · rw [storedFreeStart_setFreeStart, hw', sum_sortByOffset]
    rfl
  · rw [slot_setFreeStart, hflags t ht]
    split
    · rename_i hm
      obtain ⟨e, he, rfl⟩ := List.mem_map.mp (mem_sortByOffset_fst.mp hm)
      exact ((mem_liveEntries.mp he).2.1).symm
    · rfl

theorem tiles_congr {p q : Page} {ids : List Nat} {a b : Nat}
    (h : ∀ t ∈ ids, q.slot t = p.slot t) : q.Tiles ids a b ↔ p.Tiles ids a b := by
  induction ids generalizing a with
  | nil => rfl
  | cons t ids ih =>
    simp only [Tiles, h t (by simp), ih fun s hs => h s (by simp [hs])]

theorem Tiles.sorted {p : Page} {ids : List Nat} {a b : Nat} (h : p.Tiles ids a b) :
    ids.Pairwise fun s t => (p.slot s).offset ≤ (p.slot t).offset := by
  induction ids generalizing a with
  | nil => exact List.Pairwise.nil
  | cons s ids ih =>
    obtain ⟨hs, hrest⟩ := h
    refine List.pairwise_cons.mpr ⟨fun t ht => ?_, ih hrest⟩
    have := (hrest.bounds.2 t ht).1
    omega

theorem compactLoop_tiles {q : Page} {ids : List Nat} {a b : Nat} (h : q.Tiles ids a b)
    (hids : ∀ t ∈ ids, (q.slot t).inUse = slotInUseValid ∧ 8 + 6 * t + 5 ≤ pageSize) :
    compactLoop (ids.map fun t => (t, (q.slot t).offset, (q.slot t).length)) q a = .ok (q, b) := by
  induction ids generalizing a with
  | nil => exact congrArg (fun b => Except.ok (q, b)) h
  | cons t ids ih =>
    obtain ⟨rfl, hrest⟩ := h
    obtain ⟨hv, hw⟩ := hids t (List.mem_cons_self _ _)
    have hslide : q.slide (t, (q.slot t).offset, (q.slot t).length) (q.slot t).offset = q := by
      simp only [slide, ne_eq, not_true_eq_false, if_false, ← hv]
      exact putSlot_slot q hw
    refine compactLoop_cons.mpr ⟨fun hne => absurd rfl hne, hw, ?_⟩
    rw [hslide]
    exact ih hrest fun t' ht' => hids t' (List.mem_cons_of_mem _ ht')

theorem compact_chain {p : Page} (hp : p.Inv) :
    (sortByOffset p.liveEntries).Pairwise
      fun a b => 0 < a.2.2 → 0 < b.2.2 → a.2.1 + a.2.2 ≤ b.2.1 := by
  have hnd : (sortByOffset p.liveEntries).Pairwise fun a b => a.1 ≠ b.1 :=
    List.pairwise_map.mp (((sortByOffset_perm _).map Prod.fst).nodup_iff.mpr (liveEntries_nodup_fst p))
  refine ((sortByOffset_sorted _).and hnd).imp_of_mem fun ha hb hab hla hlb => ?_
  obtain ⟨han, hav, ha1, ha2⟩ := mem_liveEntries.mp ((sortByOffset_perm _).mem_iff.mp ha)
  obtain ⟨hbn, hbv, hb1, hb2⟩ := mem_liveEntries.mp ((sortByOffset_perm _).mem_iff.mp hb)
  have hd := hp.live_disjoint _ han _ hbn hab.2 hav hbv
  unfold RangesDisjoint at hd
  omega

theorem compact_layout {p : Page} (hp : p.Inv) :
    ∃ q, p.compact = .ok q ∧ q.getNumSlots = p.getNumSlots ∧
      (∀ t < p.getNumSlots, (q.slot t).inUse = (p.slot t).inUse) ∧
      q.storedFreeStart = p.getHeaderSize + p.liveBytes ∧ q.storedFreeStart ≤ pageSize ∧
      q.Tiles ((sortByOffset p.liveEntries).map Prod.fst) p.getHeaderSize q.storedFreeStart ∧
      ∀ t < p.getNumSlots, (p.slot t).inUse = slotInUseValid →
        (q.slot t).length = (p.slot t).length ∧
        q.slice (q.slot t).offset (p.slot t).length = p.slice (p.slot t).offset (p.slot t).length := by
  have hr := hp.readable
  have hmem : ∀ e ∈ sortByOffset p.liveEntries, e ∈ p.liveEntries :=
    fun e he => (sortByOffset_perm _).mem_iff.mp he
  have hnd : ((sortByOffset p.liveEntries).map Prod.fst).Nodup :=
    ((sortByOffset_perm _).map Prod.fst).nodup_iff.mpr (liveEntries_nodup_fst p)
  obtain ⟨q', hloop, hW, htiles, hentries, -, -⟩ :=
    compactLoop_spec hp.free_le_page le_rfl hp.header_le_free
      (fun e he => (mem_liveEntries.mp (hmem e he)).1) hnd
      (fun e he => by
        obtain ⟨ht, hv, h1, h2⟩ := mem_liveEntries.mp (hmem e he)
        rw [h1, h2]
        exact hp.live_before_free _ ht hv)
      (fun e he _ => by
        obtain ⟨ht, hv, h1, -⟩ := mem_liveEntries.mp (hmem e he)
        rw [h1]
        exact hp.live_after_header _ ht hv)
      (compact_chain hp)
  rw [sum_sortByOffset] at hloop hW htiles
  have hcomp : p.compact = .ok (q'.setFreeStart (p.getHeaderSize + p.liveBytes)) := by
    simp only [compact, usedSlots_eq hr, ok_bind]
    exact congrArg (· >>= _) hloop
  obtain ⟨-, hn, hfs, hflags⟩ := compact_header hcomp
  have hfs' := hfs.trans (Nat.min_eq_left (hW.trans hp.free_le_page))
  have htq : (q'.setFreeStart (p.getHeaderSize + p.liveBytes)).Tiles
      ((sortByOffset p.liveEntries).map Prod.fst) p.getHeaderSize (p.getHeaderSize + p.liveBytes) :=
    (tiles_congr fun t _ => slot_setFreeStart _ _ t).mpr htiles
  refine ⟨_, hcomp, hn, hflags, hfs', by rw [hfs']; exact hW.trans hp.free_le_page,
    by rw [hfs']; exact htq, fun t ht hv => ?_⟩
  have hlive : t ∈ (sortByOffset p.liveEntries).map Prod.fst := mem_sortByOffset_fst.mpr
    (List.mem_map.mpr ⟨(t, (p.slot t).offset, (p.slot t).length),
      mem_liveEntries.mpr ⟨ht, hv, rfl, rfl⟩, rfl⟩)
  obtain ⟨hl, hs⟩ := hentries (t, (p.slot t).offset, (p.slot t).length)
    ((sortByOffset_perm _).mem_iff.mpr (mem_liveEntries.mpr ⟨ht, hv, rfl, rfl⟩))
  have hb := (htq.bounds.2 t hlive).1
  rw [slot_setFreeStart] at hb ⊢
  refine ⟨hl, (slice_congr fun k _ => byte_setFreeStart _ _ ?_).trans hs⟩
  rw [getHeaderSize_eq] at hb
  omega

theorem compact_inv {p : Page} (hp : p.Inv) :
    ∃ q, p.compact = .ok q ∧ q.getNumSlots = p.getNumSlots ∧
      (∀ t < p.getNumSlots, (q.slot t).inUse = (p.slot t).inUse) ∧
      (∀ t, q.getValue t = p.getValue t) ∧ q.Inv ∧
      q.storedFreeStart = p.getHeaderSize + p.liveBytes ∧
      q.Tiles ((sortByOffset p.liveEntries).map Prod.fst) p.getHeaderSize q.storedFreeStart := by
  obtain ⟨q, hcomp, hn, hflags, hfs, hfp, htiles, hentry⟩ := compact_layout hp
  have hH : q.getHeaderSize = p.getHeaderSize := by rw [getHeaderSize_eq, getHeaderSize_eq, hn]
  have hlive : ∀ t < q.getNumSlots, (q.slot t).inUse = slotInUseValid →
      t ∈ (sortByOffset p.liveEntries).map Prod.fst := fun t ht hv => by
    rw [hn] at ht
    rw [hflags t ht] at hv
    exact mem_sortByOffset_fst.mpr (List.mem_map.mpr ⟨(t, (p.slot t).offset, (p.slot t).length),
      mem_liveEntries.mpr ⟨ht, hv, rfl, rfl⟩, rfl⟩)
  have hinv : q.Inv := Inv.of_tiles hfp
    (fun t ht => by rw [hn] at ht; rw [hflags t ht]; exact hp.in_use_flag t ht) hlive
    (((sortByOffset_perm _).map Prod.fst).nodup_iff.mpr (liveEntries_nodup_fst p)) (hH ▸ htiles)
  refine ⟨q, hcomp, hn, hflags, getValue_congr hp.readable hinv.readable hn hflags
    fun t ht hv => ?_, hinv, hfs, htiles⟩
  obtain ⟨hl, hs⟩ := hentry t ht hv
  have hb := (htiles.bounds.2 t (hlive t (hn ▸ ht) (by rw [hflags t ht]; exact hv))).2
  exact ⟨hl, hb.trans hfp, (hp.live_before_free t ht hv).trans hp.free_le_page, hs⟩

/-- `compact` keeps every flag and value and lays the live records end to end. -/
theorem compact_correct {p : Page} (hp : p.Inv) :
    ∃ q, p.compact = .ok q ∧ q.getNumSlots = p.getNumSlots ∧
      (∀ t < p.getNumSlots, (q.slot t).inUse = (p.slot t).inUse) ∧
      (∀ t, q.getValue t = p.getValue t) ∧ q.Inv ∧
      q.storedFreeStart = p.getHeaderSize + p.liveBytes ∧
      ∃ order : List Nat, order.Perm (p.liveEntries.map Prod.fst) ∧
        order.Pairwise (fun s t => (q.slot s).offset ≤ (q.slot t).offset) ∧
        q.Tiles order p.getHeaderSize q.storedFreeStart := by
  obtain ⟨q, hcomp, hn, hflags, hval, hinv, hfs, htiles⟩ := compact_inv hp
  exact ⟨q, hcomp, hn, hflags, hval, hinv, hfs, _, (sortByOffset_perm _).map Prod.fst,
    htiles.sorted, htiles⟩

theorem compact_correct_gap :
    ∃ p, p = ((((new 0).setNumSlots 3).putSlot 0 26 1 slotInUseValid).putSlot 2 4090 1
        slotInUseValid).setFreeStart 4091 ∧ p.Inv ∧
      (∃ q, p.compact = .ok q ∧ (q.slot 2).offset = 27) ∧
      ∃ q, p.compact = .ok q ∧ q.getNumSlots = p.getNumSlots ∧
        (∀ t < p.getNumSlots, (q.slot t).inUse = (p.slot t).inUse) ∧
        (∀ t, q.getValue t = p.getValue t) ∧ q.Inv ∧
        q.storedFreeStart = p.getHeaderSize + p.liveBytes ∧
        ∃ order : List Nat, order.Perm (p.liveEntries.map Prod.fst) ∧
          order.Pairwise (fun s t => (q.slot s).offset ≤ (q.slot t).offset) ∧
          q.Tiles order p.getHeaderSize q.storedFreeStart :=
  ⟨_, rfl, by decide, ⟨_, rfl, rfl⟩, compact_correct (by decide)⟩

theorem liveEntries_offset_ne {q : Page} (hq : q.Inv)
    (hpos : ∀ t < q.getNumSlots, (q.slot t).inUse = slotInUseValid → 0 < (q.slot t).length)
    {a b : Nat × Nat × Nat} (ha : a ∈ q.liveEntries) (hb : b ∈ q.liveEntries) (hab : a ≠ b) :
    a.2.1 ≠ b.2.1 := by
  obtain ⟨ha1, hva, ha2, ha3⟩ := mem_liveEntries.mp ha
  obtain ⟨hb1, hvb, hb2, hb3⟩ := mem_liveEntries.mp hb
  have hne : a.1 ≠ b.1 := fun h =>
    hab (Prod.ext h (Prod.ext (by rw [ha2, hb2, h]) (by rw [ha3, hb3, h])))
  have hd := hq.live_disjoint _ ha1 _ hb1 hne hva hvb
  have := hpos _ ha1 hva
  have := hpos _ hb1 hvb
  unfold RangesDisjoint at hd
  omega

theorem sortByOffset_liveEntries {q : Page} (hq : q.Inv)
    (hpos : ∀ t < q.getNumSlots, (q.slot t).inUse = slotInUseValid → 0 < (q.slot t).length)
    {ids : List Nat} (hperm : ids.Perm (q.liveEntries.map Prod.fst))
    (hsorted : ids.Pairwise fun s t => (q.slot s).offset ≤ (q.slot t).offset) :
    sortByOffset q.liveEntries = ids.map fun t => (t, (q.slot t).offset, (q.slot t).length) := by
  have hself : (q.liveEntries.map Prod.fst).map (fun t => (t, (q.slot t).offset, (q.slot t).length)) =
      q.liveEntries := by
    rw [List.map_map]
    refine (List.map_congr_left fun e he => ?_).trans (List.map_id _)
    obtain ⟨-, -, h1, h2⟩ := mem_liveEntries.mp he
    exact Prod.ext rfl (Prod.ext h1.symm h2.symm)
  have hE : (ids.map fun t => (t, (q.slot t).offset, (q.slot t).length)).Perm q.liveEntries :=
    hself ▸ hperm.map _
  have hnodup := (liveEntries_nodup_fst q).of_map
  have strict : ∀ {l : List (Nat × Nat × Nat)}, l.Perm q.liveEntries →
      l.Pairwise (fun a b => a.2.1 ≤ b.2.1) → l.Pairwise fun a b => a.2.1 < b.2.1 := fun hl hs =>
    (hs.and (hl.nodup_iff.mpr hnodup)).imp_of_mem fun ha hb h =>
      lt_of_le_of_ne h.1 (liveEntries_offset_ne hq hpos (hl.subset ha) (hl.subset hb) h.2)
  haveI : IsAntisymm (Nat × Nat × Nat) fun a b => a.2.1 < b.2.1 :=
    ⟨fun _ _ h1 h2 => absurd (h1.trans h2) (lt_irrefl _)⟩
  have hS := sortByOffset_perm q.liveEntries
  exact List.eq_of_perm_of_sorted (hS.trans hE.symm) (strict hS (sortByOffset_sorted _))
    (strict hE (List.pairwise_map.mpr hsorted))

/-- With no empty live record, `compact` is idempotent. -/
theorem compact_idempotent_of_pos_length {p : Page} (hp : p.Inv)
    (hpos : ∀ t < p.getNumSlots, (p.slot t).inUse = slotInUseValid → 0 < (p.slot t).length) :
    ∃ q, p.compact = .ok q ∧ q.compact = .ok q := by
  obtain ⟨q, hcomp, hn, hflags, -, hinv, -, htiles⟩ := compact_inv hp
  obtain ⟨q', hcomp', -, -, -, hfp, -, hentry⟩ := compact_layout hp
  obtain rfl : q = q' := Except.ok.inj (hcomp.symm.trans hcomp')
  refine ⟨q, hcomp, ?_⟩
  have hqpos : ∀ t < q.getNumSlots, (q.slot t).inUse = slotInUseValid → 0 < (q.slot t).length :=
    fun t ht hv => by
      rw [hn] at ht
      rw [hflags t ht] at hv
      exact (hentry t ht hv).1 ▸ hpos t ht hv
  have hperm : ((sortByOffset p.liveEntries).map Prod.fst).Perm (q.liveEntries.map Prod.fst) := by
    rw [liveEntries_map_fst_congr hn hflags]
    exact (sortByOffset_perm _).map _
  have hH : q.getHeaderSize = p.getHeaderSize := by rw [getHeaderSize_eq, getHeaderSize_eq, hn]
  have hloop := compactLoop_tiles htiles fun t ht => by
    obtain ⟨e, he, rfl⟩ := List.mem_map.mp (mem_sortByOffset_fst.mp ht)
    obtain ⟨hlt, hv, -⟩ := mem_liveEntries.mp he
    have := hp.readable _ hlt
    exact ⟨(hflags _ hlt).trans hv, by omega⟩
  simp only [compact, usedSlots_eq hinv.readable, ok_bind,
    sortByOffset_liveEntries hinv hqpos hperm htiles.sorted]
  rw [show fixedPageMetaSize + q.getNumSlots * bytesPerSlotMeta = p.getHeaderSize from hH, hloop]
  exact congrArg Except.ok (setFreeStart_storedFreeStart q hfp)

theorem compact_idempotent_of_pos_length_one :
    ∃ p : Page, p.Inv ∧
      (∀ t < p.getNumSlots, (p.slot t).inUse = slotInUseValid → 0 < (p.slot t).length) ∧
      ∃ q, p.compact = .ok q ∧ q.compact = .ok q :=
  let p := (((new 0).setNumSlots 1).putSlot 0 30 1 slotInUseValid).setFreeStart 31
  have hp : p.Inv := by decide
  have hpos : ∀ t < p.getNumSlots, (p.slot t).inUse = slotInUseValid → 0 < (p.slot t).length := by
    decide
  ⟨p, hp, hpos, compact_idempotent_of_pos_length hp hpos⟩

/-- An empty live record tied at the body start is moved by a second `compact`. -/
theorem compact_twice_moves_empty_record :
    ∃ p : Page, p.Inv ∧ p.getNumSlots = 2 ∧ p.slot 0 = ⟨30, 1, slotInUseValid⟩ ∧
      p.slot 1 = ⟨20, 0, slotInUseValid⟩ ∧ ∃ q q', p.compact = .ok q ∧ q.compact = .ok q' ∧
        (q.slot 1).offset = 20 ∧ (q'.slot 1).offset = 21 ∧ q'.toBytes ≠ q.toBytes := by
  refine ⟨(((((new 0).setNumSlots 2).putSlot 0 30 1 slotInUseValid).putSlot 1 20 0
    slotInUseValid).setFreeStart 31), by decide, by decide, by decide, by decide, _, _, rfl, rfl,
    by decide, by decide, fun h => absurd (congrArg (fun d => ((⟨d⟩ : Page).slot 1).offset) h)
      (by decide)⟩

end Page

end Heapstore
