import Heapstore.Layout

namespace Heapstore

namespace Page

theorem slot_store_inUse (p : Page) {s : Nat} {u : UInt8} (h : 8 + 6 * s + 4 < pageSize)
    (t : Nat) : (p.store (8 + 6 * s + 4) [u]).slot t =
      if t = s then ⟨(p.slot s).offset, (p.slot s).length, u⟩ else p.slot t := by
  split
  · subst t
    have hu : 8 + 6 * s + 4 + [u].length ≤ pageSize := by simp only [List.length_singleton]; omega
    simp (disch := omega) only [slot_eq, u16At_store_of_disjoint, byte_store _ hu]
    simp
  · exact slot_store _ (by simp only [List.length_singleton]; omega)

/-- Everything `delete_value` can do without a panic. -/
theorem deleteValue_eq_ok {p q : Page} {s : Nat} {r : Option Unit}
    (h : p.deleteValue s = .ok (r, q)) :
    (r = none ∧ q = p) ∨
    (r = some () ∧ s < p.getNumSlots ∧ (p.slot s).inUse = slotInUseValid ∧
      8 + 6 * s + 4 < pageSize ∧ q = p.store (8 + 6 * s + 4) [slotInUseFree]) := by
  simp only [deleteValue, pure_bind] at h
  split at h
  · cases h
    exact .inl ⟨rfl, rfl⟩
  rename_i hs
  obtain ⟨u, hu, h⟩ := bind_eq_ok.mp h
  have hr : 8 + 6 * s + 4 < pageSize := readable_of_getSlotInUse hu (by omega)
  rw [getSlotInUse_of_lt (by omega) hr] at hu
  cases hu
  dsimp only at h
  split at h
  · cases h
    exact .inl ⟨rfl, rfl⟩
  rename_i hv
  obtain ⟨q', hq', h⟩ := bind_eq_ok.mp h
  cases h
  obtain ⟨-, rfl⟩ := writeBytes_eq_ok.mp hq'
  exact .inr ⟨rfl, by omega, not_not.mp hv, hr, by simp [slotInUseOffset]⟩

theorem deleteValue_of_lt {p : Page} {s : Nat} (hs : s < p.getNumSlots)
    (hw : 8 + 6 * s + 4 < pageSize) : p.deleteValue s =
      .ok (if (p.slot s).inUse = slotInUseValid then (some (), p.store (8 + 6 * s + 4) [slotInUseFree])
        else (none, p)) := by
  simp only [deleteValue, pure_bind]
  rw [if_neg (by omega), getSlotInUse_of_lt hs hw]
  simp only [ok_bind]
  by_cases hv : (p.slot s).inUse = slotInUseValid
  · rw [if_pos hv, if_neg (not_not.mpr hv), setSlotInUse, writeBytes, if_pos (by
      simp only [slotMetaOffset_eq, slotInUseOffset, List.length_singleton]; omega),
      slotMetaOffset_eq]
    rfl
  · rw [if_neg hv, if_pos hv]
    rfl

theorem deleteValue_of_le {p : Page} {s : Nat} (hs : p.getNumSlots ≤ s) :
    p.deleteValue s = .ok (none, p) := by
  simp only [deleteValue, if_pos hs]
  rfl

/-- A slot that `delete_value` has freed is refused by a second call, on any page. -/
theorem deleteValue_twice {p q : Page} {s : Nat} (h : p.deleteValue s = .ok (some (), q)) :
    q.deleteValue s = .ok (none, q) := by
  rcases deleteValue_eq_ok h with ⟨h0, -⟩ | ⟨-, hs, -, hw, rfl⟩
  · cases h0
  rw [deleteValue_of_lt (by rw [getNumSlots_store _ (by omega)]; exact hs) hw,
    if_neg (by rw [slot_store_inUse p hw, if_pos rfl]; exact nofun)]

theorem deleteValue_twice_new :
    ∃ p q, (new 0).addValue [7] = .ok (some 0, p) ∧ p.deleteValue 0 = .ok (some (), q) ∧
      q.deleteValue 0 = .ok (none, q) :=
  let ⟨p, q, h1, h2⟩ : ∃ p q, (new 0).addValue [7] = .ok (some 0, p) ∧
      p.deleteValue 0 = .ok (some (), q) := ⟨_, _, rfl, rfl⟩
  ⟨p, q, h1, h2, deleteValue_twice h2⟩

theorem Inv.of_free {p q : Page} {s : Nat} (hp : p.Inv) (hn : q.getNumSlots = p.getNumSlots)
    (hf : q.storedFreeStart = p.storedFreeStart) (hfree : (q.slot s).inUse = slotInUseFree)
    (hother : ∀ t, t ≠ s → q.slot t = p.slot t) : q.Inv := by
  have hH : q.getHeaderSize = p.getHeaderSize := by rw [getHeaderSize_eq, getHeaderSize_eq, hn]
  have hlive : ∀ t < q.getNumSlots, (q.slot t).inUse = slotInUseValid →
      t < p.getNumSlots ∧ q.slot t = p.slot t ∧ (p.slot t).inUse = slotInUseValid := by
    intro t ht hv
    have hts : t ≠ s := by
      rintro rfl
      exact absurd (hfree ▸ hv) (by decide)
    rw [hother t hts] at hv ⊢
    exact ⟨hn ▸ ht, rfl, hv⟩
  refine ⟨by rw [hH, hf]; exact hp.header_le_free, hf ▸ hp.free_le_page, fun t ht => ?_,
    fun t ht hv => ?_, fun t ht hv => ?_, fun a ha b hb hab hva hvb => ?_⟩
  · by_cases hts : t = s
    · exact .inl (hts ▸ hfree)
    · rw [hother t hts]
      exact hp.in_use_flag t (hn ▸ ht)
  · obtain ⟨ht, heq, hv⟩ := hlive t ht hv
    rw [hH, heq]
    exact hp.live_after_header t ht hv
  · obtain ⟨ht, heq, hv⟩ := hlive t ht hv
    rw [hf, heq]
    exact hp.live_before_free t ht hv
  · obtain ⟨ha, hqa, hva⟩ := hlive a ha hva
    obtain ⟨hb, hqb, hvb⟩ := hlive b hb hvb
    rw [hqa, hqb]
    exact hp.live_disjoint a ha b hb hab hva hvb

/-- `delete_value` on an invariant page: no panic, the invariant kept, only slot `s` cleared. -/
theorem deleteValue_spec {p : Page} (hp : p.Inv) (s : Nat) :
    ∃ r q, p.deleteValue s = .ok (r, q) ∧
      (r = some () ↔ s < p.getNumSlots ∧ (p.slot s).inUse = slotInUseValid) ∧
      (r = none → q = p) ∧ q.Inv ∧ q.getValue s = .ok none ∧
      ∀ t, t ≠ s → q.getValue t = p.getValue t := by
  have hr := hp.readable
  by_cases hlive : s < p.getNumSlots ∧ (p.slot s).inUse = slotInUseValid
  · obtain ⟨hs, hv⟩ := hlive
    have hw := hr s hs
    have hslot := @slot_store_inUse p s slotInUseFree hw
    have hn := @getNumSlots_store p (8 + 6 * s + 4) [slotInUseFree] (by omega)
    have hfree : ((p.store (8 + 6 * s + 4) [slotInUseFree]).slot s).inUse = slotInUseFree := by
      rw [hslot, if_pos rfl]
    have hother : ∀ t, t ≠ s → (p.store (8 + 6 * s + 4) [slotInUseFree]).slot t = p.slot t :=
      fun t hts => by rw [hslot, if_neg hts]
    have hinv := hp.of_free hn (storedFreeStart_store _ (.inl (by omega))) hfree hother
    refine ⟨some (), _, by rw [deleteValue_of_lt hs hw, if_pos hv], iff_of_true rfl ⟨hs, hv⟩, nofun,
      hinv,
      by rw [getValue_eq hinv.readable, if_neg fun h => absurd (hfree ▸ h.2.1) (by decide)],
      fun t hts => ?_⟩
    rw [getValue_eq hinv.readable, getValue_eq hr, hn, hother t hts]
    split_ifs with hvt
    · have := hp.live_after_header t hvt.1 hvt.2.1
      have := getHeaderSize_eq p
      rw [slice_congr fun k _ => byte_store_of_not_mem _ (.inr (by simp only [List.length_singleton]; omega))]
    · rfl
  · refine ⟨none, p, ?_, ⟨nofun, fun h => absurd h hlive⟩, fun _ => rfl, hp, ?_, fun _ _ => rfl⟩
    · by_cases hs : s < p.getNumSlots
      · rw [deleteValue_of_lt hs (hr s hs), if_neg fun hv => hlive ⟨hs, hv⟩]
      · exact deleteValue_of_le (by omega)
    · rw [getValue_eq hr, if_neg fun h => hlive ⟨h.1, h.2.1⟩]

end Page

end Heapstore
