import Heapstore.Page
import Mathlib.Data.List.OfFn

namespace Heapstore

/-- The loop state of `compare_page`: the reported runs, `in_diff`, `diff_start` and `diff_vec`. -/
structure DiffState where
  res : List (Nat × List UInt8)
  inDiff : Bool
  diffStart : Nat
  diffVec : List UInt8

/-- One pass of the loop; a run is reported, its start cast `as Offset`, at the next equal byte. -/
def diffStep (st : DiffState) (i : Nat) (b1 b2 : UInt8) : DiffState :=
  if b1 ≠ b2 then
    if !st.inDiff then { st with diffStart := i, inDiff := true, diffVec := st.diffVec ++ [b1] }
    else { st with diffVec := st.diffVec ++ [b1] }
  else if st.inDiff then
    { st with res := st.res ++ [(st.diffStart % 65536, st.diffVec)], diffVec := [], inDiff := false }
  else st

/-- The loop of `compare_page` over `bytes.iter().zip(&other_page).enumerate()`. -/
def diffLoop : List UInt8 → List UInt8 → Nat → DiffState → DiffState
  | b1 :: bytes, b2 :: other, i, st => diffLoop bytes other (i + 1) (diffStep st i b1 b2)
  | _, _, _, st => st

namespace Page

/-- `compare_page`: `assert_eq!` on the lengths, then the loop, with no flush of the last run. -/
def comparePage (p : Page) (otherPage : List UInt8) : Except Panic (List (Nat × List UInt8)) :=
  let bytes := List.ofFn p.toBytes
  if bytes.length ≠ otherPage.length then .error .assertFailed
  else .ok (diffLoop bytes otherPage 0 ⟨[], false, 0, []⟩).res

end Page

theorem diffLoop_append {xs ys xs' ys' : List UInt8} (hlen : xs.length = ys.length) (i : Nat)
    (st : DiffState) :
    diffLoop (xs ++ xs') (ys ++ ys') i st = diffLoop xs' ys' (i + xs.length) (diffLoop xs ys i st) := by
  induction xs generalizing ys i st with
  | nil =>
    cases ys with
    | nil => rfl
    | cons _ _ => cases hlen
  | cons b1 xs ih =>
    cases ys with
    | nil => cases hlen
    | cons b2 ys =>
      rw [List.cons_append, List.cons_append, diffLoop, diffLoop, ih (by simpa using hlen),
        List.length_cons, Nat.add_assoc, Nat.add_comm 1]

theorem diffLoop_self (xs : List UInt8) (i : Nat) (st : DiffState) (hst : st.inDiff = false) :
    diffLoop xs xs i st = st := by
  induction xs generalizing i with
  | nil => rfl
  | cons b xs ih =>
    rw [diffLoop, diffStep, if_neg (by simp), if_neg (by simp [hst])]
    exact ih (i + 1)

namespace Page

/-- A difference in the last byte only is never reported. -/
theorem comparePage_drops_final_run :
    List.ofFn (fromBytes fun _ => 0).toBytes ≠ List.replicate 4095 0 ++ [1] ∧
      (fromBytes fun _ => 0).comparePage (List.replicate 4095 0 ++ [1]) = .ok [] := by
  have hbytes : List.ofFn (fromBytes fun _ => 0).toBytes = List.replicate 4095 0 ++ [0] := by
    rw [toBytes, fromBytes, List.ofFn_const, pageSize, List.replicate_succ']
  refine ⟨fun h => absurd (List.append_cancel_left (hbytes ▸ h)) (by decide), ?_⟩
  rw [comparePage, hbytes, if_neg (by simp only [List.length_append, List.length_singleton, ne_eq, not_true_eq_false,
      not_false_eq_true]),
    diffLoop_append rfl, diffLoop_self _ _ _ rfl]
  rfl

/-- `(s, v)` is a maximal differing run closed by an equal byte; `v` holds this page's bytes. -/
def ClosedDiffRun (p : Page) (other : List UInt8) (s : Nat) (v : List UInt8) : Prop :=
  0 < v.length ∧ s + v.length < pageSize ∧ v = p.slice s v.length ∧
    (∀ k < v.length, p.byte (s + k) ≠ other.getD (s + k) 0) ∧
    (s = 0 ∨ p.byte (s - 1) = other.getD (s - 1) 0) ∧
    p.byte (s + v.length) = other.getD (s + v.length) 0

instance (p : Page) (other : List UInt8) (s : Nat) (v : List UInt8) :
    Decidable (p.ClosedDiffRun other s v) :=
  inferInstanceAs (Decidable (_ ∧ _ ∧ _ ∧ _ ∧ _ ∧ _))

theorem slice_succ (p : Page) (a n : Nat) : p.slice a (n + 1) = p.slice a n ++ [p.byte (a + n)] := by
  simp [slice, List.range_succ]

theorem diffStart_unique {p : Page} {other : List UInt8} {s s' i : Nat}
    (h : ∀ k, s ≤ k → k < i → p.byte k ≠ other.getD k 0)
    (h' : ∀ k, s' ≤ k → k < i → p.byte k ≠ other.getD k 0)
    (hs : s = 0 ∨ p.byte (s - 1) = other.getD (s - 1) 0)
    (hs' : s' = 0 ∨ p.byte (s' - 1) = other.getD (s' - 1) 0) (hsi : s ≤ i) (hsi' : s' ≤ i) :
    s = s' := by
  rcases Nat.lt_trichotomy s s' with hlt | heq | hlt
  · rcases hs' with h0 | he
    · omega
    · exact absurd he (h (s' - 1) (by omega) (by omega))
  · exact heq
  · rcases hs with h0 | he
    · omega
    · exact absurd he (h' (s - 1) (by omega) (by omega))

end Page

/-- What the loop state means at `i`: the closed runs that end before `i`, then the open run. -/
structure DiffSpec (p : Page) (other : List UInt8) (st : DiffState) (i : Nat) : Prop where
  res_iff : ∀ s v, (s, v) ∈ st.res ↔ p.ClosedDiffRun other s v ∧ s + v.length < i
  res_sorted : st.res.Pairwise fun x y => x.1 + x.2.length < y.1
  open_after : st.inDiff → ∀ x ∈ st.res, x.1 + x.2.length < st.diffStart
  open_run : st.inDiff → st.diffStart + st.diffVec.length = i ∧ 0 < st.diffVec.length ∧
    st.diffVec = p.slice st.diffStart st.diffVec.length ∧
    (∀ k < st.diffVec.length, p.byte (st.diffStart + k) ≠ other.getD (st.diffStart + k) 0) ∧
    (st.diffStart = 0 ∨ p.byte (st.diffStart - 1) = other.getD (st.diffStart - 1) 0)
  closed : st.inDiff = false → st.diffVec = [] ∧ (0 < i → p.byte (i - 1) = other.getD (i - 1) 0)

theorem DiffSpec.start (p : Page) (other : List UInt8) : DiffSpec p other ⟨[], false, 0, []⟩ 0 :=
  ⟨fun s v => by simp, List.Pairwise.nil, nofun, nofun, fun _ => ⟨rfl, nofun⟩⟩

theorem Page.closedDiffRun_before_succ {p : Page} {other : List UInt8} {i : Nat}
    (hi : p.byte i ≠ other.getD i 0) (s : Nat) (v : List UInt8) :
    p.ClosedDiffRun other s v ∧ s + v.length < i ↔ p.ClosedDiffRun other s v ∧ s + v.length < i + 1 :=
  and_congr_right fun h => ⟨fun _ => by omega, fun _ => by
    have : s + v.length ≠ i := fun he => hi (he ▸ h.2.2.2.2.2)
    omega⟩

theorem DiffSpec.step {p : Page} {other : List UInt8} {st : DiffState} {i : Nat}
    (hi : DiffSpec p other st i) (hlt : i < pageSize) :
    DiffSpec p other (diffStep st i (p.byte i) (other.getD i 0)) (i + 1) := by
  obtain ⟨res, inDiff, start, vec⟩ := st
  obtain ⟨hres, hsorted, hafter, hopen, hclosed⟩ := hi
  dsimp only at hres hsorted hafter hopen hclosed
  unfold diffStep
  by_cases hb : p.byte i = other.getD i 0 <;> cases inDiff
  · -- equal byte, no open run: nothing changes, and no closed run ends at `i`
    simp only [hb, ne_eq, not_true_eq_false, if_false, Bool.false_eq_true]
    refine ⟨fun s v => ?_, hsorted, nofun, nofun, fun _ => ⟨(hclosed rfl).1, fun _ => hb⟩⟩
    rw [hres]
    refine and_congr_right fun hrun => ⟨fun h => by omega, fun h => ?_⟩
    rcases Nat.lt_succ_iff_lt_or_eq.mp h with h | h
    · exact h
    · have hne := hrun.2.2.2.1 (v.length - 1) (by have := hrun.1; omega)
      have heq := (hclosed rfl).2 (by have := hrun.1; omega)
      rw [show s + (v.length - 1) = i - 1 by have := hrun.1; omega] at hne
      exact absurd heq hne
  · -- equal byte closes the open run, which is reported
    simp only [hb, ne_eq, not_true_eq_false, if_false, if_true]
    obtain ⟨hend, hpos, hvec, hdiff, hstart⟩ := hopen rfl
    have hmod : start % 65536 = start := Nat.mod_eq_of_lt (by unfold pageSize at hlt; omega)
    rw [hmod]
    have hrun : p.ClosedDiffRun other start vec :=
      ⟨hpos, by omega, hvec, hdiff, hstart, by rw [hend]; exact hb⟩
    refine ⟨fun s v => ?_, ?_, nofun, nofun, fun _ => ⟨rfl, fun _ => hb⟩⟩
    · rw [List.mem_append, hres, List.mem_singleton, Prod.mk.injEq]
      constructor
      · rintro (⟨hr, h⟩ | ⟨rfl, rfl⟩)
        · exact ⟨hr, by omega⟩
        · exact ⟨hrun, by omega⟩
      · rintro ⟨hr, h⟩
        rcases Nat.lt_succ_iff_lt_or_eq.mp h with h | h
        · exact .inl ⟨hr, h⟩
        · right
          have hs : s = start := @Page.diffStart_unique p other s start i
            (fun k h1 h2 => by have := hr.2.2.2.1 (k - s) (by omega); rwa [Nat.add_sub_cancel' h1] at this)
            (fun k h1 h2 => by have := hdiff (k - start) (by omega); rwa [Nat.add_sub_cancel' h1] at this)
            hr.2.2.2.2.1 hstart (by omega) (by omega)
          subst hs
          have hl : v.length = vec.length := by omega
          exact ⟨rfl, by rw [hr.2.2.1, hvec, hl]⟩
    · exact List.pairwise_append.mpr ⟨hsorted, List.pairwise_singleton _ _, fun x hx y hy => by
        rw [List.mem_singleton.mp hy]
        exact hafter rfl x hx⟩
  · -- differing byte opens a run at `i`
    simp only [hb, ne_eq, not_false_eq_true, if_true, Bool.not_false]
    obtain ⟨rfl, hprev⟩ := hclosed rfl
    refine ⟨fun s v => (hres s v).trans (Page.closedDiffRun_before_succ hb s v), hsorted,
      fun _ x hx => ((hres _ _).mp hx).2, fun _ => ?_, nofun⟩
    refine ⟨by simp, by simp, rfl, fun k hk => ?_, ?_⟩
    · simp only [List.nil_append, List.length_singleton, Nat.lt_one_iff] at hk
      subst hk
      exact hb
    · rcases Nat.eq_zero_or_pos i with h0 | h0
      · exact .inl h0
      · exact .inr (hprev h0)
  · -- differing byte extends the open run
    simp only [hb, ne_eq, not_false_eq_true, if_true, Bool.not_true, Bool.false_eq_true, if_false]
    obtain ⟨hend, hpos, hvec, hdiff, hstart⟩ := hopen rfl
    refine ⟨fun s v => (hres s v).trans (Page.closedDiffRun_before_succ hb s v), hsorted,
      fun _ => hafter rfl, fun _ => ⟨by simp; omega, by simp, ?_, fun k hk => ?_, hstart⟩, nofun⟩
    · rw [List.length_append, List.length_singleton, Page.slice_succ, ← hvec, hend]
    · simp only [List.length_append, List.length_singleton] at hk
      rcases Nat.lt_succ_iff_lt_or_eq.mp hk with hk | hk
      · exact hdiff k hk
      · rw [hk, hend]
        exact hb

theorem DiffSpec.loop {p : Page} {other : List UInt8} : ∀ (xs ys : List UInt8) (i : Nat)
    (st : DiffState), DiffSpec p other st i → i + xs.length ≤ pageSize → xs.length = ys.length →
      (∀ k < xs.length, xs.getD k 0 = p.byte (i + k) ∧ ys.getD k 0 = other.getD (i + k) 0) →
      DiffSpec p other (diffLoop xs ys i st) (i + xs.length)
  | [], [], _, _, hi, _, _, _ => hi
  | b1 :: xs, b2 :: ys, i, st, hi, hlen, heq, hel => by
    obtain ⟨h1, h2⟩ := hel 0 (by simp)
    simp only [List.getD_cons_zero, Nat.add_zero] at h1 h2
    rw [diffLoop, h1, h2, List.length_cons, ← Nat.add_assoc, Nat.add_right_comm]
    simp only [List.length_cons] at hlen heq
    exact loop xs ys (i + 1) _ (hi.step (by omega)) (by omega) (by omega) fun k hk => by
      have := hel (k + 1) (by simp; omega)
      simpa only [List.getD_cons_succ, Nat.add_right_comm i 1 k, Nat.add_assoc] using this

namespace Page

theorem comparePage_spec {p : Page} {other : List UInt8} {res : List (Nat × List UInt8)}
    (h : p.comparePage other = .ok res) : ∃ st, DiffSpec p other st pageSize ∧ st.res = res := by
  simp only [comparePage, List.length_ofFn, ne_eq] at h
  by_cases hlen : pageSize = other.length
  · rw [if_neg (not_not.mpr hlen)] at h
    have hspec := DiffSpec.loop (List.ofFn p.toBytes) other 0 _ (DiffSpec.start p other)
      (by rw [List.length_ofFn, Nat.zero_add]) (by rw [List.length_ofFn, hlen]) fun k hk => by
        rw [List.length_ofFn] at hk
        refine ⟨?_, by rw [Nat.zero_add]⟩
        rw [List.getD_eq_getElem?_getD, List.getElem?_ofFn, Nat.zero_add]
        simp [List.ofFnNthVal, hk, byte, toBytes]
    rw [Nat.zero_add, List.length_ofFn] at hspec
    exact ⟨_, hspec, Except.ok.inj h⟩
  · rw [if_pos hlen] at h
    exact absurd h nofun

theorem comparePage_first_byte :
    (fromBytes fun _ => 0).comparePage ([1] ++ List.replicate 4095 0) = .ok [(0, [0])] := by
  have hbytes : List.ofFn (fromBytes fun _ => 0).toBytes = [0, 0] ++ List.replicate 4094 0 := by
    rw [toBytes, fromBytes, List.ofFn_const, pageSize]
    rfl
  rw [comparePage, hbytes, if_neg (by simp only [List.length_append, List.length_replicate,
      List.length_cons, List.length_nil, ne_eq, not_true_eq_false, not_false_eq_true]),
    show [1] ++ List.replicate 4095 (0 : UInt8) = [1, 0] ++ List.replicate 4094 0 from rfl,
    @diffLoop_append [0, 0] [1, 0] _ _ rfl, diffLoop_self _ _ _ rfl]
  rfl

/-- A differing run that reaches the last byte of the page is never reported. -/
theorem comparePage_runs_end_before_last {p : Page} {other : List UInt8}
    {res : List (Nat × List UInt8)} (h : p.comparePage other = .ok res) :
    ∀ x ∈ res, x.1 + x.2.length < pageSize := by
  obtain ⟨st, hspec, rfl⟩ := comparePage_spec h
  exact fun x hx => ((hspec.res_iff x.1 x.2).mp hx).2

theorem comparePage_runs_end_before_last_first_byte :
    (fromBytes fun _ => 0).comparePage ([1] ++ List.replicate 4095 0) = .ok [(0, [0])] ∧
      ∀ x ∈ [((0 : Nat), [(0 : UInt8)])], x.1 + x.2.length < pageSize :=
  ⟨comparePage_first_byte, comparePage_runs_end_before_last comparePage_first_byte⟩

/-- `compare_page` reports exactly the maximal differing runs closed before the page end, in order. -/
theorem comparePage_eq_closed_runs {p : Page} {other : List UInt8}
    {res : List (Nat × List UInt8)} (h : p.comparePage other = .ok res) :
    (∀ s v, (s, v) ∈ res ↔ p.ClosedDiffRun other s v) ∧
      res.Pairwise fun x y => x.1 + x.2.length < y.1 := by
  obtain ⟨st, hspec, rfl⟩ := comparePage_spec h
  exact ⟨fun s v => (hspec.res_iff s v).trans (and_iff_left_of_imp fun hr => hr.2.1),
    hspec.res_sorted⟩

theorem comparePage_eq_closed_runs_first_byte :
    (fromBytes fun _ => 0).comparePage ([1] ++ List.replicate 4095 0) = .ok [(0, [0])] ∧
      (∀ s v, (s, v) ∈ [((0 : Nat), [(0 : UInt8)])] ↔
        (fromBytes fun _ => 0).ClosedDiffRun ([1] ++ List.replicate 4095 0) s v) ∧
      [((0 : Nat), [(0 : UInt8)])].Pairwise fun x y => x.1 + x.2.length < y.1 :=
  ⟨comparePage_first_byte, comparePage_eq_closed_runs comparePage_first_byte⟩

end Page

end Heapstore
