import Mathlib.Data.List.Basic

namespace Heapstore

/-- `PAGE_SIZE`, fixed at 4096: the `common` crate that defines it is not under `src/`. -/
def pageSize : Nat := 4096

/-- Why a call panics: an index out of range, a `usize` or `u16` overflow, a failed assert. -/
inductive Panic
  | outOfBounds
  | subtractOverflow
  | addOverflow
  | assertFailed
  deriving DecidableEq, Repr

theorem bind_eq_ok {ε α β : Type} {x : Except ε α} {f : α → Except ε β} {b : β} :
    x >>= f = .ok b ↔ ∃ a, x = .ok a ∧ f a = .ok b := by
  cases x <;> simp [bind, Except.bind]

theorem map_eq_ok {ε α β : Type} {x : Except ε α} {f : α → β} {b : β} :
    x.map f = .ok b ↔ ∃ a, x = .ok a ∧ f a = b := by
  cases x <;> simp [Except.map]

theorem bind_ok_of {ε α β : Type} {x : Except ε α} {f : α → Except ε β} (P : α → Prop)
    (hx : ∃ a, x = .ok a ∧ P a) (hf : ∀ a, P a → ∃ b, f a = .ok b) : ∃ b, x >>= f = .ok b := by
  obtain ⟨a, rfl, ha⟩ := hx
  exact hf a ha

@[simp] theorem ok_bind {ε α β : Type} (a : α) (f : α → Except ε β) :
    (Except.ok a >>= f) = f a := rfl

@[simp] theorem error_bind {ε α β : Type} (e : ε) (f : α → Except ε β) :
    (Except.error e >>= f) = .error e := rfl

theorem uint8_toNat_ofNat (x : Nat) : (UInt8.ofNat x).toNat = x % 256 := by
  simp [UInt8.toNat, UInt8.ofNat]

/-- `struct Page { data: [u8; PAGE_SIZE] }`. -/
structure Page where
  data : Fin pageSize → UInt8

namespace Page

theorem ext' {p q : Page} (h : ∀ i, p.data i = q.data i) : p = q := by
  cases p; cases q; simp only [mk.injEq]; exact funext h

/-- The byte at `i`, read as `0` past the end of the page. -/
def byte (p : Page) (i : Nat) : UInt8 := if h : i < pageSize then p.data ⟨i, h⟩ else 0

theorem ext_byte {p q : Page} (h : ∀ i < pageSize, p.byte i = q.byte i) : p = q :=
  ext' fun i => by simpa [byte, i.2] using h i.1 i.2

/-- `self.data[i]`. -/
def get (p : Page) (i : Nat) : Except Panic UInt8 :=
  if i < pageSize then .ok (p.byte i) else .error .outOfBounds

/-- Two bytes read as a little-endian `u16`: `u16::from_le_bytes(self.data[pos..pos + 2])`. -/
def u16At (p : Page) (pos : Nat) : Nat := (p.byte pos).toNat + 256 * (p.byte (pos + 1)).toNat

/-- `(x as u16).to_le_bytes()`. -/
def leBytes (x : Nat) : List UInt8 := [UInt8.ofNat x, UInt8.ofNat (x / 256)]

@[simp] theorem leBytes_length (x : Nat) : (leBytes x).length = 2 := rfl

/-- `self.data[a..a + len].to_vec()`, for a range inside the page. -/
def slice (p : Page) (a len : Nat) : List UInt8 := (List.range len).map fun k => p.byte (a + k)

/-- The page with `bs` stored from `pos` on. -/
def store (p : Page) (pos : Nat) (bs : List UInt8) : Page :=
  ⟨fun j => if pos ≤ j.1 ∧ j.1 < pos + bs.length then bs.getD (j.1 - pos) 0 else p.data j⟩

/-- `copy_from_slice`, `clone_from_slice` or `fill` into `data[pos..pos + len]`, range-checked. -/
def writeBytes (p : Page) (pos : Nat) (bs : List UInt8) : Except Panic Page :=
  if pos + bs.length ≤ pageSize then .ok (p.store pos bs) else .error .outOfBounds

/-- The page after copying `len` bytes from `src` to `dest`, all read before any is written. -/
def move (p : Page) (src len dest : Nat) : Page :=
  ⟨fun j => if dest ≤ j.1 ∧ j.1 < dest + len then p.byte (src + (j.1 - dest)) else p.data j⟩

/-- `self.data.copy_within(src..src + len, dest)`. -/
def copyWithin (p : Page) (src len dest : Nat) : Except Panic Page :=
  if src + len ≤ pageSize ∧ dest + len ≤ pageSize then .ok (p.move src len dest)
  else .error .outOfBounds

theorem byte_store (p : Page) {pos : Nat} {bs : List UInt8} (h : pos + bs.length ≤ pageSize)
    (i : Nat) : (p.store pos bs).byte i =
      if pos ≤ i ∧ i < pos + bs.length then bs.getD (i - pos) 0 else p.byte i := by
  by_cases hi : i < pageSize
  · simp [byte, store, hi]
  · rw [if_neg (by omega)]
    simp [byte, hi]

theorem byte_store_of_not_mem (p : Page) {pos i : Nat} {bs : List UInt8}
    (h : i < pos ∨ pos + bs.length ≤ i) : (p.store pos bs).byte i = p.byte i := by
  unfold byte store
  split <;> simp only [ite_eq_right_iff, and_imp]
  omega

theorem byte_move (p : Page) {src len dest : Nat} (h : dest + len ≤ pageSize) (i : Nat) :
    (p.move src len dest).byte i =
      if dest ≤ i ∧ i < dest + len then p.byte (src + (i - dest)) else p.byte i := by
  by_cases hi : i < pageSize
  · simp only [byte, move, hi, dite_true]
  · rw [if_neg (by omega)]
    simp [byte, hi]

theorem byte_move_of_not_mem (p : Page) {src len dest i : Nat} (h : i < dest ∨ dest + len ≤ i) :
    (p.move src len dest).byte i = p.byte i := by
  unfold byte move
  split <;> simp only [ite_eq_right_iff, and_imp]
  omega

theorem move_zero (p : Page) (src dest : Nat) : p.move src 0 dest = p :=
  ext' fun j => by simp [move]

theorem slice_congr_offset {p q : Page} {a b len : Nat}
    (h : ∀ k < len, p.byte (a + k) = q.byte (b + k)) : p.slice a len = q.slice b len :=
  List.map_congr_left fun k hk => h k (List.mem_range.mp hk)

theorem slice_congr {p q : Page} {a len : Nat} (h : ∀ k < len, p.byte (a + k) = q.byte (a + k)) :
    p.slice a len = q.slice a len :=
  slice_congr_offset h

theorem slice_store (p : Page) {pos : Nat} {bs : List UInt8} (h : pos + bs.length ≤ pageSize) :
    (p.store pos bs).slice pos bs.length = bs := by
  refine List.ext_getElem (by simp [slice]) fun k h1 h2 => ?_
  simp only [slice, List.getElem_map, List.getElem_range, byte_store p h]
  rw [if_pos ⟨Nat.le_add_right _ _, Nat.add_lt_add_left h2 _⟩, Nat.add_sub_cancel_left,
    List.getD_eq_getElem?_getD, List.getElem?_eq_getElem h2, Option.getD_some]

theorem store_slice (p : Page) {pos len : Nat} (h : pos + len ≤ pageSize) :
    p.store pos (p.slice pos len) = p := by
  have hl : pos + (p.slice pos len).length ≤ pageSize := by simpa [slice] using h
  refine ext_byte fun i _ => ?_
  rw [byte_store p hl]
  split_ifs with hi
  · simp only [slice, List.length_map, List.length_range] at hi
    simp [slice, List.getElem?_range (show i - pos < len by omega), Nat.add_sub_cancel' hi.1]
  · rfl

theorem writeBytes_eq_ok {p q : Page} {pos : Nat} {bs : List UInt8} :
    p.writeBytes pos bs = .ok q ↔ pos + bs.length ≤ pageSize ∧ q = p.store pos bs := by
  unfold writeBytes
  split <;> simp_all [eq_comm]

theorem copyWithin_eq_ok {p q : Page} {src len dest : Nat} :
    p.copyWithin src len dest = .ok q ↔
      (src + len ≤ pageSize ∧ dest + len ≤ pageSize) ∧ q = p.move src len dest := by
  unfold copyWithin
  split <;> simp_all [eq_comm]

theorem u16At_congr {p q : Page} {pos : Nat} (h0 : p.byte pos = q.byte pos)
    (h1 : p.byte (pos + 1) = q.byte (pos + 1)) : p.u16At pos = q.u16At pos := by
  simp only [u16At, h0, h1]

theorem u16At_store_of_disjoint (p : Page) {pos a : Nat} {bs : List UInt8}
    (h : a + 2 ≤ pos ∨ pos + bs.length ≤ a) : (p.store pos bs).u16At a = p.u16At a :=
  u16At_congr (p.byte_store_of_not_mem (by omega)) (p.byte_store_of_not_mem (by omega))

theorem u16At_move_of_disjoint (p : Page) {src len dest a : Nat}
    (h : a + 2 ≤ dest ∨ dest + len ≤ a) : (p.move src len dest).u16At a = p.u16At a :=
  u16At_congr (p.byte_move_of_not_mem (by omega)) (p.byte_move_of_not_mem (by omega))

theorem u16At_lt (p : Page) (pos : Nat) : p.u16At pos < 65536 := by
  have : (p.byte pos).toNat < 256 := (p.byte pos).toNat_lt_size
  have : (p.byte (pos + 1)).toNat < 256 := (p.byte (pos + 1)).toNat_lt_size
  unfold u16At
  omega

theorem u16At_store_leBytes (p : Page) {pos : Nat} (x : Nat) (h : pos + 2 ≤ pageSize) :
    (p.store pos (leBytes x)).u16At pos = x % 65536 := by
  simp only [u16At, byte_store p (show pos + (leBytes x).length ≤ pageSize from h)]
  simp [leBytes, uint8_toNat_ofNat]
  omega

theorem leBytes_u16At (p : Page) (pos : Nat) : leBytes (p.u16At pos) = p.slice pos 2 := by
  have h0 : (p.byte pos).toNat < 256 := (p.byte pos).toNat_lt_size
  have h1 : (p.byte (pos + 1)).toNat < 256 := (p.byte (pos + 1)).toNat_lt_size
  show [_, _] = [p.byte (pos + 0), p.byte (pos + 1)]
  simp only [List.cons.injEq, and_true, Nat.add_zero]
  constructor <;> apply UInt8.toNat.inj <;> rw [uint8_toNat_ofNat, u16At] <;> omega

end Page

end Heapstore
