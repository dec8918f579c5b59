import Heapstore.Page
import Mathlib.Data.List.OfFn
import Mathlib.Data.Nat.Digits

namespace Heapstore

/-- `{}` on an unsigned integer: its decimal digits. -/
def decimal (n : Nat) : List Char := Nat.toDigits 10 n

/-- The value of a run of decimal digits. -/
def digitsValue (ds : List Char) : Nat := ds.foldl (fun n c => 10 * n + (c.toNat - '0'.toNat)) 0

/-- Reads a decimal number off the front of the text: its value and what follows its digits. -/
def readDecimal (cs : List Char) : Nat × List Char :=
  (digitsValue (cs.takeWhile Char.isDigit), cs.dropWhile Char.isDigit)

theorem digitChar_toNat : ∀ k < 10, (Nat.digitChar k).toNat = '0'.toNat + k := by decide

theorem digitChar_isDigit : ∀ k < 10, (Nat.digitChar k).isDigit = true := by decide

theorem toDigitsCore_append (f : Nat) : ∀ (n : Nat) (ds : List Char),
    Nat.toDigitsCore 10 f n ds = Nat.toDigitsCore 10 f n [] ++ ds := by
  induction f with
  | zero => intro n ds; rfl
  | succ f ih =>
    intro n ds
    simp only [Nat.toDigitsCore]
    split
    · rfl
    · rw [ih _ (_ :: ds), ih _ [_]]
      simp

theorem toDigitsCore_spec : ∀ (f n : Nat), n < f →
    (∀ c ∈ Nat.toDigitsCore 10 f n [], c.isDigit = true) ∧
      digitsValue (Nat.toDigitsCore 10 f n []) = n ∧ Nat.toDigitsCore 10 f n [] ≠ []
  | 0, n, h => absurd h (Nat.not_lt_zero n)
  | f + 1, n, h => by
    have hd := digitChar_isDigit _ (Nat.mod_lt n (show 10 > 0 by decide))
    have hv := digitChar_toNat _ (Nat.mod_lt n (show 10 > 0 by decide))
    simp only [Nat.toDigitsCore]
    split
    · next h0 =>
      refine ⟨by simpa using hd, ?_, List.cons_ne_nil _ _⟩
      simp only [digitsValue, List.foldl, hv, Nat.add_sub_cancel_left]
      omega
    · next h0 =>
      obtain ⟨hall, hval, -⟩ := toDigitsCore_spec f (n / 10) (by omega)
      rw [toDigitsCore_append]
      refine ⟨fun c hc => ?_, ?_, by simp⟩
      · rcases List.mem_append.mp hc with hc | hc
        · exact hall c hc
        · rw [List.mem_singleton.mp hc]; exact hd
      · rw [digitsValue, List.foldl_append, ← digitsValue, hval]
        simp only [List.foldl, hv, Nat.add_sub_cancel_left]
        omega

theorem decimal_spec (n : Nat) :
    (∀ c ∈ decimal n, c.isDigit = true) ∧ digitsValue (decimal n) = n ∧ decimal n ≠ [] :=
  toDigitsCore_spec (n + 1) n (Nat.lt_succ_self n)

theorem readDecimal_decimal (n : Nat) {rest : List Char}
    (h : ∀ c ∈ rest.head?, c.isDigit = false) : readDecimal (decimal n ++ rest) = (n, rest) := by
  obtain ⟨hall, hval, -⟩ := decimal_spec n
  have hstop : rest.takeWhile Char.isDigit = [] ∧ rest.dropWhile Char.isDigit = rest := by
    cases rest with
    | nil => exact ⟨rfl, rfl⟩
    | cons c rest =>
      have hc : ¬ c.isDigit = true := by rw [h c rfl]; decide
      exact ⟨List.takeWhile_cons_of_neg hc, List.dropWhile_cons_of_neg hc⟩
  rw [readDecimal, List.takeWhile_append_of_pos hall, List.dropWhile_append_of_pos hall, hstop.1,
    hstop.2, List.append_nil, hval]


/-- `BYTES_PER_LINE`. -/
def bytesPerLine : Nat := 40

/-- `{:4}` on an unsigned integer: its decimal digits, right-aligned in a field of width 4. -/
def padDecimal4 (n : Nat) : List Char := List.replicate (4 - (decimal n).length) ' ' ++ decimal n

/-- `{:02x}` on a byte: two lowercase hexadecimal digits. -/
def hex2 (b : UInt8) : List Char := [Nat.digitChar (b.toNat / 16), Nat.digitChar (b.toNat % 16)]

/-- One byte as the dump shows it: `.  `, `## `, or two hexadecimal digits and a space. -/
def byteCell (b : UInt8) : List Char :=
  if b = 0x00 then ['.', ' ', ' '] else if b = 0xff then ['#', '#', ' '] else hex2 b ++ [' ']

/-- The text after the count in the line for hidden lines. -/
def hiddenText : List Char := "empty lines were hidden\n".toList

/-- The line for `count` hidden lines: the count, a space, then `hiddenText`. -/
def hiddenLine (count : Nat) : List Char := decimal count ++ ' ' :: hiddenText

/-- The row for the bytes `pv` at `pos`: `[{:4}] `, one cell per byte, then a newline. -/
def rowLine (pos : Nat) (pv : List UInt8) : List Char :=
  '[' :: padDecimal4 pos ++ ']' :: ' ' :: (pv.flatMap byteCell ++ ['\n'])

/-- `if empty_lines_count != 0`: write the line for the hidden lines, if any. -/
def flushHidden (count : Nat) (buffer : List Char) : List Char :=
  if count ≠ 0 then buffer ++ hiddenLine count else buffer

/-- The `while pos < len_bytes` loop of `fmt`, with fuel; it returns the buffer and the count. -/
def fmtLoop (p : List UInt8) : Nat → Nat → Nat → List Char → List Char × Nat
  | 0, _, count, buffer => (buffer, count)
  | fuel + 1, pos, count, buffer =>
    if pos < p.length then
      let remaining := p.length - pos
      if remaining > bytesPerLine then
        let pv := (p.drop pos).take bytesPerLine
        if pv = List.replicate bytesPerLine 0 then
          fmtLoop p fuel (pos + bytesPerLine) (count + 1) buffer
        else fmtLoop p fuel (pos + bytesPerLine) 0 (flushHidden count buffer ++ rowLine pos pv)
      else
        let pv := (p.drop pos).take remaining
        if pv = List.replicate bytesPerLine 0 then
          fmtLoop p fuel (pos + bytesPerLine) (count + 1) buffer
        else fmtLoop p fuel (pos + bytesPerLine) 0 (flushHidden count buffer ++ rowLine pos pv)
    else (buffer, count)

/-- The first line of the dump before the page id. -/
def pidText : List Char := "PID:".toList

namespace Page

/-- `fmt` of `impl fmt::Debug for Page`: the text it writes. -/
def fmt (p : Page) : List Char :=
  let bytes := List.ofFn p.toBytes
  let loop := fmtLoop bytes bytes.length 0 0 (pidText ++ decimal p.getPageId ++ ['\n'])
  flushHidden loop.2 loop.1

end Page

/-- A line of the dump after the page id line. -/
inductive DumpLine
  | hidden (count : Nat)
  | row (pos : Nat) (bytes : List UInt8)
  deriving DecidableEq, Repr

namespace DumpLine

/-- The text of a line. -/
def render : DumpLine → List Char
  | hidden count => hiddenLine count
  | row pos bytes => rowLine pos bytes

/-- The page bytes a line stands for. -/
def bytes : DumpLine → List UInt8
  | hidden count => List.replicate (count * bytesPerLine) 0
  | row _ bytes => bytes

end DumpLine

/-- The chunks the loop of `fmt` visits from `pos`, the last one shorter. -/
def chunksFrom (p : List UInt8) : Nat → Nat → List (Nat × List UInt8)
  | 0, _ => []
  | fuel + 1, pos =>
    if pos < p.length then (pos, (p.drop pos).take bytesPerLine) :: chunksFrom p fuel (pos + bytesPerLine)
    else []

/-- `count` more hidden lines in front of `ls`, counted with the hidden lines `ls` starts with. -/
def prependHidden (count : Nat) (ls : List DumpLine) : List DumpLine :=
  if count = 0 then ls
  else match ls with
    | .hidden k :: ls => .hidden (count + k) :: ls
    | ls => .hidden count :: ls

/-- The lines shown for chunks: zero chunks are counted together, any other chunk is a row. -/
def dumpLines : List (Nat × List UInt8) → List DumpLine
  | [] => []
  | (pos, pv) :: rest =>
    if pv = List.replicate bytesPerLine 0 then prependHidden 1 (dumpLines rest)
    else .row pos pv :: dumpLines rest


theorem prependHidden_zero (ls : List DumpLine) : prependHidden 0 ls = ls := rfl

theorem prependHidden_prependHidden_one (count : Nat) (ls : List DumpLine) :
    prependHidden count (prependHidden 1 ls) = prependHidden (count + 1) ls := by
  rcases Nat.eq_zero_or_pos count with rfl | hc
  · rfl
  · unfold prependHidden
    rw [if_neg (by omega), if_neg (by omega), if_neg (by omega)]
    rcases ls with _ | ⟨_ | _, ls⟩ <;> simp only [Nat.add_comm 1, Nat.add_assoc]

theorem flatMap_prependHidden_row (count pos : Nat) (pv : List UInt8) (ls : List DumpLine) :
    (prependHidden count (.row pos pv :: ls)).flatMap DumpLine.render =
      (prependHidden count []).flatMap DumpLine.render ++ rowLine pos pv ++
        ls.flatMap DumpLine.render := by
  unfold prependHidden
  split <;> simp [DumpLine.render]

theorem flushHidden_eq (count : Nat) (buffer : List Char) :
    flushHidden count buffer = buffer ++ (prependHidden count []).flatMap DumpLine.render := by
  unfold flushHidden prependHidden
  split <;> simp_all [DumpLine.render]

theorem take_remaining {p : List UInt8} {pos : Nat} (h : ¬ p.length - pos > bytesPerLine) :
    (p.drop pos).take (p.length - pos) = (p.drop pos).take bytesPerLine := by
  rw [List.take_of_length_le (by simp), List.take_of_length_le (by simp; omega)]

theorem fmtLoop_succ_of_lt {p : List UInt8} {fuel pos count : Nat} {buffer : List Char}
    (h : pos < p.length) : fmtLoop p (fuel + 1) pos count buffer =
      if (p.drop pos).take bytesPerLine = List.replicate bytesPerLine 0 then
        fmtLoop p fuel (pos + bytesPerLine) (count + 1) buffer
      else fmtLoop p fuel (pos + bytesPerLine) 0
        (flushHidden count buffer ++ rowLine pos ((p.drop pos).take bytesPerLine)) := by
  rw [fmtLoop, if_pos h]
  by_cases hr : p.length - pos > bytesPerLine
  · rw [if_pos hr]
  · rw [if_neg hr, take_remaining hr]

/-- The loop of `fmt` writes the lines `dumpLines` gives for the chunks it visits. -/
theorem fmtLoop_eq (p : List UInt8) : ∀ fuel pos count buffer,
    flushHidden (fmtLoop p fuel pos count buffer).2 (fmtLoop p fuel pos count buffer).1 =
      buffer ++ (prependHidden count (dumpLines (chunksFrom p fuel pos))).flatMap DumpLine.render
  | 0, pos, count, buffer => flushHidden_eq count buffer
  | fuel + 1, pos, count, buffer => by
    by_cases hpos : pos < p.length
    · rw [fmtLoop_succ_of_lt hpos, chunksFrom, if_pos hpos, dumpLines]
      split
      · rw [fmtLoop_eq p fuel, prependHidden_prependHidden_one]
      · rw [fmtLoop_eq p fuel, prependHidden_zero, flatMap_prependHidden_row, flushHidden_eq]
        simp only [List.append_assoc]
    · rw [fmtLoop, if_neg hpos, chunksFrom, if_neg hpos, dumpLines]
      exact flushHidden_eq count buffer


theorem flatMap_bytes_prependHidden_one (ls : List DumpLine) :
    (prependHidden 1 ls).flatMap DumpLine.bytes =
      List.replicate bytesPerLine 0 ++ ls.flatMap DumpLine.bytes := by
  rcases ls with _ | ⟨_ | ⟨pos, bs⟩, ls⟩
  · rfl
  · next k =>
    show List.replicate ((1 + k) * bytesPerLine) 0 ++ ls.flatMap DumpLine.bytes =
      List.replicate bytesPerLine 0 ++ (List.replicate (k * bytesPerLine) 0 ++ ls.flatMap DumpLine.bytes)
    rw [Nat.add_mul, Nat.one_mul, List.replicate_add, List.append_assoc]
  · rfl

theorem dumpLines_bytes : ∀ cs : List (Nat × List UInt8),
    (dumpLines cs).flatMap DumpLine.bytes = cs.flatMap Prod.snd
  | [] => rfl
  | (pos, pv) :: rest => by
    rw [dumpLines, List.flatMap_cons]
    split
    · next h => rw [flatMap_bytes_prependHidden_one, dumpLines_bytes rest, h]
    · rw [List.flatMap_cons, dumpLines_bytes rest]
      rfl

theorem chunksFrom_bytes (p : List UInt8) : ∀ fuel pos, p.length - pos ≤ fuel →
    (chunksFrom p fuel pos).flatMap Prod.snd = p.drop pos
  | 0, pos, h => by
    rw [chunksFrom, List.flatMap_nil, List.drop_eq_nil_of_le (by omega)]
  | fuel + 1, pos, h => by
    rw [chunksFrom]
    split
    · rw [List.flatMap_cons, chunksFrom_bytes p fuel _ (by unfold bytesPerLine; omega),
        ← List.drop_drop]
      exact List.take_append_drop _ _
    · rw [List.flatMap_nil, List.drop_eq_nil_of_le (by omega)]


/-- The value of a hexadecimal digit as `{:x}` writes it. -/
def hexValue (c : Char) : Nat := if c.isDigit then c.toNat - '0'.toNat else c.toNat - 'a'.toNat + 10

/-- The byte a cell of the dump shows. -/
def cellByte (c1 c2 : Char) : UInt8 :=
  if c1 = '.' then 0x00 else if c1 = '#' then 0xff else UInt8.ofNat (16 * hexValue c1 + hexValue c2)

/-- Reads the cells of a row up to its newline: the bytes, and the text after the newline. -/
def readCells : List Char → Option (List UInt8 × List Char)
  | '\n' :: rest => some ([], rest)
  | c1 :: c2 :: ' ' :: rest => (readCells rest).map fun r => (cellByte c1 c2 :: r.1, r.2)
  | _ => none

theorem digitChar_hex : ∀ k < 16, hexValue (Nat.digitChar k) = k ∧ Nat.digitChar k ≠ '.' ∧
    Nat.digitChar k ≠ '#' ∧ Nat.digitChar k ≠ '\n' := by decide

theorem readCells_byteCell (b : UInt8) (rest : List Char) :
    readCells (byteCell b ++ rest) = (readCells rest).map fun r => (b :: r.1, r.2) := by
  unfold byteCell
  split_ifs with h0 h255
  · subst h0; rfl
  · subst h255; rfl
  · have h1 := digitChar_hex (b.toNat / 16) (by have := b.toNat_lt_size; unfold UInt8.size at this; omega)
    have h2 := digitChar_hex (b.toNat % 16) (Nat.mod_lt _ (by decide))
    have hb : cellByte (Nat.digitChar (b.toNat / 16)) (Nat.digitChar (b.toNat % 16)) = b := by
      rw [cellByte, if_neg h1.2.1, if_neg h1.2.2.1, h1.1, h2.1]
      apply UInt8.toNat.inj
      rw [uint8_toNat_ofNat]
      have := b.toNat_lt_size
      unfold UInt8.size at this
      omega
    show readCells (Nat.digitChar (b.toNat / 16) :: Nat.digitChar (b.toNat % 16) :: ' ' :: rest) = _
    rw [readCells.eq_2 _ _ _ h1.2.2.2, hb]

theorem readCells_cells (rest : List Char) : ∀ bs : List UInt8,
    readCells (bs.flatMap byteCell ++ '\n' :: rest) = some (bs, rest)
  | [] => by rw [List.flatMap_nil, List.nil_append, readCells]
  | b :: bs => by
    rw [List.flatMap_cons, List.append_assoc, readCells_byteCell, readCells_cells rest bs]
    rfl

/-- Reads one line after the id line: a row opens with a bracket, a hidden line with a count. -/
def readLine : List Char → Option (DumpLine × List Char)
  | '[' :: rest =>
    match readDecimal (rest.dropWhile (· == ' ')) with
    | (pos, ']' :: ' ' :: r) => (readCells r).map fun c => (.row pos c.1, c.2)
    | _ => none
  | cs =>
    match readDecimal cs with
    | (count, ' ' :: r) =>
      if r.take hiddenText.length = hiddenText then some (.hidden count, r.drop hiddenText.length)
      else none
    | _ => none

theorem isDigit_space : Char.isDigit ' ' = false := rfl

theorem head_not_digit {c : Char} (hc : c.isDigit = false) (rest : List Char) :
    ∀ d ∈ (c :: rest).head?, d.isDigit = false := fun d hd => by
  cases hd
  exact hc

theorem dropWhile_padDecimal4 (n : Nat) (rest : List Char) :
    (padDecimal4 n ++ rest).dropWhile (· == ' ') = decimal n ++ rest := by
  obtain ⟨hall, -, hne⟩ := decimal_spec n
  obtain ⟨d, ds, hd⟩ := List.exists_cons_of_ne_nil hne
  have hsp : ¬ (fun c : Char => c == ' ') d = true := fun h => by
    have := hall d (by rw [hd]; exact List.mem_cons_self _ _)
    rw [beq_iff_eq.mp h, isDigit_space] at this
    cases this
  rw [padDecimal4, List.append_assoc, List.dropWhile_append_of_pos (by simp), hd,
    List.cons_append, @List.dropWhile_cons_of_neg _ (fun c => c == ' ') d _ hsp]

theorem readLine_render (l : DumpLine) (rest : List Char) :
    readLine (l.render ++ rest) = some (l, rest) := by
  cases l with
  | row pos pv =>
    have hrow : (DumpLine.row pos pv).render ++ rest =
        '[' :: (padDecimal4 pos ++ (']' :: ' ' :: (pv.flatMap byteCell ++ '\n' :: rest))) := by
      simp [DumpLine.render, rowLine]
    rw [hrow, readLine, dropWhile_padDecimal4, readDecimal_decimal pos (@head_not_digit ']' rfl _)]
    simp only [readCells_cells, Option.map_some']
  | hidden count =>
    obtain ⟨hall, -, hne⟩ := decimal_spec count
    obtain ⟨d, ds, hd⟩ := List.exists_cons_of_ne_nil hne
    have hbr : d ≠ '[' := fun h => by
      have := hall d (by rw [hd]; exact List.mem_cons_self _ _)
      rw [h] at this
      cases this
    have hhid : (DumpLine.hidden count).render ++ rest = decimal count ++ ' ' :: (hiddenText ++ rest) := by
      simp [DumpLine.render, hiddenLine]
    rw [hhid, readLine.eq_2 _ (fun r h => hbr (by rw [hd] at h; exact (List.cons.inj h).1)),
      readDecimal_decimal count (@head_not_digit ' ' rfl _)]
    simp only [List.take_left', List.drop_left', if_true]

/-- Reads the lines of the dump after the page id line, at most `fuel` of them. -/
def readLines : Nat → List Char → Option (List DumpLine)
  | _, [] => some []
  | 0, _ :: _ => none
  | fuel + 1, c :: cs => (readLine (c :: cs)).bind fun r => (readLines fuel r.2).map (r.1 :: ·)

/-- Reads the page id and the page bytes back from the text `fmt` writes. -/
def decodeDump (cs : List Char) : Option (Nat × List UInt8) :=
  if cs.take pidText.length = pidText then
    match readDecimal (cs.drop pidText.length) with
    | (pid, '\n' :: r) => (readLines r.length r).map fun ls => (pid, ls.flatMap DumpLine.bytes)
    | _ => none
  else none

theorem render_ne_nil (l : DumpLine) : l.render ≠ [] := by
  cases l with
  | row pos pv => simp [DumpLine.render, rowLine]
  | hidden count => simp [DumpLine.render, hiddenLine]

theorem readLines_render : ∀ (ls : List DumpLine) (fuel : Nat), ls.length ≤ fuel →
    readLines fuel (ls.flatMap DumpLine.render) = some ls
  | [], fuel, _ => by cases fuel <;> rfl
  | l :: ls, fuel + 1, h => by
    obtain ⟨c, cs, hc⟩ := List.exists_cons_of_ne_nil (render_ne_nil l)
    have hread := readLine_render l (ls.flatMap DumpLine.render)
    rw [hc, List.cons_append] at hread
    rw [List.flatMap_cons, hc, List.cons_append, readLines, hread, Option.some_bind,
      readLines_render ls fuel (by simp at h; omega)]
    rfl

theorem length_le_flatMap_render (ls : List DumpLine) :
    ls.length ≤ (ls.flatMap DumpLine.render).length := by
  induction ls with
  | nil => exact Nat.le_refl 0
  | cons l ls ih =>
    have := List.length_pos.mpr (render_ne_nil l)
    simp only [List.length_cons, List.flatMap_cons, List.length_append]
    omega

namespace Page

/-- What `fmt` writes: the page id line, then the lines of the page's chunks. -/
theorem fmt_eq (p : Page) : p.fmt = pidText ++ decimal p.getPageId ++ ['\n'] ++
    (dumpLines (chunksFrom (List.ofFn p.toBytes) pageSize 0)).flatMap DumpLine.render := by
  have h := fmtLoop_eq (List.ofFn p.toBytes) (List.ofFn p.toBytes).length 0 0
    (pidText ++ decimal p.getPageId ++ ['\n'])
  rw [prependHidden_zero] at h
  simp only [fmt]
  rw [h, List.length_ofFn]

/-- The text `fmt` writes reads back to the page id and every byte of the page. -/
theorem decodeDump_fmt (p : Page) : decodeDump p.fmt = some (p.getPageId, List.ofFn p.toBytes) := by
  have hbytes : (dumpLines (chunksFrom (List.ofFn p.toBytes) pageSize 0)).flatMap DumpLine.bytes =
      List.ofFn p.toBytes := by
    rw [dumpLines_bytes, chunksFrom_bytes _ _ _ (by rw [List.length_ofFn]; exact Nat.sub_le _ _),
      List.drop_zero]
  rw [fmt_eq, decodeDump, List.append_assoc, List.append_assoc, List.take_left' rfl, if_pos rfl,
    List.drop_left' rfl, List.singleton_append, readDecimal_decimal _ (@head_not_digit '\n' rfl _)]
  simp only [readLines_render _ _ (length_le_flatMap_render _), Option.map_some', hbytes]

end Page

end Heapstore
