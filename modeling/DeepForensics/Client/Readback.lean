/-
# Reading a printed dump

A dump is printed to be read.  A row has an address, eight cells of two hexadecimal digits and
eight characters, all of fixed width; so a reader that knows nothing but the text finds the rows
between the newlines and the cells in their columns.  What it finds are the bytes that were
printed: the printer fills only the last row up, with cells that are no digits.
-/
import DeepForensics.Client.Print
import DeepForensics.Lib.Tokens

namespace DeepForensics
namespace Client

open Wire Tokens

/-! ## The reader -/

/-- A row of the dump: the digits of the address, the cells and the characters. -/
structure Line where
  address : List UInt8
  hex : List (List UInt8)
  chars : List UInt8
deriving DecidableEq, Repr

namespace Line

/-- The text of a row, without the newline. -/
def text (l : Line) : List UInt8 :=
  str ['0', 'x'] ++ l.address ++ str ['\t']
    ++ l.hex.flatMap (· ++ str [' ']) ++ str ['\t'] ++ l.chars

/-- Cells of two characters, each with a space behind it. -/
def readCells : List UInt8 → List (List UInt8)
  | a :: b :: _ :: s => [a, b] :: readCells s
  | _ => []

/-- A row by its columns. -/
def read (text : List UInt8) : Line :=
  ⟨(text.drop 2).take 8, readCells ((text.drop 11).take 24), text.drop 36⟩

end Line

/-- The rows of a text. -/
def readRows (text : List UInt8) : List Line := (lines (ch '\n') text).map Line.read

/-- The cell that stands for no byte. -/
def dots : List UInt8 := str ['.', '.']

/-- The bytes of the rows: the values of all cells but the dotted ones. -/
def readBytes (rows : List Line) : List UInt8 :=
  ((rows.flatMap Line.hex).filter (· ≠ dots)).map fun c => UInt8.ofNat (numeral 16 c)

/-- A row with all its columns. -/
structure Row extends Line where
  address_length : address.length = 8
  hex_length : hex.length = 8
  cell_length : ∀ c ∈ hex, c.length = 2
  chars_length : chars.length = 8
  newline : ch '\n' ∉ toLine.text

lemma readCells_flatMap {cells : List (List UInt8)} (h : ∀ c ∈ cells, c.length = 2) :
    Line.readCells (cells.flatMap (· ++ str [' '])) = cells := by
  induction cells with
  | nil => rfl
  | cons c cells ih =>
    obtain ⟨a, b, rfl⟩ := List.length_eq_two.mp (h c List.mem_cons_self)
    rw [List.flatMap_cons]
    show [a, b] :: Line.readCells (cells.flatMap (· ++ str [' '])) = _
    rw [ih fun c hc => h c (List.mem_cons_of_mem _ hc)]

lemma flatMap_cells_length {cells : List (List UInt8)} (h : ∀ c ∈ cells, c.length = 2) :
    (cells.flatMap (· ++ str [' '])).length = 3 * cells.length := by
  induction cells with
  | nil => rfl
  | cons c cells ih =>
    have hspace : (str [' ']).length = 1 := rfl
    rw [List.flatMap_cons, List.length_append, List.length_append, hspace,
      ih fun c hc => h c (List.mem_cons_of_mem _ hc), h c List.mem_cons_self, List.length_cons]
    omega

/-- A row is read back: the three columns begin at 2, 11 and 36. -/
lemma Row.read_text (row : Row) : Line.read row.text = row.toLine := by
  have hcells : (row.hex.flatMap (· ++ str [' '])).length = 24 := by
    rw [flatMap_cells_length row.cell_length, row.hex_length]
  have hfront : (str ['0', 'x'] ++ row.address ++ str ['\t']).length = 11 := by
    rw [List.length_append, List.length_append, row.address_length]
    rfl
  have haddress : (row.text.drop 2).take 8 = row.address := by
    rw [Line.text, List.append_assoc, List.append_assoc, List.append_assoc, List.append_assoc,
      List.drop_left' (show (str ['0', 'x']).length = 2 from rfl),
      List.take_left' row.address_length]
  have hhex : (row.text.drop 11).take 24 = row.hex.flatMap (· ++ str [' ']) := by
    rw [Line.text, List.append_assoc, List.append_assoc, List.drop_left' hfront,
      List.take_left' hcells]
  have hchars : row.text.drop 36 = row.chars := by
    rw [Line.text]
    refine List.drop_left' ?_
    rw [List.length_append, List.length_append, hfront, hcells]
    rfl
  rw [Line.read, haddress, hhex, hchars, readCells_flatMap row.cell_length]

/-- The reader finds the rows that were printed. -/
lemma readRows_flatMap (rows : List Row) :
    readRows (rows.flatMap fun row => row.text ++ str ['\n']) = rows.map Row.toLine := by
  induction rows with
  | nil => rfl
  | cons row rows ih =>
    have hnl : str ['\n'] = [ch '\n'] := rfl
    rw [List.flatMap_cons, hnl, List.append_assoc, List.singleton_append, readRows,
      lines_append _ row.newline, List.map_cons, row.read_text, List.map_cons]
    exact congrArg _ ih

/-! ## The printer -/

section Printed

variable (request : Request) (data : List UInt8)

/-- The cell at position `k`. -/
def hexText (k : ℕ) : List UInt8 :=
  if k < request.length then hexPad 2 (data.getD k 0).toNat else dots

/-- The character at position `k`. -/
def charText (k : ℕ) : UInt8 :=
  if k < request.length ∧ isprint (data.getD k 0) then data.getD k 0 else ch '.'

lemma hexText_length (k : ℕ) : (hexText request data k).length = 2 := by
  rw [hexText]
  split_ifs
  · exact hexPad_length (data.getD k 0).toNat_lt
  · rfl

lemma newline_notMem_hexPad (w n : ℕ) : ch '\n' ∉ hexPad w n := notMem_hexPad (by decide) w n

lemma newline_notMem_hexText (k : ℕ) : ch '\n' ∉ hexText request data k := by
  rw [hexText]
  split_ifs
  · exact newline_notMem_hexPad 2 _
  · decide

/-- A newline is not printable. -/
lemma charText_ne_newline (k : ℕ) : ch '\n' ≠ charText request data k := by
  rw [charText]
  split_ifs with h
  · intro heq
    rw [← heq] at h
    exact absurd h.2 (by decide)
  · decide

/-- The row that is printed for the positions from `i` on. -/
def printedRow (i : ℕ) : Row where
  address := hexPad 8 (u32 (request.startingAddress + i))
  hex := (List.range 8).map fun j => hexText request data (i + j)
  chars := (List.range 8).map fun j => charText request data (i + j)
  address_length := hexPad_length (u32_lt _)
  hex_length := by rw [List.length_map, List.length_range]
  cell_length := by
    intro c hc
    obtain ⟨j, -, rfl⟩ := List.mem_map.mp hc
    exact hexText_length request data _
  chars_length := by rw [List.length_map, List.length_range]
  newline := by
    simp only [Line.text, List.mem_append, List.mem_flatMap, List.mem_map]
    rintro (((((h | h) | h) | ⟨c, ⟨j, -, rfl⟩, h | h⟩) | h) | ⟨j, -, h⟩)
    · exact absurd h (by decide)
    · exact newline_notMem_hexPad 8 _ h
    · exact absurd h (by decide)
    · exact newline_notMem_hexText request data _ h
    · exact absurd h (by decide)
    · exact absurd h (by decide)
    · exact charText_ne_newline request data _ h.symm

variable {request data}

lemma cells_text (cell : ℕ → Printing) (i : ℕ) :
    (cells cell i).text = (List.range 8).flatMap fun j : ℕ => (cell (u32 (i + j : ℕ))).text := rfl

/-- A round of the outer loop prints a row. -/
lemma row_text {i : ℕ} (hi : i + 8 ≤ 2 ^ 32) :
    (row request data i).text = (printedRow request data i).text ++ str ['\n'] := by
  have hu32 : ∀ j ∈ List.range 8, u32 (i + j : ℕ) = i + j := by
    intro j hj
    rw [List.mem_range] at hj
    exact u32_natCast (by omega)
  have hhex : (cells (hexCell request data) i).text
      = ((List.range 8).map fun j => hexText request data (i + j)).flatMap (· ++ str [' ']) := by
    rw [cells_text, List.flatMap_map]
    refine List.flatMap_congr fun j hj => ?_
    rw [hu32 j hj, hexCell, hexText]
    split_ifs
    · rfl
    · rfl
  have hchars : (cells (charCell request data) i).text
      = (List.range 8).map fun j => charText request data (i + j) := by
    rw [cells_text, List.map_eq_flatMap]
    refine List.flatMap_congr fun j hj => ?_
    rw [hu32 j hj, charCell, charText]
    split_ifs with hk hp hand hand hand
    · rfl
    · exact absurd ⟨hk, hp⟩ hand
    · exact absurd hand.2 hp
    · rfl
    · exact absurd hand.1 hk
    · rfl
  rw [row, hhex, hchars]
  rfl

/-- The rows that are printed, when there are `m` of them from `i` on. -/
def printedRows (request : Request) (data : List UInt8) (i m : ℕ) : List Row :=
  (List.range' i m 8).map (printedRow request data)

/-- The outer loop prints the rows that are left; the induction is on their number. -/
lemma rowLoop_text (data : List UInt8) (hlen : request.length ≤ 2 ^ 32 - 8) :
    ∀ m i fuel : ℕ, request.length ≤ i + 8 * m → (∀ r < m, i + 8 * r < request.length) →
      m < fuel → ∃ p, rowLoop request data fuel i = some p ∧
        p.text = (printedRows request data i m).flatMap fun row => row.text ++ str ['\n'] := by
  intro m
  induction m with
  | zero =>
    intro i fuel hend _ hfuel
    obtain ⟨fuel, rfl⟩ := Nat.exists_eq_add_one.mpr hfuel
    rw [rowLoop, if_neg (by omega)]
    exact ⟨_, rfl, rfl⟩
  | succ m ih =>
    intro i fuel hend hrows hfuel
    obtain ⟨fuel, rfl⟩ := Nat.exists_eq_add_one.mpr (Nat.zero_lt_of_lt hfuel)
    have hi : i < request.length := by simpa using hrows 0 (Nat.succ_pos m)
    have hnext : u32 (i + 8) = i + 8 := u32_natCast (n := i + 8) (by omega)
    have hrest : ∀ r < m, i + 8 + 8 * r < request.length := by
      intro r hr
      have hlt := hrows (r + 1) (by omega)
      omega
    obtain ⟨p, hp, htext⟩ := ih (i + 8) fuel (by omega) hrest (by omega)
    refine ⟨_, by rw [rowLoop, if_pos hi, hnext, hp]; rfl, ?_⟩
    dsimp only
    rw [htext, row_text (by omega), printedRows, printedRows, List.range'_succ, List.map_cons,
      List.flatMap_cons]

end Printed

/-! ## The dump as a whole -/

/-- A cell is two hexadecimal digits, or the dots. -/
def IsCell (c : List UInt8) : Prop := c = dots ∨ c.length = 2 ∧ ∀ x ∈ c, isDigit 16 x = true

/-- The rows are a faithful dump of the data. -/
structure Faithful (request : Request) (data : List UInt8) (rows : List Line) : Prop where
  count : rows.length = (request.length + 7) / 8
  address : ∀ r row, rows[r]? = some row → row.address.length = 8 ∧
    row.address = hexPad 8 ((request.startingAddress + 8 * r) % 2 ^ 32)
  cells : ∀ row ∈ rows, row.hex.length = 8 ∧ (∀ c ∈ row.hex, IsCell c) ∧ row.chars.length = 8
  bytes : readBytes rows = data.take request.length
  /-- Only the last row is filled up. -/
  dotted : ∀ r row j, rows[r]? = some row → row.hex[j]? = some dots →
    r + 1 = rows.length ∧ request.length ≤ 8 * r + j
  chars : ∀ r row j, rows[r]? = some row → j < 8 → row.chars[j]? = some
    (if 8 * r + j < request.length ∧ isprint (data.getD (8 * r + j) 0)
      then data.getD (8 * r + j) 0 else ch '.')

section Faithful

variable {request : Request} {data : List UInt8}

/-- The positions of `m` rows, one after the other. -/
lemma flatMap_positions {α : Type} (f : ℕ → α) :
    ∀ m i : ℕ, ((List.range' i m 8).flatMap fun i => (List.range 8).map fun j => f (i + j))
      = (List.range' i (8 * m)).map f := by
  intro m
  induction m with
  | zero => exact fun i => rfl
  | succ m ih =>
    intro i
    have hrow : ((List.range 8).map fun j => f (i + j)) = (List.range' i 8).map f := rfl
    rw [List.range'_succ, List.flatMap_cons, ih, hrow, ← List.map_append, List.range'_append_1,
      Nat.mul_succ, Nat.add_comm]

lemma hexPad_ne_dots (w n : ℕ) : hexPad w n ≠ dots := by
  intro h
  have hdot : ch '.' ∉ hexPad w n := notMem_hexPad (by decide) w n
  rw [h] at hdot
  exact hdot List.mem_cons_self

lemma hexText_eq_dots_iff (k : ℕ) : hexText request data k = dots ↔ request.length ≤ k := by
  rw [hexText]
  split_ifs with hk
  · exact iff_of_false (hexPad_ne_dots _ _) (not_le.mpr hk)
  · exact iff_of_true rfl (not_lt.mp hk)

lemma isCell_hexText (k : ℕ) : IsCell (hexText request data k) := by
  by_cases hk : request.length ≤ k
  · exact Or.inl ((hexText_eq_dots_iff k).mpr hk)
  · refine Or.inr ⟨hexText_length request data k, fun x hx => ?_⟩
    rw [hexText, if_pos (not_le.mp hk)] at hx
    obtain ⟨d, hd, rfl⟩ := hexPad_mem hx
    exact isDigit_digitChar d hd

/-- The cells below the length are read, the others are skipped. -/
lemma readCells_hexText (hdata : request.length ≤ data.length) {n : ℕ} (hn : request.length ≤ n) :
    (((List.range' 0 n).map (hexText request data)).filter (· ≠ dots)).map
      (fun c => UInt8.ofNat (numeral 16 c)) = data.take request.length := by
  obtain ⟨d, rfl⟩ := Nat.exists_eq_add_of_le hn
  have hsplit : List.range' 0 (request.length + d)
      = List.range request.length ++ List.range' request.length d := by
    rw [List.range_eq_range', ← List.range'_append_1, Nat.zero_add]
  have hread : ((List.range request.length).map (hexText request data)).filter (· ≠ dots)
      = (List.range request.length).map (hexText request data) := by
    refine List.filter_eq_self.mpr fun c hc => ?_
    obtain ⟨k, hk, rfl⟩ := List.mem_map.mp hc
    rw [List.mem_range] at hk
    rw [decide_eq_true_eq, Ne, hexText_eq_dots_iff]
    exact not_le.mpr hk
  have hskip : ((List.range' request.length d).map (hexText request data)).filter (· ≠ dots)
      = [] := by
    refine List.filter_eq_nil_iff.mpr fun c hc => ?_
    obtain ⟨k, hk, rfl⟩ := List.mem_map.mp hc
    rw [List.mem_range'_1] at hk
    rw [decide_eq_true_eq, not_not, hexText_eq_dots_iff]
    exact hk.1
  rw [hsplit, List.map_append, List.filter_append, hread, hskip, List.append_nil, List.map_map,
    ← map_getD_range data hdata]
  refine List.map_congr_left fun k hk => ?_
  rw [List.mem_range] at hk
  rw [Function.comp_apply, hexText, if_pos hk, numeral_hexPad, UInt8.ofNat_toNat]

/-- The row with the number `r` begins at the position `8 * r`. -/
lemma getElem?_printedRows {m r : ℕ} {row : Line}
    (h : ((printedRows request data 0 m).map Row.toLine)[r]? = some row) :
    r < m ∧ row = (printedRow request data (8 * r)).toLine := by
  rw [printedRows, List.map_map, List.getElem?_map] at h
  obtain ⟨i, hi, rfl⟩ := Option.map_eq_some_iff.mp h
  obtain ⟨hr, rfl⟩ := List.getElem?_eq_some_iff.mp hi
  rw [List.length_range'] at hr
  rw [List.getElem_range', Nat.zero_add]
  exact ⟨hr, rfl⟩

lemma readBytes_printedRows (hdata : request.length ≤ data.length) {m : ℕ}
    (hm : request.length ≤ 8 * m) :
    readBytes ((printedRows request data 0 m).map Row.toLine) = data.take request.length := by
  have hcells : ((printedRows request data 0 m).map Row.toLine).flatMap Line.hex
      = (List.range' 0 (8 * m)).map (hexText request data) := by
    rw [← flatMap_positions, printedRows, List.map_map, List.flatMap_map]
    rfl
  rw [readBytes, hcells, readCells_hexText hdata hm]

lemma faithful_printedRows (hdata : request.length ≤ data.length) {m : ℕ}
    (hm : m = (request.length + 7) / 8) :
    Faithful request data ((printedRows request data 0 m).map Row.toLine) := by
  have hlength : ((printedRows request data 0 m).map Row.toLine).length = m := by
    rw [List.length_map, printedRows, List.length_map, List.length_range']
  constructor
  · rw [hlength, hm]
  · intro r row h
    obtain ⟨-, rfl⟩ := getElem?_printedRows h
    refine ⟨(printedRow request data (8 * r)).address_length, ?_⟩
    show hexPad 8 (u32 (request.startingAddress + (8 * r : ℕ))) = _
    congr 1
  · intro row h
    obtain ⟨r, hr⟩ := List.getElem?_of_mem h
    obtain ⟨-, rfl⟩ := getElem?_printedRows hr
    refine ⟨(printedRow request data (8 * r)).hex_length, fun c hc => ?_,
      (printedRow request data (8 * r)).chars_length⟩
    obtain ⟨j, -, rfl⟩ := List.mem_map.mp hc
    exact isCell_hexText _
  · exact readBytes_printedRows hdata (by omega)
  · intro r row j h hdots
    obtain ⟨hr, rfl⟩ := getElem?_printedRows h
    change ((List.range 8).map fun j => hexText request data (8 * r + j))[j]? = some dots at hdots
    rw [List.getElem?_map] at hdots
    obtain ⟨k, hk, hdots⟩ := Option.map_eq_some_iff.mp hdots
    obtain ⟨hj, rfl⟩ := List.getElem?_eq_some_iff.mp hk
    rw [List.getElem_range, hexText_eq_dots_iff] at hdots
    rw [List.length_range] at hj
    rw [hlength]
    omega
  · intro r row j h hj
    obtain ⟨-, rfl⟩ := getElem?_printedRows h
    show ((List.range 8).map fun j => charText request data (8 * r + j))[j]? = _
    rw [List.getElem?_map, List.getElem?_range hj]
    rfl

/-- **`print_mem` can be read back.**  For every address and every length that leaves room for one
more row, `print_mem` ends, and the rows that a reader finds in its text are a faithful dump of the
data; printed again they give the same text. -/
theorem printMem_faithful (request : Request) (data : List UInt8)
    (hlen : request.length ≤ 2 ^ 32 - 8) (hdata : request.length ≤ data.length) :
    ∃ p, printMem request data = some p ∧ Faithful request data (readRows p.text) ∧
      ((readRows p.text).flatMap fun row => row.text ++ str ['\n']) = p.text := by
  obtain ⟨m, hm⟩ : ∃ m, m = (request.length + 7) / 8 := ⟨_, rfl⟩
  obtain ⟨p, hp, htext⟩ := rowLoop_text data hlen m 0 (request.length / 8 + 2) (by omega)
    (by omega) (by omega)
  have hrows : readRows p.text = (printedRows request data 0 m).map Row.toLine := by
    rw [htext, readRows_flatMap]
  refine ⟨p, hp, ?_, ?_⟩
  · rw [hrows]
    exact faithful_printedRows hdata hm
  · rw [hrows, htext, List.flatMap_map]

/-- Nine bytes at the end of the address space: the second row has a wrapped address and seven
dotted cells. -/
theorem printMem_faithful_nine :
    ∃ p, printMem ⟨0xfffffff8, 9⟩ [72, 105, 10, 0, 46, 127, 128, 255, 33, 34] = some p ∧
      (readRows p.text).length = 2 ∧
      (∀ row, (readRows p.text)[1]? = some row → row.address = List.replicate 8 (ch '0')) ∧
      readBytes (readRows p.text) = [72, 105, 10, 0, 46, 127, 128, 255, 33] := by
  obtain ⟨p, hp, hfaithful, -⟩ := printMem_faithful ⟨0xfffffff8, 9⟩
    [72, 105, 10, 0, 46, 127, 128, 255, 33, 34] (by decide) (by decide)
  refine ⟨p, hp, hfaithful.count, fun row h => ?_, hfaithful.bytes⟩
  rw [(hfaithful.address 1 row h).2]
  decide

end Faithful

end Client
end DeepForensics
