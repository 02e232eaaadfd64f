import LinuxCTemplate.Lgu.HexdumpBuffers
import Mathlib.Data.List.TakeDrop

/-!
# The rows of a hex dump

Every row is as wide as the others, so that the bytes can be read back from fixed places.
The limit is printed in the title, but nothing else depends on it.
-/

namespace LinuxCTemplate.Hexdump

open Foundation Printf

/-! ## What is printed -/

/-- The rows of the data. -/
def rows (data : List UInt8) : List (List Char) :=
  (List.range ((data.length + 15) / 16)).map (rowText data)

/-- The function prints the header and the text below it. -/
def Prints (result : Option Locals) (header body : List Char) : Prop :=
  ∃ last, result = some last ∧ last.out = header ++ body

theorem textColumn_eq_nil_iff (bytes : List UInt8) : textColumn bytes = [] ↔ bytes = [] := by
  have length := length_column (width_textCells bytes)
  rw [List.length_map] at length
  constructor
  · intro isNil
    rw [textColumn] at isNil
    rw [isNil, List.length_nil] at length
    exact List.length_eq_zero_iff.mp (by omega)
  · rintro rfl
    rfl

/-- All rows are printed, whatever the limit. -/
theorem hexdumpF_prints (data : List UInt8) (limit : UInt32) :
    Prints (hexdumpF data limit) (headerText data.length limit.toNat) (rows data).flatten := by
  obtain ⟨start, locals, _, _, out, _, dumping, isLast⟩ := hexdumpF_eq data limit
  refine ⟨_, isLast, ?_⟩
  have length := length_currentRow (le_refl data.length)
  have isEmpty : 0 < locals.hr.strlen ↔ data.length % 16 ≠ 0 := by
    rw [Buffer.strlen, dumping.hr, List.length_pos_iff, ne_eq, textColumn_eq_nil_iff, ← length,
      ne_eq, List.length_eq_zero_iff]
  by_cases whole : data.length % 16 = 0
  · have count : (data.length + 15) / 16 = data.length / 16 := by omega
    rw [if_neg (fun more => isEmpty.mp more whole), dumping.out, out, rows, count]
  · have count : (data.length + 15) / 16 = data.length / 16 + 1 := by omega
    have isRow : currentRow data data.length = rowBytes data (data.length / 16) := by
      have left : (data.drop (16 * (data.length / 16))).length = data.length % 16 := by
        rw [List.length_drop]
        omega
      rw [currentRow, rowBytes, List.take_of_length_le (by omega),
        List.take_of_length_le (by omega)]
    rw [if_pos (isEmpty.mpr whole), rows, count, List.range_succ, List.map_append,
      List.flatten_append, ← List.append_assoc]
    change locals.out ++ rowLine locals.line locals.hd.text locals.hr.text = _
    rw [dumping.out, out, dumping.line, dumping.hd, dumping.hr, isRow]
    simp [rowText]

/-! ## Reading a row -/

/-- Where the hex digits of the `j`-th byte of a row are. -/
def hexAt (j : Nat) : Nat := 9 + (3 * j + if 8 ≤ j then 1 else 0)

/-- Where the text of the `j`-th byte of a row is. -/
def textAt (j : Nat) : Nat := 60 + (j + if 8 ≤ j then 1 else 0)

/-- Read the hex digits of the `j`-th byte, if there are any. -/
def readCell (row : List Char) (j : Nat) : Option UInt8 :=
  (readHex ((row.drop (hexAt j)).take 2)).map UInt8.ofNat

/-- Read the hex column of a row. -/
def decodeRow (row : List Char) : List UInt8 := (List.range 16).filterMap (readCell row)

/-- A cell of a column, and what is before it. -/
theorem column_split (cells : List (List Char)) {j : Nat} (inside : j < cells.length) :
    ∃ more, column cells = column (cells.take j) ++ cells[j] ++ more := by
  refine ⟨(if j = 7 then [' '] else []) ++ columnFrom (j + 1) (cells.drop (j + 1)), ?_⟩
  have first : 0 + (cells.take j).length = j := by
    rw [List.length_take]
    omega
  conv_lhs => rw [← List.take_append_drop j cells, List.drop_eq_getElem_cons inside]
  rw [column, columnFrom_append, first, columnFrom, column]
  simp only [List.append_assoc]

/-- The cell at its place. -/
theorem drop_column {width : Nat} {cells : List (List Char)}
    (same : ∀ cell ∈ cells, cell.length = width) {j : Nat} (inside : j < cells.length) :
    ∃ more, (column cells).drop (width * j + if 8 ≤ j then 1 else 0) = cells[j] ++ more := by
  obtain ⟨more, isColumn⟩ := column_split cells inside
  have before : (column (cells.take j)).length = _ :=
    length_column fun cell member => same cell (List.mem_of_mem_take member)
  rw [List.length_take, Nat.min_eq_left (Nat.le_of_lt inside)] at before
  refine ⟨more, ?_⟩
  rw [isColumn, ← before, List.append_assoc, List.drop_left]

/-! ## The places of a row -/

theorem length_hexColumn (bytes : List UInt8) :
    (hexColumn bytes).length = 3 * bytes.length + (if 8 ≤ bytes.length then 1 else 0) := by
  have length := length_column (width_hexCells bytes)
  rwa [List.length_map] at length

theorem length_textColumn (bytes : List UInt8) :
    (textColumn bytes).length = bytes.length + (if 8 ≤ bytes.length then 1 else 0) := by
  have length := length_column (width_textCells bytes)
  rwa [List.length_map, Nat.one_mul] at length

/-- The line of at most 16 bytes. -/
structure IsLine (bytes : List UInt8) (line : UInt32) (text : List Char) : Prop where
  short : bytes.length ≤ 16
  text : text = rowLine line (hexColumn bytes) (textColumn bytes)

variable {bytes data : List UInt8} {line : UInt32} {text : List Char} {j row : Nat}

theorem length_address (line : UInt32) :
    ((upperHex (0x10 * line).toNat).leftpad 8 '0').length = 8 :=
  length_leftpad_upperHex (by decide) (0x10 * line).toNat_lt

theorem IsLine.length (isLine : IsLine bytes line text) : text.length = 79 := by
  have hexLength := length_hexColumn bytes
  have textLength := length_textColumn bytes
  have short := isLine.short
  have gap : (if 8 ≤ bytes.length then 1 else 0) ≤ 1 := by split <;> decide
  rw [isLine.text, rowLine]
  simp only [List.length_append, length_address, List.length_cons, List.length_nil,
    List.length_rightpad, hexLength, textLength]
  omega

/-- The line feed is the last character of a line and no other. -/
theorem IsLine.newline (isLine : IsLine bytes line text) :
    ∃ shown, text = shown ++ ['\n'] ∧ '\n' ∉ shown := by
  refine ⟨(upperHex (0x10 * line).toNat).leftpad 8 '0' ++ ' ' ::
    (hexColumn bytes).rightpad 49 ' ' ++ [' ', '|'] ++ (textColumn bytes).rightpad 17 ' ' ++ ['|'],
    by rw [isLine.text, rowLine]; simp, ?_⟩
  have readAddress : readHex ((upperHex (0x10 * line).toNat).leftpad 8 '0') =
      some (0x10 * line).toNat := by
    rw [readHex_leftpad, readHex_upperHex]
  have inAddress := not_mem_of_readHex readAddress (show hexValue '\n' = none by decide)
  have inHexes : '\n' ∉ hexColumn bytes := by
    refine not_mem_column (by decide) fun cell member => ?_
    obtain ⟨ch, _, rfl⟩ := List.mem_map.mp member
    exact not_mem_hexCell _ (by decide) (by decide)
  have inTexts : '\n' ∉ textColumn bytes := by
    refine not_mem_column (by decide) fun cell member => ?_
    obtain ⟨ch, _, rfl⟩ := List.mem_map.mp member
    exact not_mem_shownChar ch (by decide)
  have inBlanks : ∀ count, '\n' ∉ List.replicate count ' ' :=
    fun count member => absurd (List.eq_of_mem_replicate member) (by decide)
  simp only [List.rightpad, List.mem_append, List.mem_cons, List.not_mem_nil, or_false, not_or]
  exact ⟨⟨⟨⟨inAddress, by decide, inHexes, inBlanks _⟩, by decide, by decide⟩, inTexts,
    inBlanks _⟩, by decide⟩

theorem IsLine.address (isLine : IsLine bytes line text) :
    readHex (text.take 8) = some (0x10 * line).toNat := by
  have address := length_address line
  rw [isLine.text, rowLine]
  simp only [List.append_assoc]
  rw [List.take_left' address, readHex_leftpad, readHex_upperHex]

/-- What is in the hex column. -/
theorem IsLine.drop_hexAt (isLine : IsLine bytes line text) (j : Nat) :
    ∃ rest, text.drop (hexAt j) =
      ((hexColumn bytes).rightpad 49 ' ' ++ rest).drop (3 * j + if 8 ≤ j then 1 else 0) := by
  refine ⟨[' ', '|'] ++ (textColumn bytes).rightpad 17 ' ' ++ ['|', '\n'], ?_⟩
  have address : ((upperHex (0x10 * line).toNat).leftpad 8 '0' ++ [' ']).length = 9 := by
    rw [List.length_append, length_address]
    rfl
  have isText : text = ((upperHex (0x10 * line).toNat).leftpad 8 '0' ++ [' ']) ++
      ((hexColumn bytes).rightpad 49 ' ' ++
        ([' ', '|'] ++ (textColumn bytes).rightpad 17 ' ' ++ ['|', '\n'])) := by
    rw [isLine.text, rowLine]
    simp
  rw [hexAt, ← List.drop_drop, isText, List.drop_left' address]

theorem IsLine.readCell_inside (isLine : IsLine bytes line text) (inside : j < bytes.length) :
    readCell text j = some bytes[j] := by
  obtain ⟨rest, isHex⟩ := isLine.drop_hexAt j
  obtain ⟨more, isCell⟩ := drop_column (width_hexCells bytes)
    (by rw [List.length_map]; exact inside)
  rw [List.getElem_map, ← hexColumn] at isCell
  have before : (3 * j + if 8 ≤ j then 1 else 0) ≤ (hexColumn bytes).length := by
    rw [length_hexColumn]
    split_ifs <;> omega
  have twoDigits : ((upperHex bytes[j].toNat).leftpad 2 '0').length = 2 :=
    length_leftpad_upperHex (by decide) bytes[j].toNat_lt
  rw [readCell, isHex, List.rightpad, List.append_assoc, List.drop_append_of_le_length before,
    isCell, hexCell]
  simp only [List.append_assoc]
  rw [List.take_left' twoDigits, readHex_leftpad, readHex_upperHex, Option.map_some,
    UInt8.ofNat_toNat]

theorem IsLine.readCell_outside (isLine : IsLine bytes line text) (below : j < 16)
    (outside : bytes.length ≤ j) : readCell text j = none := by
  obtain ⟨rest, isHex⟩ := isLine.drop_hexAt j
  have past : (hexColumn bytes).length ≤ 3 * j + if 8 ≤ j then 1 else 0 := by
    rw [length_hexColumn]
    split_ifs <;> omega
  have inPadding : (3 * j + if 8 ≤ j then 1 else 0) + 2 ≤ 49 := by
    split_ifs <;> omega
  have padded : ((hexColumn bytes).rightpad 49 ' ').length = 49 := by
    rw [List.length_rightpad]
    omega
  generalize (3 * j + if 8 ≤ j then 1 else 0) = place at isHex past inPadding
  obtain ⟨blanks, isBlanks⟩ : ∃ blanks, 49 - place = blanks + 2 := ⟨47 - place, by omega⟩
  have isBlank : ((hexColumn bytes).rightpad 49 ' ').drop place =
      List.replicate (blanks + 2) ' ' := by
    rw [List.rightpad, List.drop_append, List.drop_eq_nil_of_le past, List.nil_append,
      List.drop_replicate, ← isBlanks]
    congr 1
    omega
  rw [readCell, isHex, List.drop_append_of_le_length (by omega), isBlank]
  rfl

theorem filterMap_range_getElem? {α : Type} (items : List α) (count : Nat) :
    (List.range count).filterMap (fun i => items[i]?) = items.take count := by
  induction count with
  | zero => rfl
  | succ count ih =>
      rw [List.range_succ, List.filterMap_append, ih, List.take_add_one]
      congr 1

/-- A row is read back. -/
theorem IsLine.decodeRow (isLine : IsLine bytes line text) : decodeRow text = bytes := by
  have cells : ∀ j ∈ List.range 16, readCell text j = bytes[j]? := by
    intro j inRange
    have below := List.mem_range.mp inRange
    by_cases inside : j < bytes.length
    · rw [isLine.readCell_inside inside, List.getElem?_eq_getElem inside]
    · have outside := Nat.not_lt.mp inside
      rw [isLine.readCell_outside below outside, List.getElem?_eq_none outside]
  rw [Hexdump.decodeRow, List.filterMap_congr cells, filterMap_range_getElem?,
    List.take_of_length_le isLine.short]

theorem IsLine.text_inside (isLine : IsLine bytes line text) (inside : j < bytes.length) :
    text[textAt j]? = some (shownChar bytes[j]) := by
  obtain ⟨more, isCell⟩ := drop_column (width_textCells bytes)
    (by rw [List.length_map]; exact inside)
  rw [List.getElem_map, ← textColumn, Nat.one_mul] at isCell
  have before : (j + if 8 ≤ j then 1 else 0) < (textColumn bytes).length := by
    rw [length_textColumn]
    split_ifs <;> omega
  have isShown : (textColumn bytes)[j + if 8 ≤ j then 1 else 0]? = some (shownChar bytes[j]) := by
    have head := congrArg List.head? isCell
    rwa [List.head?_drop] at head
  have hexLength := length_hexColumn bytes
  have short := isLine.short
  have gap : (if 8 ≤ bytes.length then 1 else 0) ≤ 1 := by split <;> decide
  have left : ((upperHex (0x10 * line).toNat).leftpad 8 '0' ++ ' ' ::
      (hexColumn bytes).rightpad 49 ' ' ++ [' ', '|']).length = 60 := by
    simp only [List.length_append, length_address, List.length_cons, List.length_nil,
      List.length_rightpad, hexLength]
    omega
  rw [isLine.text, rowLine, textAt, List.append_assoc _ _ ['|', '\n'],
    List.getElem?_append_right (by omega), left, Nat.add_sub_cancel_left, List.rightpad,
    List.append_assoc, List.getElem?_append_left before, isShown]

/-! ## The whole dump -/

theorem isLine_rowText (data : List UInt8) (row : Nat) :
    IsLine (rowBytes data row) (UInt32.ofNat row) (rowText data row) where
  short := by
    rw [rowBytes, List.length_take]
    omega
  text := rfl

/-- The rows are as many as the data needs and equally wide, each is a line of its own, they have
the right addresses, and both columns tell the data. -/
structure Decodes (data : List UInt8) (rows : List (List Char)) : Prop where
  count : rows.length = (data.length + 15) / 16
  width : ∀ row ∈ rows, row.length = 79
  newline : ∀ row ∈ rows, ∃ shown, row = shown ++ ['\n'] ∧ '\n' ∉ shown
  address : ∀ line row, rows[line]? = some row → readHex (row.take 8) = some (16 * line)
  bytes : rows.flatMap decodeRow = data
  text : ∀ line j ch, j < 16 → data[16 * line + j]? = some ch →
    ∃ row, rows[line]? = some row ∧ row[textAt j]? = some (shownChar ch)

theorem flatMap_rowBytes (data : List UInt8) (count : Nat) :
    (List.range count).flatMap (rowBytes data) = data.take (16 * count) := by
  induction count with
  | zero => rfl
  | succ count ih =>
      rw [List.range_succ, List.flatMap_append, ih, List.flatMap_singleton, rowBytes, Nat.mul_add,
        List.take_add]

theorem rows_flatMap_decodeRow (data : List UInt8) : (rows data).flatMap decodeRow = data := by
  have decoded : ∀ row ∈ List.range ((data.length + 15) / 16),
      decodeRow (rowText data row) = rowBytes data row :=
    fun row _ => (isLine_rowText data row).decodeRow
  rw [rows, List.flatMap_map, List.flatMap_congr decoded, flatMap_rowBytes]
  exact List.take_of_length_le (by omega)

theorem rows_decodes {data : List UInt8} (fits : data.length < 2 ^ 32) :
    Decodes data (rows data) := by
  constructor
  case count => rw [rows, List.length_map, List.length_range]
  case width =>
    intro row member
    obtain ⟨line, _, rfl⟩ := List.mem_map.mp member
    exact (isLine_rowText data line).length
  case newline =>
    intro row member
    obtain ⟨line, _, rfl⟩ := List.mem_map.mp member
    exact (isLine_rowText data line).newline
  case address =>
    intro line row isRow
    obtain ⟨line', isLine, rfl⟩ := by
      rw [rows, List.getElem?_map] at isRow
      exact Option.map_eq_some_iff.mp isRow
    obtain ⟨below, rfl⟩ := List.getElem?_eq_some_iff.mp isLine
    rw [List.length_range] at below
    rw [List.getElem_range, (isLine_rowText data line).address, UInt32.toNat_mul,
      UInt32.toNat_ofNat_of_lt' (show line < 2 ^ 32 by omega)]
    exact congrArg some (Nat.mod_eq_of_lt (by change 16 * line < 2 ^ 32; omega))
  case bytes => exact rows_flatMap_decodeRow data
  case text =>
    intro line j ch below isByte
    obtain ⟨inData, _⟩ := List.getElem?_eq_some_iff.mp isByte
    have isRowByte : (rowBytes data line)[j]? = some ch := by
      rw [rowBytes, List.getElem?_take_of_lt below, List.getElem?_drop, isByte]
    obtain ⟨inRow, rfl⟩ := List.getElem?_eq_some_iff.mp isRowByte
    refine ⟨rowText data line, ?_, (isLine_rowText data line).text_inside inRow⟩
    rw [rows, List.getElem?_map, List.getElem?_range (by omega)]
    rfl

/-- The dump of any data decodes back to it. -/
theorem hexdump_decodes {data : List UInt8} (fits : data.length < 2 ^ 32) :
    ∃ rows, Prints (hexdump data) (headerText data.length 0) rows.flatten ∧ Decodes data rows :=
  ⟨rows data, hexdumpF_prints data 0, rows_decodes fits⟩

/-- Two bytes. -/
theorem hexdump_decodes_two :
    ∃ rows, Prints (hexdump [0, 65]) (headerText 2 0) rows.flatten ∧ Decodes [0, 65] rows :=
  @hexdump_decodes [0, 65] (by decide)

/-! ## The limit -/

/-- The bytes that a limited dump should be about. -/
def cut (limit : UInt32) (data : List UInt8) : List UInt8 :=
  if limit = 0 then data else data.take limit.toNat

/-- `hexdump_limit` prints the rows that `hexdump` prints of the bytes up to the limit. -/
def DumpsPrefix (data : List UInt8) (limit : UInt32) : Prop :=
  ∃ body, Prints (hexdumpLimit data limit) (headerText data.length limit.toNat) body ∧
    Prints (hexdump (cut limit data)) (headerText (cut limit data).length 0) body

/-- The text below the header is determined. -/
theorem Prints.unique {result : Option Locals} {header left right : List Char}
    (isLeft : Prints result header left) (isRight : Prints result header right) : left = right := by
  obtain ⟨last, isLast, out⟩ := isLeft
  obtain ⟨last', isLast', out'⟩ := isRight
  obtain rfl : last = last' := Option.some.inj (isLast.symm.trans isLast')
  exact List.append_cancel_left (out.symm.trans out')

/-- The rows tell the data. -/
theorem data_eq_of_rows {data other : List UInt8}
    (same : (rows data).flatten = (rows other).flatten) : data = other := by
  have width : ∀ data, (rows data).map List.length =
      List.replicate ((data.length + 15) / 16) 79 := by
    intro data
    rw [List.eq_replicate_iff, List.length_map, rows, List.length_map, List.length_range]
    refine ⟨rfl, fun length member => ?_⟩
    obtain ⟨row, isRow, rfl⟩ := List.mem_map.mp member
    obtain ⟨line, _, rfl⟩ := List.mem_map.mp isRow
    exact (isLine_rowText data line).length
  have total := congrArg List.length same
  rw [List.length_flatten, List.length_flatten, width, width, List.sum_replicate_nat,
    List.sum_replicate_nat] at total
  have sameRows : rows data = rows other := by
    refine List.eq_iff_flatten_eq.mpr ⟨same, ?_⟩
    rw [width, width]
    congr 1
    exact Nat.eq_of_mul_eq_mul_right (by decide) total
  rw [← rows_flatMap_decodeRow data, sameRows, rows_flatMap_decodeRow]

theorem dumpsPrefix_iff_cut (data : List UInt8) (limit : UInt32) :
    DumpsPrefix data limit ↔ cut limit data = data := by
  have limited := hexdumpF_prints data limit
  have whole := hexdumpF_prints (cut limit data) 0
  constructor
  · rintro ⟨body, isLimited, isWhole⟩
    apply data_eq_of_rows
    exact (isWhole.unique whole).symm.trans (isLimited.unique limited)
  · intro same
    refine ⟨_, limited, ?_⟩
    rw [same] at whole ⊢
    exact whole

theorem cut_eq_self_iff (limit : UInt32) (data : List UInt8) :
    cut limit data = data ↔ limit = 0 ∨ data.length ≤ limit.toNat := by
  unfold cut
  split
  next unlimited => simp [unlimited]
  next limited => simp only [limited, false_or, List.take_eq_self_iff]

/-- A limited dump is the dump of the prefix exactly if there is nothing to cut. -/
theorem limited_dump_iff (data : List UInt8) (limit : UInt32) :
    DumpsPrefix data limit ↔ limit = 0 ∨ data.length ≤ limit.toNat := by
  rw [dumpsPrefix_iff_cut, cut_eq_self_iff]

/-- With limit 1 both of two bytes are dumped. -/
theorem limited_dump_whole : ¬ ∀ data limit, DumpsPrefix data limit := by
  intro all
  have same := (dumpsPrefix_iff_cut [1, 2] 1).mp (all [1, 2] 1)
  exact absurd same (by decide)

end LinuxCTemplate.Hexdump
