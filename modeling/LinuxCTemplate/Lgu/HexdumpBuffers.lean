import Mathlib.Data.List.Induction
import LinuxCTemplate.Lgu.Hexdump

/-!
# The strings of a hex dump

Before every byte the two strings hold the columns of the bytes of the row so far, the one
with three characters for a byte and the other with one, and both with a blank after the
eighth.  A full row fills `hd` to its last character.
-/

namespace LinuxCTemplate.Hexdump

open Foundation Printf

/-! ## Columns -/

/-- Cells one after the other, the first of which is the `i`-th of its row, with a blank after
the eighth of the row. -/
def columnFrom : Nat → List (List Char) → List Char
  | _, [] => []
  | i, cell :: cells => cell ++ (if i = 7 then [' '] else []) ++ columnFrom (i + 1) cells

/-- The cells of a row from its beginning. -/
def column (cells : List (List Char)) : List Char := columnFrom 0 cells

theorem columnFrom_append (i : Nat) (left right : List (List Char)) :
    columnFrom i (left ++ right) = columnFrom i left ++ columnFrom (i + left.length) right := by
  induction left generalizing i with
  | nil => rfl
  | cons cell left ih =>
      have next : i + 1 + left.length = i + (cell :: left).length := by
        rw [List.length_cons]
        omega
      rw [List.cons_append, columnFrom, columnFrom, ih, next]
      simp only [List.append_assoc]

theorem column_append_singleton (cells : List (List Char)) (cell : List Char) :
    column (cells ++ [cell]) =
      column cells ++ cell ++ (if cells.length = 7 then [' '] else []) := by
  rw [column, columnFrom_append, Nat.zero_add]
  simp [column, columnFrom]

/-- The length of a column of cells of one width. -/
theorem length_column {width : Nat} {cells : List (List Char)}
    (same : ∀ cell ∈ cells, cell.length = width) :
    (column cells).length = width * cells.length + (if 8 ≤ cells.length then 1 else 0) := by
  induction cells using List.reverseRecOn with
  | nil => rfl
  | append_singleton cells cell ih =>
      have before := ih fun other member => same other (List.mem_append_left _ member)
      have last := same cell (by simp)
      rw [column_append_singleton, List.length_append, List.length_append, before, last,
        List.length_append, List.length_singleton, Nat.mul_add, Nat.mul_one]
      split_ifs <;> simp <;> omega

theorem not_mem_column {cells : List (List Char)} {other : Char} (notBlank : other ≠ ' ')
    (inNone : ∀ cell ∈ cells, other ∉ cell) : other ∉ column cells := by
  induction cells using List.reverseRecOn with
  | nil => exact List.not_mem_nil
  | append_singleton cells cell ih =>
      have before := ih fun earlier member => inNone earlier (List.mem_append_left _ member)
      have last := inNone cell (by simp)
      rw [column_append_singleton, List.mem_append, List.mem_append]
      refine not_or.mpr ⟨not_or.mpr ⟨before, last⟩, ?_⟩
      split
      · rwa [List.mem_singleton]
      · exact List.not_mem_nil

/-! ## Cells -/

theorem length_hexCell {number : Nat} (small : number < 256) : (hexCell number).length = 3 := by
  rw [hexCell, List.length_append, length_leftpad_upperHex (by decide) small]
  rfl

/-- A number is read from digits only. -/
theorem not_mem_of_readHex {digits : List Char} {value : Nat} (read : readHex digits = some value)
    {other : Char} (noDigit : hexValue other = none) : other ∉ digits :=
  fun member => hexValue_of_readHexFrom read member noDigit

theorem not_mem_hexCell (number : Nat) {other : Char} (noDigit : hexValue other = none)
    (notBlank : other ≠ ' ') : other ∉ hexCell number := by
  have read : readHex ((upperHex number).leftpad 2 '0') = some number := by
    rw [readHex_leftpad, readHex_upperHex]
  rw [hexCell, List.mem_append, List.mem_singleton]
  exact not_or.mpr ⟨not_mem_of_readHex read noDigit, notBlank⟩

theorem noNul_hexCell (number : Nat) : '\x00' ∉ hexCell number :=
  not_mem_hexCell number (by decide) (by decide)

theorem length_upperHex {number : Nat} (small : number < 16) : (upperHex number).length = 1 := by
  rw [upperHex, List.length_map, Nat.toDigits_of_lt_base small]
  rfl

/-- What the text column shows of a byte. -/
def shownChar (ch : UInt8) : Char := if ch < 0x21 ∨ 0x7e < ch then '.' else character ch

theorem width_hexCells (bytes : List UInt8) :
    ∀ cell ∈ bytes.map fun ch => hexCell ch.toNat, cell.length = 3 := by
  intro cell member
  obtain ⟨ch, _, rfl⟩ := List.mem_map.mp member
  exact length_hexCell ch.toNat_lt

theorem width_textCells (bytes : List UInt8) :
    ∀ cell ∈ bytes.map fun ch => [shownChar ch], cell.length = 1 := by
  intro cell member
  obtain ⟨ch, _, rfl⟩ := List.mem_map.mp member
  rfl

theorem noNul_space : '\x00' ∉ [' '] := by decide

/-! ## String functions -/

/-- The result fits: `hdtmp` and `hrtmp` have 8 characters, `hd` 50 and `hr` 20, but `hr` needs
no more than 18. -/
def StringCall.Fits : StringCall → Prop
  | .snprintf length => length < 8
  | .strcatHd length => length ≤ 49
  | .strcatHr length => length ≤ 17

/-- All calls so far have fitted. -/
def Locals.CallsFit (locals : Locals) : Prop := ∀ call ∈ locals.calls, call.Fits

/-- The strings have been changed, and nothing else that lasts. -/
structure Filled (start : Locals) (hd hr : List Char) (last : Locals) : Prop where
  hd : last.hd.text = hd
  hr : last.hr.text = hr
  line : last.line = start.line
  out : last.out = start.out
  fit : start.CallsFit → last.CallsFit

variable {start last : Locals} {hd hr source : List Char}

theorem Filled.refl (start : Locals) : Filled start start.hd.text start.hr.text start :=
  ⟨rfl, rfl, rfl, rfl, id⟩

theorem Locals.CallsFit.step {locals next : Locals} (fit : locals.CallsFit) {call : StringCall}
    (fits : call.Fits) (isNext : next.calls = locals.calls ++ [call]) : next.CallsFit := by
  intro other member
  rw [isNext] at member
  rcases List.mem_append.mp member with before | isLast
  · exact fit other before
  · rw [List.mem_singleton.mp isLast]
    exact fits

theorem Filled.snprintfHdtmp (filled : Filled start hd hr last) (short : source.length < 8) :
    Filled start hd hr (last.snprintfHdtmp source) :=
  { filled with
    fit := fun fit => (filled.fit fit).step (show (StringCall.snprintf _).Fits from short) rfl }

theorem Filled.snprintfHrtmp (filled : Filled start hd hr last) (short : source.length < 8) :
    Filled start hd hr (last.snprintfHrtmp source) :=
  { filled with
    fit := fun fit => (filled.fit fit).step (show (StringCall.snprintf _).Fits from short) rfl }

theorem Filled.strcatHd (filled : Filled start hd hr last) (noNul : '\x00' ∉ source)
    (fits : hd.length + source.length ≤ 49) :
    ∃ next, last.strcatHd source = some next ∧ Filled start (hd ++ source) hr next ∧
      next.hrtmp = last.hrtmp := by
  have room : last.hd.text.length + source.length < 50 := by
    rw [filled.hd]
    omega
  obtain ⟨appended, isAppended, text⟩ := Buffer.exists_strcat noNul room
  rw [filled.hd] at text
  refine ⟨_, congrArg (Option.map _) isAppended, ?_, rfl⟩
  refine ⟨text, filled.hr, filled.line, filled.out, fun fit => ?_⟩
  have isShort : appended.strlen ≤ 49 := by
    rw [Buffer.strlen, text, List.length_append]
    exact fits
  exact (filled.fit fit).step (show (StringCall.strcatHd _).Fits from isShort) rfl

theorem Filled.strcatHr (filled : Filled start hd hr last) (noNul : '\x00' ∉ source)
    (fits : hr.length + source.length ≤ 17) :
    ∃ next, last.strcatHr source = some next ∧ Filled start hd (hr ++ source) next := by
  have room : last.hr.text.length + source.length < 20 := by
    rw [filled.hr]
    omega
  obtain ⟨appended, isAppended, text⟩ := Buffer.exists_strcat noNul room
  rw [filled.hr] at text
  refine ⟨_, congrArg (Option.map _) isAppended, ?_⟩
  refine ⟨filled.hd, text, filled.line, filled.out, fun fit => ?_⟩
  have isShort : appended.strlen ≤ 17 := by
    rw [Buffer.strlen, text, List.length_append]
    exact fits
  exact (filled.fit fit).step (show (StringCall.strcatHr _).Fits from isShort) rfl

/-! ## One round of a loop -/

/-- Cells of the two columns of a row that is not full. -/
structure Cells (count : Nat) (hexes texts : List (List Char)) : Prop where
  below : count < 16
  hexCount : hexes.length = count
  textCount : texts.length = count
  hexWidth : ∀ cell ∈ hexes, cell.length = 3
  textWidth : ∀ cell ∈ texts, cell.length = 1

theorem Cells.length {count : Nat} {hexes texts : List (List Char)}
    (cells : Cells count hexes texts) :
    (column hexes).length = 3 * count + (if 8 ≤ count then 1 else 0) ∧
      (column texts).length = count + (if 8 ≤ count then 1 else 0) := by
  have hexLength := length_column cells.hexWidth
  have textLength := length_column cells.textWidth
  rw [cells.hexCount] at hexLength
  rw [cells.textCount, Nat.one_mul] at textLength
  exact ⟨hexLength, textLength⟩

variable {count : Nat} {hexes texts : List (List Char)} {hex text : List Char}

/-- A cell fits into each column. -/
theorem Cells.room (cells : Cells count hexes texts) :
    (column hexes).length + 3 ≤ 49 ∧ (column texts).length + 1 ≤ 17 := by
  have below := cells.below
  rw [cells.length.1, cells.length.2]
  constructor <;> split_ifs <;> omega

/-- The blanks after the eighth cells. -/
theorem Filled.gap (cells : Cells count hexes texts) (hexWidth : hex.length = 3)
    (textWidth : text.length = 1)
    (filled : Filled start (column hexes ++ hex) (column texts ++ text) last) :
    count = 7 → ∃ next,
      ((last.strcatHr [' ']).bind fun locals => locals.strcatHd [' ']) = some next ∧
        Filled start (column (hexes ++ [hex])) (column (texts ++ [text])) next := by
  rintro rfl
  obtain ⟨hexLength, textLength⟩ := cells.length
  obtain ⟨next, isNext, filled'⟩ := filled.strcatHr noNul_space (by
    rw [List.length_append, textLength, textWidth]
    decide)
  obtain ⟨next', isNext', filled'', _⟩ := filled'.strcatHd noNul_space (by
    rw [List.length_append, hexLength, hexWidth]
    decide)
  refine ⟨next', by rw [isNext, Option.bind_some, isNext'], ?_⟩
  rw [column_append_singleton, column_append_singleton, if_pos cells.hexCount,
    if_pos cells.textCount]
  exact filled''

/-- No blank is due. -/
theorem Filled.noGap (cells : Cells count hexes texts) (notEighth : count ≠ 7)
    (filled : Filled start (column hexes ++ hex) (column texts ++ text) last) :
    Filled start (column (hexes ++ [hex])) (column (texts ++ [text])) last := by
  rw [column_append_singleton, column_append_singleton, if_neg (cells.hexCount ▸ notEighth),
    if_neg (cells.textCount ▸ notEighth), List.append_nil, List.append_nil]
  exact filled

/-- A round of the header loop. -/
theorem headerStep_filled {i : Nat} (cells : Cells i hexes texts)
    (filled : Filled start (column hexes) (column texts) last) :
    ∃ next, headerStep i last = some next ∧
      Filled start (column (hexes ++ [hexCell i])) (column (texts ++ [upperHex i])) next := by
  have below := cells.below
  obtain ⟨hexRoom, textRoom⟩ := cells.room
  have hexWidth : (hexCell i).length = 3 := length_hexCell (by omega)
  have textWidth := length_upperHex below
  have hdtmp : (Buffer.snprintf (hexCell i) : Buffer 8).text = hexCell i :=
    Buffer.snprintf_text (noNul_hexCell i) (by omega)
  have textNoNul : '\x00' ∉ upperHex i :=
    not_mem_of_readHex (readHex_upperHex i) (by decide)
  have hrtmp : (Buffer.snprintf (upperHex i) : Buffer 8).text = upperHex i :=
    Buffer.snprintf_text textNoNul (by omega)
  have hexShort : (hexCell i).length < 8 := by omega
  have textShort : (upperHex i).length < 8 := by omega
  have printed := (filled.snprintfHdtmp hexShort).snprintfHrtmp textShort
  obtain ⟨withHex, isWithHex, filled', sameTmp⟩ := printed.strcatHd (noNul_hexCell i)
    (by rw [hexWidth]; exact hexRoom)
  obtain ⟨withText, isWithText, filled''⟩ := filled'.strcatHr textNoNul
    (by rw [textWidth]; exact textRoom)
  have isHdtmp : ((last.snprintfHdtmp (hexCell i)).snprintfHrtmp (upperHex i)).hdtmp.text =
      hexCell i := hdtmp
  have isHrtmp : withHex.hrtmp.text = upperHex i := by
    rw [sameTmp]
    exact hrtmp
  simp only [headerStep, Option.bind_eq_bind, isHdtmp, isWithHex, Option.bind_some, isHrtmp,
    isWithText, Nat.mod_eq_of_lt below]
  by_cases eighth : i = 7
  · rw [if_pos eighth]
    exact filled''.gap cells hexWidth textWidth eighth
  · rw [if_neg eighth]
    exact ⟨withText, rfl, filled''.noGap cells eighth⟩

/-- Control characters and the blank are not shown. -/
theorem not_mem_shownChar (ch : UInt8) {other : Char} (low : other.toNat < 33) :
    other ∉ [shownChar ch] := by
  rw [List.mem_singleton, shownChar]
  split
  next =>
    rintro rfl
    exact absurd low (by decide)
  next isText =>
    have shown : 33 ≤ ch.toNat := UInt8.le_iff_toNat_le.mp (UInt8.not_lt.mp (not_or.mp isText).1)
    rintro rfl
    rw [toNat_character] at low
    omega

theorem Filled.textStep (filled : Filled start hd hr last) (ch : UInt8)
    (fits : hr.length + 1 ≤ 17) :
    ∃ next, textStep ch last = some next ∧ Filled start hd (hr ++ [shownChar ch]) next := by
  have noNul := not_mem_shownChar ch (show '\x00'.toNat < 33 by decide)
  unfold Hexdump.textStep
  by_cases isDot : ch < 0x21 ∨ 0x7e < ch
  · have shows : shownChar ch = '.' := if_pos isDot
    rw [if_pos isDot, shows]
    exact filled.strcatHr (by decide) fits
  · have shows : shownChar ch = character ch := if_neg isDot
    rw [shows] at noNul
    have hrtmp : (last.snprintfHrtmp [character ch]).hrtmp.text = [character ch] :=
      Buffer.snprintf_text noNul (by decide : 1 < 8)
    simp only [if_neg isDot, shows, hrtmp]
    have short : [character ch].length < 8 := (by decide : 1 < 8)
    exact (filled.snprintfHrtmp short).strcatHr noNul fits

/-- A full row is printed, and the strings are emptied. -/
def Locals.flush (locals : Locals) : Locals :=
  { locals.printRow.reset with line := locals.line + 1 }

/-- A round of the data loop. -/
theorem dataStep_filled {i : Nat} (cells : Cells (i % 16) hexes texts)
    (filled : Filled start (column hexes) (column texts) last) (ch : UInt8) :
    ∃ full, dataStep i ch last = some (if i % 16 = 15 then full.flush else full) ∧
      Filled start (column (hexes ++ [hexCell ch.toNat])) (column (texts ++ [[shownChar ch]]))
        full := by
  obtain ⟨hexRoom, textRoom⟩ := cells.room
  have hexWidth := length_hexCell ch.toNat_lt
  have hdtmp : (last.snprintfHdtmp (hexCell ch.toNat)).hdtmp.text = hexCell ch.toNat :=
    Buffer.snprintf_text (noNul_hexCell _) (by omega)
  have hexShort : (hexCell ch.toNat).length < 8 := by omega
  have printed := filled.snprintfHdtmp hexShort
  obtain ⟨withHex, isWithHex, filled', _⟩ := printed.strcatHd (noNul_hexCell _)
    (by rw [hexWidth]; exact hexRoom)
  obtain ⟨withText, isWithText, filled''⟩ := filled'.textStep ch textRoom
  simp only [dataStep, Option.bind_eq_bind, hdtmp, isWithHex, Option.bind_some, isWithText]
  by_cases eighth : i % 16 = 7
  · obtain ⟨full, isFull, filled⟩ := filled''.gap cells hexWidth rfl eighth
    refine ⟨full, ?_, filled⟩
    rw [if_pos eighth, isFull, if_neg (by omega)]
  · refine ⟨withText, ?_, filled''.noGap cells eighth⟩
    rw [if_neg eighth]
    split <;> rfl

/-! ## The header loop -/

/-- What the header loop has put into the strings before the index `i`. -/
def headerHexes (i : Nat) : List (List Char) := (List.range i).map hexCell

def headerTexts (i : Nat) : List (List Char) := (List.range i).map upperHex

theorem cells_header {i : Nat} (below : i < 16) : Cells i (headerHexes i) (headerTexts i) where
  below := below
  hexCount := by rw [headerHexes, List.length_map, List.length_range]
  textCount := by rw [headerTexts, List.length_map, List.length_range]
  hexWidth cell member := by
    obtain ⟨number, inRange, rfl⟩ := List.mem_map.mp member
    have small := List.mem_range.mp inRange
    exact length_hexCell (by omega)
  textWidth cell member := by
    obtain ⟨number, inRange, rfl⟩ := List.mem_map.mp member
    have small := List.mem_range.mp inRange
    exact length_upperHex (by omega)

/-- The header loop, up to its end. -/
theorem headerLoop_filled (hdEmpty : start.hd.text = []) (hrEmpty : start.hr.text = []) {i : Nat}
    (upTo : i ≤ 16) :
    ∃ last, headerLoop i start = some last ∧
      Filled start (column (headerHexes i)) (column (headerTexts i)) last := by
  induction i with
  | zero => exact ⟨start, rfl, hdEmpty, hrEmpty, rfl, rfl, id⟩
  | succ i ih =>
      obtain ⟨last, isLast, filled⟩ := ih (by omega)
      obtain ⟨next, isNext, filled'⟩ := headerStep_filled (cells_header upTo) filled
      refine ⟨next, by rw [headerLoop, isLast, Option.bind_some, isNext], ?_⟩
      rw [headerHexes, headerTexts, List.range_succ, List.map_append, List.map_append]
      exact filled'

/-- The text above the rows. -/
def headerText (nbytes limit : Nat) : List Char :=
  titleLine nbytes limit ++ columnLines (column (headerHexes 16)) (column (headerTexts 16))

/-- The header is printed, and the strings are empty again. -/
theorem header_printed (nbytes limit : Nat) :
    ∃ locals, header nbytes limit = some locals ∧ locals.hd.text = [] ∧ locals.hr.text = [] ∧
      locals.line = 0 ∧ locals.out = headerText nbytes limit ∧ locals.CallsFit := by
  obtain ⟨last, isLast, filled⟩ :=
    @headerLoop_filled (Locals.init.fprintf (titleLine nbytes limit)) rfl rfl 16 (le_refl 16)
  refine ⟨(last.fprintf (columnLines last.hd.text last.hr.text)).reset, ?_, rfl, rfl, ?_, ?_, ?_⟩
  · simp only [header, Option.bind_eq_bind, isLast, Option.bind_some]
  · exact filled.line
  · change last.out ++ columnLines last.hd.text last.hr.text = _
    rw [filled.out, filled.hd, filled.hr]
    rfl
  · exact filled.fit fun call member => nomatch member

/-! ## The data loop -/

/-- The bytes of a row. -/
def rowBytes (data : List UInt8) (row : Nat) : List UInt8 := (data.drop (16 * row)).take 16

/-- The bytes of the row so far, before the index `i`. -/
def currentRow (data : List UInt8) (i : Nat) : List UInt8 :=
  (data.drop (16 * (i / 16))).take (i % 16)

def hexColumn (bytes : List UInt8) : List Char := column (bytes.map fun ch => hexCell ch.toNat)

def textColumn (bytes : List UInt8) : List Char := column (bytes.map fun ch => [shownChar ch])

/-- What is printed for a row. -/
def rowText (data : List UInt8) (row : Nat) : List Char :=
  rowLine (UInt32.ofNat row) (hexColumn (rowBytes data row)) (textColumn (rowBytes data row))

/-- The data loop before the index `i`. -/
structure Dumping (start : Locals) (data : List UInt8) (i : Nat) (locals : Locals) : Prop where
  hd : locals.hd.text = hexColumn (currentRow data i)
  hr : locals.hr.text = textColumn (currentRow data i)
  line : locals.line = UInt32.ofNat (i / 16)
  out : locals.out = start.out ++ ((List.range (i / 16)).map (rowText data)).flatten
  fit : start.CallsFit → locals.CallsFit

theorem length_currentRow {data : List UInt8} {i : Nat} (upTo : i ≤ data.length) :
    (currentRow data i).length = i % 16 := by
  rw [currentRow, List.length_take, List.length_drop]
  omega

theorem cells_currentRow {data : List UInt8} {i : Nat} (upTo : i ≤ data.length) :
    Cells (i % 16) ((currentRow data i).map fun ch => hexCell ch.toNat)
      ((currentRow data i).map fun ch => [shownChar ch]) where
  below := Nat.mod_lt _ (by decide)
  hexCount := by rw [List.length_map, length_currentRow upTo]
  textCount := by rw [List.length_map, length_currentRow upTo]
  hexWidth := width_hexCells _
  textWidth := width_textCells _

/-- The row with the next byte. -/
theorem currentRow_append {data : List UInt8} {i : Nat} {ch : UInt8} (isByte : data[i]? = some ch) :
    currentRow data i ++ [ch] = (data.drop (16 * (i / 16))).take (i % 16 + 1) := by
  have next : (data.drop (16 * (i / 16)))[i % 16]? = some ch := by
    rw [List.getElem?_drop, Nat.div_add_mod, isByte]
  rw [currentRow, List.take_add_one, next]
  rfl

/-- A round of the data loop that does not end a row. -/
theorem Dumping.next {data : List UInt8} {i : Nat} {locals full : Locals} {ch : UInt8}
    (dumping : Dumping start data i locals) (isByte : data[i]? = some ch) (notLast : i % 16 ≠ 15)
    (filled : Filled locals (hexColumn (currentRow data i ++ [ch]))
      (textColumn (currentRow data i ++ [ch])) full) : Dumping start data (i + 1) full := by
  have sameRow : (i + 1) / 16 = i / 16 := by omega
  have nextPlace : (i + 1) % 16 = i % 16 + 1 := by omega
  rw [currentRow_append isByte] at filled
  have isRow : currentRow data (i + 1) = (data.drop (16 * (i / 16))).take (i % 16 + 1) := by
    rw [currentRow, sameRow, nextPlace]
  constructor
  case hd => rw [filled.hd, isRow]
  case hr => rw [filled.hr, isRow]
  case line => rw [filled.line, dumping.line, sameRow]
  case out => rw [filled.out, dumping.out, sameRow]
  case fit => exact fun fit => filled.fit (dumping.fit fit)

/-- A round of the data loop that prints a row. -/
theorem Dumping.flush {data : List UInt8} {i : Nat} {locals full : Locals} {ch : UInt8}
    (dumping : Dumping start data i locals) (isByte : data[i]? = some ch) (isLast : i % 16 = 15)
    (filled : Filled locals (hexColumn (currentRow data i ++ [ch]))
      (textColumn (currentRow data i ++ [ch])) full) : Dumping start data (i + 1) full.flush := by
  have nextRow : (i + 1) / 16 = i / 16 + 1 := by omega
  have noPlace : (i + 1) % 16 = 0 := by omega
  have isRow : currentRow data i ++ [ch] = rowBytes data (i / 16) := by
    rw [currentRow_append isByte, isLast, rowBytes]
  rw [isRow] at filled
  have isEmpty : currentRow data (i + 1) = [] := by
    rw [currentRow, noPlace, List.take_zero]
  constructor
  case hd =>
    rw [isEmpty]
    rfl
  case hr =>
    rw [isEmpty]
    rfl
  case line =>
    rw [nextRow, UInt32.ofNat_add, ← dumping.line, ← filled.line]
    rfl
  case out =>
    rw [nextRow, List.range_succ, List.map_append, List.flatten_append, ← List.append_assoc,
      ← dumping.out, ← filled.out]
    change full.out ++ rowLine full.line full.hd.text full.hr.text = _
    rw [filled.line, dumping.line, filled.hd, filled.hr]
    simp [rowText]
  case fit => exact fun fit => filled.fit (dumping.fit fit)

/-- The data loop, up to its end. -/
theorem dataLoop_dumping (hdEmpty : start.hd.text = []) (hrEmpty : start.hr.text = [])
    (atFirst : start.line = 0) {data : List UInt8} {i : Nat} (upTo : i ≤ data.length) :
    ∃ locals, dataLoop data i start = some locals ∧ Dumping start data i locals := by
  induction i with
  | zero => exact ⟨start, rfl, hdEmpty, hrEmpty, atFirst, (List.append_nil _).symm, id⟩
  | succ i ih =>
      obtain ⟨locals, isLocals, dumping⟩ := ih (by omega)
      have isByte : data[i]? = some data[i] := List.getElem?_eq_getElem upTo
      have filled := Filled.refl locals
      rw [dumping.hd, dumping.hr] at filled
      obtain ⟨full, isFull, filled'⟩ :=
        dataStep_filled (cells_currentRow (by omega : i ≤ data.length)) filled data[i]
      have isNext : dataLoop data (i + 1) start =
          some (if i % 16 = 15 then full.flush else full) := by
        simp only [dataLoop, isByte, isLocals, Option.bind_some, isFull]
      have added : Filled locals (hexColumn (currentRow data i ++ [data[i]]))
          (textColumn (currentRow data i ++ [data[i]])) full := by
        rw [hexColumn, textColumn, List.map_append, List.map_append]
        exact filled'
      refine ⟨_, isNext, ?_⟩
      by_cases isLast : i % 16 = 15
      · rw [if_pos isLast]
        exact dumping.flush isByte isLast added
      · rw [if_neg isLast]
        exact dumping.next isByte isLast added

/-- The strings of a dump fit into their arrays at every call, and hold the row so far before
every index of both loops. -/
structure BuffersFit (data : List UInt8) (limit : UInt32) : Prop where
  calls : ∃ last, hexdumpF data limit = some last ∧ last.CallsFit
  /-- The loops are the ones of `hexdump_f`, which prints what they leave in the strings. -/
  whole : ∃ titled start full,
    headerLoop 16 (Locals.init.fprintf (titleLine data.length limit.toNat)) = some titled ∧
      Hexdump.header data.length limit.toNat = some start ∧
      start = (titled.fprintf (columnLines titled.hd.text titled.hr.text)).reset ∧
      dataLoop data data.length start = some full ∧
      hexdumpF data limit = some (if 0 < full.hr.strlen then full.printRow else full)
  header : ∀ i ≤ 16, ∃ locals,
    headerLoop i (Locals.init.fprintf (titleLine data.length limit.toNat)) = some locals ∧
      locals.hd.text = column (headerHexes i) ∧ locals.hr.text = column (headerTexts i)
  data : ∃ start, Hexdump.header data.length limit.toNat = some start ∧
    ∀ i ≤ data.length, ∃ locals, dataLoop data i start = some locals ∧
      locals.hd.text = hexColumn (currentRow data i) ∧
      locals.hr.text = textColumn (currentRow data i)

/-- What `hexdump_f` does. -/
theorem hexdumpF_eq (data : List UInt8) (limit : UInt32) :
    ∃ start locals, header data.length limit.toNat = some start ∧
      dataLoop data data.length start = some locals ∧
      start.out = headerText data.length limit.toNat ∧ start.CallsFit ∧
      Dumping start data data.length locals ∧
      hexdumpF data limit = some (if 0 < locals.hr.strlen then locals.printRow else locals) := by
  obtain ⟨start, isStart, hdEmpty, hrEmpty, atFirst, out, fit⟩ :=
    header_printed data.length limit.toNat
  obtain ⟨locals, isLocals, dumping⟩ :=
    dataLoop_dumping hdEmpty hrEmpty atFirst (le_refl data.length)
  refine ⟨start, locals, isStart, isLocals, out, fit, dumping, ?_⟩
  simp only [hexdumpF, Option.bind_eq_bind, isStart, Option.bind_some, isLocals]

theorem buffers_fit (data : List UInt8) (limit : UInt32) : BuffersFit data limit := by
  constructor
  case calls =>
    obtain ⟨start, locals, _, _, _, fit, dumping, isLast⟩ := hexdumpF_eq data limit
    refine ⟨_, isLast, ?_⟩
    split
    · exact dumping.fit fit
    · exact dumping.fit fit
  case whole =>
    obtain ⟨titled, isTitled, _⟩ :=
      @headerLoop_filled (Locals.init.fprintf (titleLine data.length limit.toNat)) rfl rfl 16
        (le_refl 16)
    obtain ⟨start, locals, isStart, isLocals, _, _, _, isLast⟩ := hexdumpF_eq data limit
    refine ⟨titled, start, locals, isTitled, isStart, ?_, isLocals, isLast⟩
    simp only [Hexdump.header, Option.bind_eq_bind, isTitled, Option.bind_some,
      Option.some.injEq] at isStart
    exact isStart.symm
  case header =>
    intro i upTo
    obtain ⟨locals, isLocals, filled⟩ :=
      @headerLoop_filled (Locals.init.fprintf (titleLine data.length limit.toNat)) rfl rfl i upTo
    exact ⟨locals, isLocals, filled.hd, filled.hr⟩
  case data =>
    obtain ⟨start, isStart, hdEmpty, hrEmpty, atFirst, _⟩ :=
      header_printed data.length limit.toNat
    refine ⟨start, isStart, fun i upTo => ?_⟩
    obtain ⟨locals, isLocals, dumping⟩ := dataLoop_dumping hdEmpty hrEmpty atFirst upTo
    exact ⟨locals, isLocals, dumping.hd, dumping.hr⟩

end LinuxCTemplate.Hexdump
