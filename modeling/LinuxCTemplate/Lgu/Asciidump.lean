import LinuxCTemplate.Foundation.Printf

/-!
# The ASCII dump

`asciidump_limit` prints a text byte as it is and any other byte as a coloured hexadecimal
code.  Neither the escape character that starts a colour nor the backslash counts as text,
so that a reader of the dump knows at every character what comes next.
-/

namespace LinuxCTemplate.Asciidump

open Foundation Printf

/-! ## The source -/

set_option linter.style.nameCheck false in
/-- `__is_text` -/
def __isText (ch : UInt8) : Bool := (32 ≤ ch ∧ ch ≤ 126) ∧ ch ≠ 92

/-- `\033[0;33m\`, in front of a code. -/
def codeStart : List Char := ['\x1b', '[', '0', ';', '3', '3', 'm', '\\']

/-- `\033[0m` -/
def codeEnd : List Char := ['\x1b', '[', '0', 'm']

/-- What the loop prints for a byte. -/
def printByte (ch : UInt8) : List Char :=
  if ¬ __isText ch then
    codeStart ++ (lowerHex ch.toNat).leftpad 2 '0' ++ codeEnd
  else
    [character ch]

/-- The loop at the byte with the index `i`. -/
def printLoop (limit : Int) (i : Nat) : List UInt8 → List Char
  | [] => []
  | ch :: rest =>
      if limit = 0 ∨ (i : Int) < limit then printByte ch ++ printLoop limit (i + 1) rest else []

/-- `\033[0;35m +%d>\033[0m ` -/
def dumpPrefix (nbytes : Nat) : List Char :=
  ['\x1b', '[', '0', ';', '3', '5', 'm', ' ', '+'] ++ Nat.toDigits 10 nbytes ++
    '>' :: codeEnd ++ [' ']

/-- What `asciidump_limit` prints.  The bytes are `none` for `NULL`, otherwise there are
`nbytes` of them. -/
def asciidumpLimit (data : Option (List UInt8)) (limit : Int) : List Char :=
  match data with
  | none => []
  | some data => dumpPrefix data.length ++ printLoop limit 0 data ++ ['\n']

/-! ## Reading a dump -/

/-- The bytes that a dump is about. -/
def shown (limit : Int) (data : List UInt8) : List UInt8 :=
  if limit = 0 then data else data.take limit.toNat

/-- Read what is between the prefix and the end of the line. -/
def decodeDump : List Char → Option (List UInt8)
  | [] => some []
  | '\x1b' :: '[' :: '0' :: ';' :: '3' :: '3' :: 'm' :: '\\' :: high :: low ::
      '\x1b' :: '[' :: '0' :: 'm' :: rest =>
      match readHex [high, low], decodeDump rest with
      | some byte, some bytes => some (UInt8.ofNat byte :: bytes)
      | _, _ => none
  | ch :: rest =>
      if ch = '\x1b' then none else (decodeDump rest).map fun bytes => UInt8.ofNat ch.toNat :: bytes

/-- Read a whole line: the number of bytes, and the bytes that are shown. -/
def decodeLine (line : List Char) : Option (Nat × List UInt8) :=
  let number := (line.drop 9).takeWhile (· ≠ '>')
  let dump := (((line.drop 9).dropWhile (· ≠ '>')).drop 6).dropLast
  (decodeDump dump).map fun bytes => (Nat.ofDigitChars 10 number 0, bytes)

theorem decodeDump_text {ch : UInt8} (isText : __isText ch = true) (rest : List Char) :
    decodeDump (character ch :: rest) = (decodeDump rest).map fun bytes => ch :: bytes := by
  have notEscape : character ch ≠ '\x1b' := by
    intro isEscape
    have value := congrArg Char.toNat isEscape
    rw [toNat_character] at value
    have bounds : (32 ≤ ch ∧ ch ≤ 126) ∧ ch ≠ 92 := of_decide_eq_true isText
    have low : 32 ≤ ch.toNat := UInt8.le_iff_toNat_le.mp bounds.1.1
    have escape : '\x1b'.toNat = 27 := rfl
    omega
  rw [decodeDump, if_neg notEscape, toNat_character, UInt8.ofNat_toNat]
  intro _ _ _ isEscape
  exact (notEscape isEscape).elim

theorem decodeDump_code (ch : UInt8) (rest : List Char) :
    decodeDump (codeStart ++ (lowerHex ch.toNat).leftpad 2 '0' ++ codeEnd ++ rest) =
      (decodeDump rest).map fun bytes => ch :: bytes := by
  have twoDigits : ((lowerHex ch.toNat).leftpad 2 '0').length = 2 :=
    length_leftpad_lowerHex (by decide) ch.toNat_lt
  have read := readHex_leftpad 2 (lowerHex ch.toNat)
  generalize (lowerHex ch.toNat).leftpad 2 '0' = digits at twoDigits read ⊢
  obtain ⟨high, low, rfl⟩ := List.length_eq_two.mp twoDigits
  rw [readHex_lowerHex] at read
  simp only [codeStart, codeEnd, List.cons_append, List.nil_append, decodeDump, read]
  cases decodeDump rest with
  | none => rfl
  | some bytes => simp

/-- Whatever follows, a byte is read back from what is printed for it. -/
theorem decodeDump_printByte (ch : UInt8) (rest : List Char) :
    decodeDump (printByte ch ++ rest) = (decodeDump rest).map fun bytes => ch :: bytes := by
  by_cases isText : __isText ch = true
  · rw [printByte, if_neg (not_not.mpr isText)]
    exact decodeDump_text isText rest
  · rw [printByte, if_pos isText]
    exact decodeDump_code ch rest

theorem decodeDump_flatMap (data : List UInt8) :
    decodeDump (data.flatMap printByte) = some data := by
  induction data with
  | nil => rfl
  | cons ch rest ih => rw [List.flatMap_cons, decodeDump_printByte, ih, Option.map_some]

/-- The loop prints the bytes up to the limit. -/
theorem printLoop_eq (limit : Int) (data : List UInt8) (i : Nat) :
    printLoop limit i data =
      (if limit = 0 then data else data.take (limit - i).toNat).flatMap printByte := by
  induction data generalizing i with
  | nil => simp [printLoop]
  | cons ch rest ih =>
      rw [printLoop, ih]
      by_cases unlimited : limit = 0
      · simp [unlimited]
      · by_cases below : (i : Int) < limit
        · have more : (limit - i).toNat = (limit - (i + 1 : Nat)).toNat + 1 := by omega
          simp [unlimited, below, more]
        · have noMore : (limit - i).toNat = 0 := by omega
          simp [unlimited, below, noMore]

theorem printLoop_shown (limit : Int) (data : List UInt8) :
    printLoop limit 0 data = (shown limit data).flatMap printByte := by
  rw [printLoop_eq, shown]
  simp

/-! ## The whole line -/

theorem takeWhile_append_gt {number : List Char} (noGt : '>' ∉ number) (rest : List Char) :
    (number ++ '>' :: rest).takeWhile (· ≠ '>') = number ∧
      (number ++ '>' :: rest).dropWhile (· ≠ '>') = '>' :: rest := by
  have all : ∀ ch ∈ number, decide (ch ≠ '>') = true := by
    intro ch member
    exact decide_eq_true fun isGt => noGt (isGt ▸ member)
  rw [List.takeWhile_append_of_pos all, List.dropWhile_append_of_pos all]
  simp

theorem decodeLine_asciidumpLimit (limit : Int) (data : List UInt8) :
    decodeLine (asciidumpLimit (some data) limit) = some (data.length, shown limit data) := by
  have noGt : '>' ∉ Nat.toDigits 10 data.length := by
    intro member
    exact absurd (Nat.isDigit_of_mem_toDigits (by decide) (by decide) member) (by decide)
  have afterColour : (asciidumpLimit (some data) limit).drop 9 =
      Nat.toDigits 10 data.length ++ '>' ::
        (codeEnd ++ ' ' :: ((shown limit data).flatMap printByte ++ ['\n'])) := by
    simp [asciidumpLimit, dumpPrefix, printLoop_shown]
  obtain ⟨number, dump⟩ := takeWhile_append_gt noGt
    (codeEnd ++ ' ' :: ((shown limit data).flatMap printByte ++ ['\n']))
  have body : (('>' :: (codeEnd ++ ' ' :: ((shown limit data).flatMap printByte ++ ['\n']))).drop
      6).dropLast = (shown limit data).flatMap printByte := by
    simp [codeEnd]
  simp only [decodeLine, afterColour, number, dump, body]
  rw [decodeDump_flatMap, Option.map_some, Nat.ofDigitChars_ten_toDigits]

/-- The dump tells the bytes that it shows. -/
structure Decodable (limit : Int) (data : List UInt8) : Prop where
  dump : ∃ dump, asciidumpLimit (some data) limit = dumpPrefix data.length ++ dump ++ ['\n'] ∧
    decodeDump dump = some (shown limit data)
  same : ∀ limit' other, asciidumpLimit (some other) limit' = asciidumpLimit (some data) limit →
    other.length = data.length ∧ shown limit' other = shown limit data
  unlimited : ∀ other, asciidumpLimit (some other) 0 = asciidumpLimit (some data) 0 → other = data

/-- One decoder reads back the bytes that are shown from every dump. -/
theorem dump_decodable (limit : Int) (data : List UInt8) : Decodable limit data := by
  have same : ∀ limit limit' other,
      asciidumpLimit (some other) limit' = asciidumpLimit (some data) limit →
      other.length = data.length ∧ shown limit' other = shown limit data := by
    intro limit limit' other equal
    have decoded := congrArg decodeLine equal
    rw [decodeLine_asciidumpLimit, decodeLine_asciidumpLimit] at decoded
    exact Prod.mk.inj (Option.some.inj decoded)
  constructor
  case dump =>
    refine ⟨(shown limit data).flatMap printByte, ?_, decodeDump_flatMap _⟩
    rw [asciidumpLimit, printLoop_shown]
  case same => exact same limit
  case unlimited => exact fun other equal => (same 0 0 other equal).2

/-- Bytes after the limit are not shown. -/
theorem limited_dumps_coincide :
    ¬ ∀ (limit : Int) (data other : List UInt8), 0 ≤ limit → data ≠ other →
      asciidumpLimit (some data) limit ≠ asciidumpLimit (some other) limit := by
  intro differ
  exact differ 1 [1, 2] [1, 3] (by decide) (by decide) (by decide)

end LinuxCTemplate.Asciidump
