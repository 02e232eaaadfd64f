import LinuxCTemplate.Foundation.CString
import LinuxCTemplate.Foundation.Printf

/-!
# The hex dump

`hexdump_f` builds the two columns of a row in the strings `hd` and `hr`, prints and empties
them after 16 bytes, and prints what is left of the last row.  A header is built in the
same strings before.  The locals keep a trace of the string functions, with the lengths of
their results.
-/

namespace LinuxCTemplate.Hexdump

open Foundation Printf

/-- A call of a string function, with the length of the whole result: `snprintf` into `hdtmp`
or `hrtmp`, which have the same size, and `strcat` into `hd` or `hr`. -/
inductive StringCall where
  | snprintf (length : Nat)
  | strcatHd (length : Nat)
  | strcatHr (length : Nat)
  deriving DecidableEq, Repr

/-- The locals of `hexdump_f` besides the index, and what it has printed to `fp`. -/
structure Locals where
  line : UInt32
  hd : Buffer 50
  hr : Buffer 20
  hdtmp : Buffer 8
  hrtmp : Buffer 8
  out : List Char
  calls : List StringCall

namespace Locals

def init : Locals where
  line := 0
  hd := .empty
  hr := .empty
  hdtmp := .empty
  hrtmp := .empty
  out := []
  calls := []

def fprintf (locals : Locals) (text : List Char) : Locals :=
  { locals with out := locals.out ++ text }

def snprintfHdtmp (locals : Locals) (text : List Char) : Locals :=
  { locals with hdtmp := .snprintf text, calls := locals.calls ++ [.snprintf text.length] }

def snprintfHrtmp (locals : Locals) (text : List Char) : Locals :=
  { locals with hrtmp := .snprintf text, calls := locals.calls ++ [.snprintf text.length] }

def strcatHd (locals : Locals) (source : List Char) : Option Locals :=
  (locals.hd.strcat source).map fun hd =>
    { locals with hd, calls := locals.calls ++ [.strcatHd hd.strlen] }

def strcatHr (locals : Locals) (source : List Char) : Option Locals :=
  (locals.hr.strcat source).map fun hr =>
    { locals with hr, calls := locals.calls ++ [.strcatHr hr.strlen] }

/-- `hd[0] = '\0'; hr[0] = '\0';` -/
def reset (locals : Locals) : Locals := { locals with hd := .empty, hr := .empty }

end Locals

/-! ## The header -/

/-- `"%s, len=%u, limit=%u:\n"` -/
def titleLine (nbytes limit : Nat) : List Char :=
  "hexdump_f, len=".toList ++ Nat.toDigits 10 nbytes ++ ", limit=".toList ++
    Nat.toDigits 10 limit ++ ":\n".toList

/-- `"         %-49s |%s|\n"` and the line below it. -/
def columnLines (hd hr : List Char) : List Char :=
  "         ".toList ++ hd.rightpad 49 ' ' ++ " |".toList ++ hr ++ "|\n".toList ++
    "         -----------------------  -----------------------   -------- --------\n".toList

/-- `"%02X "` -/
def hexCell (number : Nat) : List Char := (upperHex number).leftpad 2 '0' ++ [' ']

/-- The header loop with the index `i`. -/
def headerStep (i : Nat) (locals : Locals) : Option Locals := do
  let locals := locals.snprintfHdtmp (hexCell i)
  let locals := locals.snprintfHrtmp (upperHex i)
  let locals ← locals.strcatHd locals.hdtmp.text
  let locals ← locals.strcatHr locals.hrtmp.text
  if i % 16 = 7 then
    let locals ← locals.strcatHr [' ']
    locals.strcatHd [' ']
  else
    some locals

/-- The header loop before the index `i`. -/
def headerLoop : Nat → Locals → Option Locals
  | 0, locals => some locals
  | i + 1, locals => (headerLoop i locals).bind (headerStep i)

/-- `hexdump_f` up to the data loop. -/
def header (nbytes limit : Nat) : Option Locals := do
  let locals := Locals.init.fprintf (titleLine nbytes limit)
  let locals ← headerLoop 16 locals
  some (locals.fprintf (columnLines locals.hd.text locals.hr.text)).reset

/-! ## The rows -/

/-- `"%08X %-49s |%-17s|\n"` -/
def rowLine (line : UInt32) (hd hr : List Char) : List Char :=
  (upperHex (0x10 * line).toNat).leftpad 8 '0' ++ ' ' :: hd.rightpad 49 ' ' ++ [' ', '|'] ++
    hr.rightpad 17 ' ' ++ ['|', '\n']

def Locals.printRow (locals : Locals) : Locals :=
  locals.fprintf (rowLine locals.line locals.hd.text locals.hr.text)

/-- The part of the data loop that is about the text column. -/
def textStep (ch : UInt8) (locals : Locals) : Option Locals :=
  if ch < 0x21 ∨ 0x7e < ch then
    locals.strcatHr ['.']
  else
    let locals := locals.snprintfHrtmp [character ch]
    locals.strcatHr locals.hrtmp.text

/-- The data loop with the index `i`, at the byte `ch`. -/
def dataStep (i : Nat) (ch : UInt8) (locals : Locals) : Option Locals := do
  let locals := locals.snprintfHdtmp (hexCell ch.toNat)
  let locals ← locals.strcatHd locals.hdtmp.text
  let locals ← textStep ch locals
  if i % 16 = 7 then
    let locals ← locals.strcatHr [' ']
    locals.strcatHd [' ']
  else if i % 16 = 15 then
    let locals := locals.printRow.reset
    some { locals with line := locals.line + 1 }
  else
    some locals

/-- The data loop before the index `i`.  There is no byte to read past the end of the data. -/
def dataLoop (data : List UInt8) : Nat → Locals → Option Locals
  | 0, locals => some locals
  | i + 1, locals =>
      match data[i]? with
      | none => none
      | some ch => (dataLoop data i locals).bind (dataStep i ch)

/-- `hexdump_f` of all bytes of the data, which it does whatever the limit.  There is no result
if a string does not fit into its array. -/
def hexdumpF (data : List UInt8) (limit : UInt32) : Option Locals := do
  let locals ← header data.length limit.toNat
  let locals ← dataLoop data data.length locals
  some (if 0 < locals.hr.strlen then locals.printRow else locals)

/-- `hexdump` -/
def hexdump (data : List UInt8) : Option Locals := hexdumpF data 0

/-- `hexdump_limit` -/
def hexdumpLimit (data : List UInt8) (limit : UInt32) : Option Locals := hexdumpF data limit

end LinuxCTemplate.Hexdump
