import BlockGraph.Text.Invisible

/-!
# Texts

What is read from texts and written into them: names of set bits, numerals, fields between
separators, quoted text and bytes in hexadecimal.
-/

namespace BlockGraph.Text

/-! ## Named bits -/

/-- The names of the bits that are set, or a word for none of them. -/
def flagNames (names : List (Nat × String)) (bits : Nat) : String :=
  match names.filter fun (bit, _) => bits.testBit bit with
  | [] => "(empty)"
  | present => " | ".intercalate (present.map (·.2))

/-! ## Numerals -/

/-- The digits of a numeral, without the plus sign it may start with. -/
def unsignedPart : List Char → List Char
  | '+' :: digits => digits
  | digits => digits

/-- The number spelled by an optional plus sign and one or more decimal digits, if it is
below `2 ^ 64` (`str::parse` of a `usize`). -/
def readWord? (text : List Char) : Option Nat :=
  let digits := unsignedPart text
  let value := Nat.ofDigitChars 10 digits 0
  if digits ≠ [] ∧ digits.all Char.isDigit ∧ value < 0x10000000000000000 then some value else none

/-- A byte as two lower-case hexadecimal digits. -/
def hexByte (b : UInt8) : String :=
  String.ofList [Nat.digitChar (b.toNat / 16), Nat.digitChar (b.toNat % 16)]

example : readWord? "+007".toList = some 7 := by cbv
example : readWord? "18446744073709551616".toList = none := by decide +kernel
example : hexByte 0x0b = "0b" := by cbv

/-! ## Fields and the blanks around them -/

/-- A text cut at each separator (`str::split`). -/
def fields (separator : Char) : List Char → List (List Char)
  | [] => [[]]
  | c :: rest =>
    if c = separator then [] :: fields separator rest
    else
      match fields separator rest with
      | [] => [[c]]
      | field :: others => (c :: field) :: others

/-- Code points with the Unicode property `White_Space` (`char::is_whitespace`). -/
def isBlank (c : Char) : Bool :=
  let n := c.toNat
  (0x09 ≤ n && n ≤ 0x0d) || n == 0x20 || n == 0x85 || n == 0xa0 || n == 0x1680 ||
    (0x2000 ≤ n && n ≤ 0x200a) || n == 0x2028 || n == 0x2029 || n == 0x202f || n == 0x205f ||
    n == 0x3000

/-- Space, tab, newline, form feed and carriage return; a vertical tab is none of them
(`u8::is_ascii_whitespace`). -/
def isBlankByte (b : UInt8) : Bool :=
  b == 0x20 || b == 0x09 || b == 0x0a || b == 0x0c || b == 0x0d

/-- A text without the blanks at both ends (`str::trim`). -/
def trim (text : List Char) : List Char :=
  ((text.dropWhile isBlank).reverse.dropWhile isBlank).reverse

/-! ## Quoted text

A diagnostic shows a text between quotation marks on one line: the mark in use, the backslash and
everything without a visible form are escaped, and all other characters stand for themselves. -/

/-- A character written by its code point, in lower-case hexadecimal. -/
def codePointEscape (c : Char) : List Char :=
  ['\\', 'u', '\x7b'] ++ Nat.toDigits 16 c.toNat ++ ['\x7d']

/-- The spelling of one character between two `mark`s. -/
def escapeChar (mark c : Char) : List Char :=
  if c = '\x00' then ['\\', '0']
  else if c = '\t' then ['\\', 't']
  else if c = '\r' then ['\\', 'r']
  else if c = '\n' then ['\\', 'n']
  else if c = '\\' || c = mark then ['\\', c]
  else if isInvisible c then codePointEscape c
  else [c]

/-- A text between two `mark`s. -/
def quoteWith (mark : Char) (text : List Char) : String :=
  String.ofList (mark :: text.flatMap (escapeChar mark) ++ [mark])

/-- A text between double quotation marks. -/
def quote (text : String) : String := quoteWith '"' text.toList

/-- A character between single quotation marks. -/
def quoteChar (c : Char) : String := quoteWith '\'' [c]

/-- A visible character that is neither the mark nor the backslash stands for itself. -/
theorem escapeChar_of_visible {mark c : Char} (hv : isInvisible c = false)
    (hc : c ∉ ['\x00', '\t', '\r', '\n', '\\', mark]) : escapeChar mark c = [c] := by
  simp only [List.mem_cons, List.not_mem_nil, or_false, not_or] at hc
  simp [escapeChar, hc, hv]

example : quote "a\"b\\c'" = "\"a\\\"b\\\\c'\"" := by cbv
example : quoteChar '\'' = "'\\''" := by cbv

/-! ## Hexadecimal text

Bytes written as pairs of hexadecimal digits in either letter case. Blank bytes may stand
anywhere, also between the two digits of a pair. -/

/-- Why a text is not a sequence of digit pairs. -/
inductive HexFault where
  /-- A digit has no partner. -/
  | oddLength
  /-- A byte is no digit; the position does not count blanks. -/
  | notDigit (byte : UInt8) (position : Nat)
deriving DecidableEq, Repr

/-- The cause in words. -/
def HexFault.message : HexFault → String
  | .oddLength => "Odd number of digits"
  | .notDigit byte position =>
    "Invalid character " ++ quoteChar (Char.ofNat byte.toNat) ++ s!" at position {position}"

/-- The value of a hexadecimal digit. -/
def hexDigit? (b : UInt8) : Option UInt8 :=
  if 0x30 ≤ b ∧ b ≤ 0x39 then some (b - 0x30)
  else if 0x41 ≤ b ∧ b ≤ 0x46 then some (b - 0x41 + 10)
  else if 0x61 ≤ b ∧ b ≤ 0x66 then some (b - 0x61 + 10)
  else none

/-- The bytes spelled by pairs of digits, the first of which stands at `position`. -/
def readPairs : Nat → List UInt8 → Except HexFault (List UInt8)
  | _, [] => .ok []
  | _, [_] => .error .oddLength
  | position, high :: low :: rest =>
    match hexDigit? high, hexDigit? low with
    | none, _ => .error (.notDigit high position)
    | some _, none => .error (.notDigit low (position + 1))
    | some h, some l => (readPairs (position + 2) rest).map ((16 * h + l) :: ·)

/-- The bytes spelled by a text. A missing digit is reported before a wrong one. -/
def readHex (text : List UInt8) : Except HexFault (List UInt8) :=
  let digits := text.filter (!isBlankByte ·)
  if digits.length % 2 = 1 then .error .oddLength else readPairs 0 digits

example : readHex [0x30, 0x34, 0x20, 0x42, 0x0a, 0x31] = .ok [0x04, 0xb1] := rfl
example : readHex [0x30, 0x34, 0x20, 0x35, 0x67] = .error (.notDigit 0x67 3) := rfl
example : readHex [0x67] = .error .oddLength := rfl

end BlockGraph.Text
