import SchemaCodegen.Text.Blank

/-!
# Digits of every script

An index in a pointer and a number in the environment may be written with the
decimal digits of any script.  A **decimal digit** has a value from 0 to 9; a
**digit** in the wider sense also includes superscripts, subscripts and circled
digits, which look like digits and have no place value.

* `decimalValue?` — the value of a decimal digit.
* `isDigit` — the wider class.
* `readInteger?` — an integer with an optional sign, blanks around it and single
  underscores between its digits.
-/

namespace SchemaCodegen.Text

/-- The zeros of the scripts that have decimal digits; the other nine follow each
of them. -/
def decimalZeros : List Nat :=
  [0x30, 0x660, 0x6f0, 0x7c0, 0x966, 0x9e6, 0xa66, 0xae6, 0xb66, 0xbe6, 0xc66, 0xce6, 0xd66,
   0xde6, 0xe50, 0xed0, 0xf20, 0x1040, 0x1090, 0x17e0, 0x1810, 0x1946, 0x19d0, 0x1a80, 0x1a90,
   0x1b50, 0x1bb0, 0x1c40, 0x1c50, 0xa620, 0xa8d0, 0xa900, 0xa9d0, 0xa9f0, 0xaa50, 0xabf0,
   0xff10, 0x104a0, 0x10d30, 0x11066, 0x110f0, 0x11136, 0x111d0, 0x112f0, 0x11450, 0x114d0,
   0x11650, 0x116c0, 0x11730, 0x118e0, 0x11950, 0x11c50, 0x11d50, 0x11da0, 0x16a60, 0x16ac0,
   0x16b50, 0x1d7ce, 0x1d7d8, 0x1d7e2, 0x1d7ec, 0x1d7f6, 0x1e140, 0x1e2f0, 0x1e950, 0x1fbf0]

/-- The digits without a place value: superscripts, subscripts, circled and
parenthesised digits and the like, as ranges of code points. -/
def otherDigits : List (Nat × Nat) :=
  [(0xb2, 0xb3), (0xb9, 0xb9), (0x1369, 0x1371), (0x19da, 0x19da), (0x2070, 0x2070),
   (0x2074, 0x2079), (0x2080, 0x2089), (0x2460, 0x2468), (0x2474, 0x247c), (0x2488, 0x2490),
   (0x24ea, 0x24ea), (0x24f5, 0x24fd), (0x24ff, 0x24ff), (0x2776, 0x277e), (0x2780, 0x2788),
   (0x278a, 0x2792), (0x10a40, 0x10a43), (0x10e60, 0x10e68), (0x11052, 0x1105a),
   (0x1f100, 0x1f10a)]

/-- The value of a decimal digit. -/
def decimalValue? (c : Char) : Option Nat :=
  (decimalZeros.find? fun z => z ≤ c.toNat && c.toNat ≤ z + 9).map (c.toNat - ·)

/-- A digit of any kind. -/
def isDigit (c : Char) : Bool :=
  (decimalValue? c).isSome || otherDigits.any fun r => r.1 ≤ c.toNat && c.toNat ≤ r.2

/-- The ASCII digits are the decimal digits with their usual values. -/
example : "0123456789".toList.map decimalValue? = (List.range 10).map some := by decide

/-- A superscript two is a digit and has no value. -/
example : isDigit '²' = true ∧ decimalValue? '²' = none := by decide

/-- The value of a hexadecimal digit, ASCII only. -/
def hexValue? (c : Char) : Option Nat :=
  if '0' ≤ c && c ≤ '9' then some (c.toNat - 48)
  else if 'a' ≤ c && c ≤ 'f' then some (c.toNat - 87)
  else if 'A' ≤ c && c ≤ 'F' then some (c.toNat - 55)
  else none

/-- The longest run of digits that is read as an integer. -/
def longestInteger : Nat := 4300

/-- The number written by decimal digits; nothing when a character is none. -/
def readDigits? : (value : Nat) → List Char → Option Nat
  | value, [] => some value
  | value, c :: rest => (decimalValue? c).bind fun d => readDigits? (10 * value + d) rest

/-- Digits in which single underscores may stand between two digits. -/
def readGroupedDigits? : (value : Nat) → List Char → Option Nat
  | _, [] => none
  | value, [c] => (decimalValue? c).map (10 * value + ·)
  | value, c :: '_' :: rest =>
    (decimalValue? c).bind fun d => readGroupedDigits? (10 * value + d) rest
  | value, c :: rest => (decimalValue? c).bind fun d => readGroupedDigits? (10 * value + d) rest

/-- An integer: blanks around it, an optional sign, then grouped digits. -/
def readInteger? (s : String) : Option Int :=
  match dropBlanksRight (dropBlanks s.toList) with
  | '+' :: ds => (readGroupedDigits? 0 ds).map fun n => (n : Int)
  | '-' :: ds => (readGroupedDigits? 0 ds).map fun n => -(n : Int)
  | ds => (readGroupedDigits? 0 ds).map fun n => (n : Int)

end SchemaCodegen.Text
