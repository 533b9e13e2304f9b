import SchemaCodegen.Data.Value
import SchemaCodegen.Failure

/-!
# Numbers of both kinds

A number of a document is an integer of any size or a binary64 number, and arithmetic keeps
the two apart: an operation on integers is exact, and one in which a binary64 number takes
part is done on the nearest binary64 numbers.  A quotient is always a binary64 number.
Comparison is exact between both kinds.

An integer beyond the range of binary64 has no nearest one, which is the failure
`overflow`; so is the neighbouring integer of an infinite number.  What is not a number has
no neighbouring integer at all.
-/

namespace SchemaCodegen

/-- A number: an integer, or a binary64 number. -/
inductive Numeric where
  | int (n : Int)
  | float (x : Binary64)
deriving DecidableEq, Repr, Inhabited

/-- The number that a value is; truth values are none. -/
def Value.numeric? : Value → Option Numeric
  | .int n => some (.int n)
  | .float x => some (.float x)
  | _ => none

namespace Numeric

/-- A number as data. -/
def value : Numeric → Value
  | .int n => .int n
  | .float x => .float x

/-- The nearest binary64 number. -/
def toBinary64 : Numeric → Except Failure Binary64
  | .int n =>
    match Binary64.ofInt? n with
    | some x => .ok x
    | none => .error .overflow
  | .float x => .ok x

/-- An operation that is exact on integers. -/
def combine (exact : Int → Int → Int) (rounded : Binary64 → Binary64 → Binary64)
    (a b : Numeric) : Except Failure Numeric :=
  match a, b with
  | .int m, .int n => .ok (.int (exact m n))
  | a, b => do pure (.float (rounded (← a.toBinary64) (← b.toBinary64)))

/-- The sum. -/
def add : Numeric → Numeric → Except Failure Numeric := combine (· + ·) Binary64.add

/-- The difference. -/
def sub : Numeric → Numeric → Except Failure Numeric := combine (· - ·) Binary64.sub

/-- The product. -/
def mul : Numeric → Numeric → Except Failure Numeric := combine (· * ·) Binary64.mul

/-- The quotient by a number that is not zero, rounded once. -/
def div (a b : Numeric) : Except Failure Binary64 :=
  match a, b with
  | .int m, .int n =>
    let x := Binary64.ofRatio ((m < 0) != (n < 0)) m.natAbs n.natAbs
    if x.isFinite then .ok x else .error .overflow
  | a, b => do pure (Binary64.div (← a.toBinary64) (← b.toBinary64))

/-- The order of two numbers; nothing when one is not a number. -/
def compare? : Numeric → Numeric → Option Ordering
  | .int m, .int n => some (compare m n)
  | .int m, .float y => (y.compareInt? m).map Ordering.swap
  | .float x, .int n => x.compareInt? n
  | .float x, .float y => x.compare? y

/-- The first number is less. -/
def isLess (a b : Numeric) : Bool := a.compare? b == some .lt

/-- The lesser number; the first one unless the second is less. -/
def least (a b : Numeric) : Numeric := if b.isLess a then b else a

/-- The number is above zero. -/
def isPositive (a : Numeric) : Bool := (Numeric.int 0).isLess a

/-- A neighbouring integer of a binary64 number, if there is one. -/
def neighbour (x : Binary64) (n : Option Int) : Except Failure Int :=
  match n with
  | some n => .ok n
  | none => .error (if x.isNaN then .unreadable else .overflow)

/-- The greatest integer not above the number. -/
def floor : Numeric → Except Failure Int
  | .int n => .ok n
  | .float x => neighbour x x.floor?

/-- The least integer not below the number. -/
def ceil : Numeric → Except Failure Int
  | .int n => .ok n
  | .float x => neighbour x x.ceil?

/-- The whole part of the number. -/
def truncate : Numeric → Except Failure Int
  | .int n => .ok n
  | .float x => neighbour x x.truncate?

end Numeric

end SchemaCodegen
