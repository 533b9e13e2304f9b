/-!
# Binary64 numbers, exactly

A number with a fraction is a 64-bit word of the IEEE 754 double format.  Every
operation decodes its words into exact integers, computes the exact result and
rounds **once**, to the nearest word and to the even one on a tie.  Nothing here
rests on the machine's floating point, so each result can be computed and
reasoned about as a statement on `Nat` and `Int`.

* `Datum` — what a word stands for: a sign, a mantissa and a power of two; an
  infinity; or no number.
* `ofRatio` — the word nearest to an exact quotient.
* `add`, `mul`, `div` — the exact result, rounded once.
* `lt`, `le`, `compareInt?` — exact comparisons, also with integers of any size.
* `floor`, `ceil`, `truncate` — the neighbouring integers of a finite number.

### Why words and not triples

A word is its own normal form: two words with one meaning are the two zeros and
nothing else (the quiet NaN is the only one that is ever built).  Equality of
data that holds such numbers is therefore equality of what can be observed.
-/

namespace SchemaCodegen

/-- A word of the IEEE 754 double format. -/
structure Binary64 where
  bits : UInt64
deriving DecidableEq, Inhabited, Repr

/-- The power `10 ^ k`. -/
def tenTo (k : Nat) : Nat := Nat.pow 10 k

/-- The quotient `n / d` rounded to the nearest integer, a half to the even one. -/
def roundHalfEven (n d : Nat) : Nat :=
  let q := n / d
  let r := n % d
  if d < 2 * r || (2 * r == d && q % 2 == 1) then q + 1 else q

namespace Binary64

/-- What a word stands for.  A finite number is `± mantissa * 2 ^ exponent`. -/
inductive Datum where
  | finite (negative : Bool) (mantissa : Nat) (exponent : Int)
  | infinite (negative : Bool)
  | nan
deriving DecidableEq, Repr

/-- The sign bit. -/
def signBit (x : Binary64) : Bool := x.bits >>> 63 == 1

/-- The biased exponent field, `0` to `2047`. -/
def exponentField (x : Binary64) : Nat := ((x.bits >>> 52) &&& 0x7ff).toNat

/-- The 52 fraction bits. -/
def fractionField (x : Binary64) : Nat := (x.bits &&& 0xfffffffffffff).toNat

/-- The meaning of a word: the greatest exponent field marks the infinities and
NaN, the least one the zeros and subnormals, and any other one adds the hidden
bit. -/
def datum (x : Binary64) : Datum :=
  if x.exponentField == 2047 then
    if x.fractionField == 0 then .infinite x.signBit else .nan
  else if x.exponentField == 0 then .finite x.signBit x.fractionField (-1074)
  else .finite x.signBit (1 <<< 52 + x.fractionField) (x.exponentField - 1075)

/-- The word with the given sign and magnitude bits. -/
def ofMagnitude (negative : Bool) (magnitude : Nat) : Binary64 :=
  ⟨if negative then 0x8000000000000000 ||| magnitude.toUInt64 else magnitude.toUInt64⟩

/-- The quiet NaN. -/
def nan : Binary64 := ⟨0x7ff8000000000000⟩

/-- The infinity of a sign. -/
def infinity (negative : Bool) : Binary64 := ofMagnitude negative 0x7ff0000000000000

/-- The zero of a sign. -/
def zero (negative : Bool) : Binary64 := ofMagnitude negative 0

/-- The greatest `l` with `2 ^ l ≤ n / d`, for positive `n` and `d`. -/
def floorLog2 (n d : Nat) : Int :=
  let l : Int := (n.log2 : Int) - (d.log2 : Int)
  let fits := if 0 ≤ l then d <<< l.toNat ≤ n else d ≤ n <<< (-l).toNat
  if fits then l else l - 1

/-- The word nearest to `± n / d`, ties to the even word.  A quotient of at
least `2 ^ 1024` less half a unit becomes the infinity of its sign.

The mantissa is rounded on the grid of the quotient's own exponent (of the least
exponent for subnormals); a mantissa that rounds up to the next power of two
carries into the exponent by plain addition of the two fields. -/
def ofRatio (negative : Bool) (n d : Nat) : Binary64 :=
  if n == 0 then zero negative
  else
    let e : Int := max (floorLog2 n d - 52) (-1074)
    let m := if 0 ≤ e then roundHalfEven n (d <<< e.toNat)
      else roundHalfEven (n <<< (-e).toNat) d
    let magnitude := (e + 1074).toNat <<< 52 + m
    if 0x7ff0000000000000 ≤ magnitude then infinity negative
    else ofMagnitude negative magnitude

/-- The word nearest to `± m * 2 ^ e`. -/
def ofScaled (negative : Bool) (m : Nat) (e : Int) : Binary64 :=
  if 0 ≤ e then ofRatio negative (m <<< e.toNat) 1 else ofRatio negative m (1 <<< (-e).toNat)

/-- The number of decimal digits of `n`; one for zero. -/
def decimalLength (n : Nat) : Nat := (Nat.toDigits 10 n).length

/-- The word nearest to `± digits * 10 ^ e`.  Exponents far beyond the format's
range are settled by the length of the digits alone. -/
def ofDecimal (negative : Bool) (digits : Nat) (e : Int) : Binary64 :=
  if digits == 0 then zero negative
  else
    let top := (decimalLength digits : Int) + e
    if 400 < top then infinity negative
    else if top < -400 then zero negative
    else if 0 ≤ e then ofRatio negative (digits * tenTo e.toNat) 1
    else ofRatio negative digits (tenTo (-e).toNat)

/-- The word nearest to an integer, or nothing when that would be infinite. -/
def ofInt? (n : Int) : Option Binary64 :=
  let x := ofRatio (n < 0) n.natAbs 1
  match x.datum with
  | .infinite _ => none
  | _ => some x

/-- Not a number. -/
def isNaN (x : Binary64) : Bool := x.datum == .nan

/-- A finite number, neither infinite nor NaN. -/
def isFinite (x : Binary64) : Bool := x.exponentField != 2047

/-- The word with the other sign. -/
def neg (x : Binary64) : Binary64 := ⟨x.bits ^^^ 0x8000000000000000⟩

/-! ### Arithmetic -/

/-- A signed mantissa as an integer. -/
def signed (negative : Bool) (m : Nat) : Int := if negative then -(m : Int) else m

/-- The exact sum, rounded.  A sum that is zero is `-0` only when both
operands are negative. -/
def add (x y : Binary64) : Binary64 :=
  match x.datum, y.datum with
  | .nan, _ => nan
  | _, .nan => nan
  | .infinite s, .infinite t => if s == t then infinity s else nan
  | .infinite s, _ => infinity s
  | _, .infinite t => infinity t
  | .finite s m e, .finite t n f =>
    let low := min e f
    let total := signed s (m <<< (e - low).toNat) + signed t (n <<< (f - low).toNat)
    if total == 0 then zero (s && t) else ofScaled (total < 0) total.natAbs low

/-- The exact difference, rounded. -/
def sub (x y : Binary64) : Binary64 := add x (neg y)

/-- The exact product, rounded. -/
def mul (x y : Binary64) : Binary64 :=
  match x.datum, y.datum with
  | .nan, _ => nan
  | _, .nan => nan
  | .infinite s, .infinite t => infinity (s != t)
  | .infinite s, .finite t n _ => if n == 0 then nan else infinity (s != t)
  | .finite s m _, .infinite t => if m == 0 then nan else infinity (s != t)
  | .finite s m e, .finite t n f => ofScaled (s != t) (m * n) (e + f)

/-- The exact quotient, rounded.  A divisor of zero gives an infinity, and
zero by zero no number. -/
def div (x y : Binary64) : Binary64 :=
  match x.datum, y.datum with
  | .nan, _ => nan
  | _, .nan => nan
  | .infinite _, .infinite _ => nan
  | .infinite s, .finite t _ _ => infinity (s != t)
  | .finite s _ _, .infinite t => zero (s != t)
  | .finite s m e, .finite t n f =>
    if n == 0 then (if m == 0 then nan else infinity (s != t))
    else if f ≤ e then ofRatio (s != t) (m <<< (e - f).toNat) n
    else ofRatio (s != t) m (n <<< (f - e).toNat)

/-! ### Order -/

/-- The order of two numbers, nothing when one is NaN.  The two zeros are
equal. -/
def compare? (x y : Binary64) : Option Ordering :=
  match x.datum, y.datum with
  | .nan, _ => none
  | _, .nan => none
  | .infinite s, .infinite t => some (if s == t then .eq else if s then .lt else .gt)
  | .infinite s, _ => some (if s then .lt else .gt)
  | _, .infinite t => some (if t then .gt else .lt)
  | .finite s m e, .finite t n f =>
    let low := min e f
    some (compare (signed s (m <<< (e - low).toNat)) (signed t (n <<< (f - low).toNat)))

/-- The exact order of a number and an integer of any size. -/
def compareInt? (x : Binary64) (k : Int) : Option Ordering :=
  match x.datum with
  | .nan => none
  | .infinite s => some (if s then .lt else .gt)
  | .finite s m e =>
    if 0 ≤ e then some (compare (signed s (m <<< e.toNat)) k)
    else some (compare (signed s m) (k * (1 <<< (-e).toNat : Nat)))

/-! ### Neighbouring integers -/

/-- The greatest integer not above a finite number. -/
def floor? (x : Binary64) : Option Int :=
  match x.datum with
  | .finite s m e =>
    if 0 ≤ e then some (signed s (m <<< e.toNat))
    else some (Int.fdiv (signed s m) (1 <<< (-e).toNat : Nat))
  | _ => none

/-- The least integer not below a finite number. -/
def ceil? (x : Binary64) : Option Int := (neg x).floor?.map (- ·)

/-- The integer part of a finite number: rounding toward zero. -/
def truncate? (x : Binary64) : Option Int :=
  match x.datum with
  | .finite s m e =>
    if 0 ≤ e then some (signed s (m <<< e.toNat))
    else some (signed s (m >>> (-e).toNat))
  | _ => none

/-- A finite number rounded to a count of decimal places and back to a word: the
exact value goes to the nearest decimal, a half to the even one. -/
def roundPlaces (x : Binary64) (places : Nat) : Binary64 :=
  match x.datum with
  | .finite s m e =>
    if 0 ≤ e then x
    else
      let scaled := roundHalfEven (m * tenTo places) (1 <<< (-e).toNat)
      ofDecimal s scaled (-(places : Int))
  | _ => x

end Binary64

end SchemaCodegen
