import SchemaCodegen.Number.Binary64

/-!
# The shortest decimal of a binary64 number

A finite number is written with the **fewest digits that read back as the same
word**, and among the decimals of that length with the nearest one.

The reals that round to a word form an interval around it: half a gap on each
side, the ends included exactly when the mantissa is even.  For 1, 2, … 17
digits only the value's two neighbours on the decimal grid of that length can lie
in the interval, since a grid point farther off lies beyond one of them.  The
first grid with a hit wins; of two hits the nearer one, and on a tie the even
one.

The digits are independent of how they are laid out; `text` fixes the layout:
positional from `0.0001` up to sixteen digits before the point, otherwise one
digit before the point and an exponent of at least two digits.
-/

namespace SchemaCodegen.Binary64

/-- The decimal `digits * 10 ^ exponent`. -/
structure Decimal where
  digits : Nat
  exponent : Int
deriving DecidableEq, Repr

/-- The greatest `k` with `10 ^ k ≤ n / d`, for positive `n` and `d`: an
estimate from the binary logarithm, corrected by one where it is off. -/
def floorLog10 (n d : Nat) : Int :=
  let guess := Int.fdiv (floorLog2 n d * 30103) 100000
  let reaches (k : Int) : Bool :=
    if 0 ≤ k then d * tenTo k.toNat ≤ n else d ≤ n * tenTo (-k).toNat
  if reaches (guess + 1) then guess + 1 else if reaches guess then guess else guess - 1

/-- The interval of reals that round to `m * 2 ^ e`, in quarters of `2 ^ e`:
its two ends, and whether they belong to it.  Below a power of two the gap is
half as wide, except at the bottom of the format. -/
def roundingInterval (m : Nat) (e : Int) : Nat × Nat × Bool :=
  let below := if m == 1 <<< 52 && e != -1074 then 1 else 2
  (4 * m - below, 4 * m + 2, m % 2 == 0)

/-- The better of the two neighbours of `m * 2 ^ e` on the grid `10 ^ k`, if one
of them lies in the rounding interval. -/
def gridHit? (m : Nat) (e k : Int) : Option Nat :=
  let (low, high, closed) := roundingInterval m e
  -- All numbers below are multiples of one unit: `x * num` is `x` quarters of
  -- `2 ^ e`, and `g * den` is `g` grid steps.
  let up (j : Int) : Nat := if 0 ≤ j then j.toNat else 0
  let num := tenTo (up (-k)) <<< up (e - 2)
  let den := tenTo (up k) <<< up (2 - e)
  let value := 4 * m * num
  let inside (g : Nat) : Bool :=
    let x := g * den
    if closed then low * num ≤ x && x ≤ high * num else low * num < x && x < high * num
  let g := value / den
  let lower := inside g && g != 0
  let upper := inside (g + 1)
  if lower && upper then some (roundHalfEven value den)
  else if lower then some g
  else if upper then some (g + 1)
  else none

/-- The first hit on the grids of `n`, `n + 1`, … digits below the leading
exponent `top`; seventeen digits always suffice. -/
def firstHit (m : Nat) (e top : Int) : (remaining n : Nat) → Decimal
  | 0, n => ⟨0, n⟩
  | r + 1, n =>
    let k := top - n + 1
    match gridHit? m e k with
    | some g => ⟨g, k⟩
    | none => firstHit m e top r (n + 1)

/-- The shortest decimal of a positive finite number `m * 2 ^ e`. -/
def shortest (m : Nat) (e : Int) : Decimal :=
  let top := if 0 ≤ e then floorLog10 (m <<< e.toNat) 1 else floorLog10 m (1 <<< (-e).toNat)
  firstHit m e top 17 1

/-- Digits without the zeros at their end, which go into the exponent. -/
def Decimal.trim (x : Decimal) : (fuel : Nat) → Decimal
  | 0 => x
  | n + 1 => if x.digits % 10 == 0 && x.digits != 0
      then Decimal.trim ⟨x.digits / 10, x.exponent + 1⟩ n else x

/-- The layout of a positive decimal: positional when the first digit stands for
a power of ten from `-4` to `15`, with `.0` after a whole number, and otherwise
with an exponent. -/
def Decimal.layout (x : Decimal) : String :=
  let ds := Nat.toDigits 10 x.digits
  let point : Int := ds.length + x.exponent
  if -4 < point && point ≤ 16 then
    if point ≤ 0 then "0." ++ String.ofList (List.replicate (-point).toNat '0' ++ ds)
    else if (ds.length : Int) ≤ point then
      String.ofList (ds ++ List.replicate (point - ds.length).toNat '0') ++ ".0"
    else String.ofList (ds.take point.toNat ++ '.' :: ds.drop point.toNat)
  else
    let power := point - 1
    let size := toString power.natAbs
    let size := if size.length < 2 then "0" ++ size else size
    let sign := if power < 0 then "-" else "+"
    let mantissa := match ds with
      | [] => "0"
      | [d] => String.singleton d
      | d :: rest => String.ofList (d :: '.' :: rest)
    mantissa ++ "e" ++ sign ++ size

/-- The text of a finite number without its sign. -/
def magnitudeText (m : Nat) (e : Int) : String :=
  if m == 0 then "0.0" else ((shortest m e).trim 17).layout

/-- The text of a number, with the given words for the infinite one and for
NaN. -/
def textWith (infinite notNumber : String) (x : Binary64) : String :=
  match x.datum with
  | .nan => notNumber
  | .infinite s => (if s then "-" else "") ++ infinite
  | .finite s m e => (if s then "-" else "") ++ magnitudeText m e

/-- The text of a number: `1.0`, `0.1`, `1e+16`, `1e-05`, `-0.0`, `inf`, `nan`. -/
def text (x : Binary64) : String := textWith "inf" "nan" x

end SchemaCodegen.Binary64
