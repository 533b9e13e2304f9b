import SchemaCodegen.Number.Numeric

/-!
# The random source

Seeded sample data is drawn from the twisted generator with 624 words of state and period
`2 ^ 19937 - 1`.  A seed is an integer; the words of its magnitude fill the state.

Draws are computations on the state: a word, some bits, a number below a bound, a number
between two others, a fraction of one.

* `below` — a number below a bound is drawn by taking as many bits as the bound has until
  they are below it.  Each try succeeds with probability above one half; after many tries
  the remainder decides, so that the result is below the bound in any case (`below_lt`).
-/

namespace SchemaCodegen

/-- The state of the generator: its words, and which is next. -/
structure Twister where
  words : Array UInt32
  next : Nat

namespace Twister

/-- The number of words. -/
def size : Nat := 624

/-- A word of the state, counted round. -/
def word (ws : Array UInt32) (i : Nat) : UInt32 := ws.getD (i % size) 0

/-- The low bits of a word mixed with its two high bits. -/
def mixed (w : UInt32) : UInt32 := w ^^^ (w >>> 30)

/-- The words that grow from one. -/
def grown (start : UInt32) : Array UInt32 :=
  (List.range (size - 1)).foldl (fun ws i =>
    ws.push (1812433253 * mixed (word ws i) + UInt32.ofNat (i + 1))) #[start]

/-- The number of words: `2 ^ 32`. -/
def wordCount : Nat := 0x100000000

/-- The words of a magnitude, the least significant first. -/
def magnitudeWords (n : Nat) : List UInt32 :=
  if _big : wordCount ≤ n then UInt32.ofNat n :: magnitudeWords (n / wordCount)
  else [UInt32.ofNat n]
termination_by n
decreasing_by
  unfold wordCount at _big ⊢
  omega

/-- A place in the state and in a key, and the state there. -/
structure Filling where
  words : Array UInt32
  place : Nat
  keyPlace : Nat

/-- The filling moved on by one place; behind the last word comes the second, after the
first has been set to the last. -/
def Filling.advance (f : Filling) (keyLength : Nat) : Filling :=
  let keyPlace := if f.keyPlace + 1 < keyLength then f.keyPlace + 1 else 0
  if f.place + 1 < size then ⟨f.words, f.place + 1, keyPlace⟩
  else ⟨f.words.setIfInBounds 0 (word f.words (size - 1)), 1, keyPlace⟩

/-- One word of a key worked into the state. -/
def Filling.takeKey (key : List UInt32) (f : Filling) : Filling :=
  let w := (word f.words f.place ^^^ (mixed (word f.words (f.place - 1)) * 1664525))
    + key.getD f.keyPlace 0 + UInt32.ofNat f.keyPlace
  { f with words := f.words.setIfInBounds f.place w }.advance key.length

/-- One word of the state stirred. -/
def Filling.stir (keyLength : Nat) (f : Filling) : Filling :=
  let w := (word f.words f.place ^^^ (mixed (word f.words (f.place - 1)) * 1566083941))
    - UInt32.ofNat f.place
  { f with words := f.words.setIfInBounds f.place w }.advance keyLength

/-- A function applied a number of times. -/
def repeated {α : Type} (f : α → α) : Nat → α → α
  | 0, a => a
  | n + 1, a => repeated f n (f a)

/-- The state that a key fills. -/
def ofKey (key : List UInt32) : Twister :=
  let filled := repeated (Filling.takeKey key) (max size key.length) ⟨grown 19650218, 1, 0⟩
  let stirred := repeated (Filling.stir key.length) (size - 1) filled
  ⟨stirred.words.setIfInBounds 0 0x80000000, size⟩

/-- The state of a seed. -/
def ofSeed (seed : Int) : Twister := ofKey (magnitudeWords seed.natAbs)

/-! ### Words -/

/-- A new state from an old one, word by word. -/
def twist (ws : Array UInt32) : Array UInt32 :=
  (List.range size).foldl (fun ws i =>
    let y := (word ws i &&& 0x80000000) ||| (word ws (i + 1) &&& 0x7fffffff)
    let flip : UInt32 := if y &&& 1 == 1 then 0x9908b0df else 0
    ws.setIfInBounds i (word ws (i + 397) ^^^ (y >>> 1) ^^^ flip)) ws

/-- A word as it is handed out. -/
def temper (y : UInt32) : UInt32 :=
  let y := y ^^^ (y >>> 11)
  let y := y ^^^ ((y <<< 7) &&& 0x9d2c5680)
  let y := y ^^^ ((y <<< 15) &&& 0xefc60000)
  y ^^^ (y >>> 18)

end Twister

/-- A draw from the random source. -/
abbrev Draw := StateM Twister

namespace Draw

/-- A word. -/
def word : Draw UInt32 := fun t =>
  let t := if t.next < Twister.size then t else ⟨Twister.twist t.words, 0⟩
  (Twister.temper (Twister.word t.words t.next), { t with next := t.next + 1 })

/-- A number of `k` bits; the first word gives the least significant ones. -/
def bits (k : Nat) : Draw Nat :=
  if k = 0 then pure 0
  else if k ≤ 32 then do pure ((← word).toNat >>> (32 - k))
  else do
    let low ← word
    let high ← bits (k - 32)
    pure (low.toNat + high <<< 32)
termination_by k

/-- The number of bits of `n`. -/
def bitLength (n : Nat) : Nat := if n = 0 then 0 else n.log2 + 1

/-- A number below `n`, in a number of tries. -/
def belowWithin (n : Nat) : (tries : Nat) → Draw Nat
  | 0 => do pure ((← bits (bitLength n)) % n)
  | tries + 1 => do
    let r ← bits (bitLength n)
    if r < n then pure r else belowWithin n tries

/-- A number below `n`. -/
def below (n : Nat) : Draw Nat := belowWithin n 1000

/-- An integer from `low` to `high`, which must not be less. -/
def between (low high : Int) : Draw Int := do
  pure (low + (← below (high - low + 1).toNat))

/-- A fraction of one, with 53 bits. -/
def fraction : Draw Binary64 := do
  let high ← word
  let low ← word
  pure (Binary64.ofScaled false ((high >>> 5).toNat * 67108864 + (low >>> 6).toNat) (-53))

/-- A number below a bound in a number of tries is below it. -/
theorem belowWithin_lt {n : Nat} (h : 0 < n) (tries : Nat) (t : Twister) :
    ((belowWithin n tries).run t).1 < n := by
  induction tries generalizing t with
  | zero => exact Nat.mod_lt _ h
  | succ tries ih =>
    show ((if ((bits (bitLength n)).run t).1 < n then pure ((bits (bitLength n)).run t).1
      else belowWithin n tries : Draw Nat).run ((bits (bitLength n)).run t).2).1 < n
    split
    · assumption
    · exact ih _

/-- A number below a bound is below it. -/
theorem below_lt {n : Nat} (h : 0 < n) (t : Twister) : ((below n).run t).1 < n :=
  belowWithin_lt h 1000 t

end Draw

end SchemaCodegen
