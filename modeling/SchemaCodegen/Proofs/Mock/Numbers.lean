import SchemaCodegen.Proofs.Mock.Ending
import SchemaCodegen.Proofs.Number.Quotient

/-!
# Samples of integers

The sample of an integer starts from a number between the bounds, moves up to the next multiple of
the step and, where that exceeds the upper bound, back by one step (`settled`).  An exclusive bound
is made inclusive before by moving it by a whole step.

So much is lost by this: an integer may satisfy the schema and be less than a step below an exclusive
upper bound.  Where all are, the sample satisfies the schema only if the lower bound is exclusive as
well and no multiple of the step (`settled_admitted_iff`).
-/

namespace SchemaCodegen.Mock

variable {c : Context} {schema : Value} {es : Entries} {f : Facts} {d n x y : Int}

/-! ### Multiples -/

/-- The least multiple of a step that is not below a number. -/
def upTo (d n : Int) : Int := ⌈(n / d : ℚ)⌉ * d

theorem dvd_upTo (d n : Int) : d ∣ upTo d n := Int.dvd_mul_left _ d

theorem le_upTo (d_pos : 0 < d) (n : Int) : n ≤ upTo d n := by
  have step_pos : (0 : ℚ) < d := by exact_mod_cast d_pos
  have above := Int.le_ceil (n / d : ℚ)
  unfold upTo
  generalize ⌈(n / d : ℚ)⌉ = k at above ⊢
  rw [div_le_iff₀ step_pos] at above
  exact_mod_cast above

theorem upTo_lt (d_pos : 0 < d) (n : Int) : upTo d n < n + d := by
  have step_pos : (0 : ℚ) < d := by exact_mod_cast d_pos
  have near := Int.ceil_lt_add_one (n / d : ℚ)
  unfold upTo
  generalize ⌈(n / d : ℚ)⌉ = k at near ⊢
  rw [div_add_one step_pos.ne', lt_div_iff₀ step_pos] at near
  exact_mod_cast near

/-- Two multiples that differ do so by a step. -/
theorem add_le_of_dvd_of_lt (dvd_x : d ∣ x) (dvd_y : d ∣ y) (less : x < y) : x + d ≤ y := by
  have step := Int.le_of_dvd (Int.sub_pos_of_lt less) (Int.dvd_sub dvd_y dvd_x)
  omega

/-- The multiple that a number settles on: the next one, or the one before that where the next one
exceeds the upper bound. -/
def settled (d : Int) (high : Option Int) (n : Int) : Int :=
  if ∃ h ∈ high, h < upTo d n then upTo d n - d else upTo d n

/-! ### Bounds -/

/-- A bound, which may be excluded itself. -/
structure Bound where
  number : Int
  exclusive : Bool
deriving DecidableEq, Repr

namespace Bound

variable {b : Bound}

/-- The integer is admitted by the bound as a lower one. -/
def Below (b : Bound) (x : Int) : Prop := if b.exclusive then b.number < x else b.number ≤ x

/-- The integer is admitted by the bound as an upper one. -/
def Above (b : Bound) (x : Int) : Prop := if b.exclusive then x < b.number else x ≤ b.number

instance (b : Bound) (x : Int) : Decidable (b.Below x) :=
  inferInstanceAs (Decidable (if b.exclusive then b.number < x else b.number ≤ x))

instance (b : Bound) (x : Int) : Decidable (b.Above x) :=
  inferInstanceAs (Decidable (if b.exclusive then x < b.number else x ≤ b.number))

/-- A lower bound made inclusive. -/
def low (b : Bound) (d : Int) : Int := if b.exclusive then b.number + d else b.number

/-- An upper bound made inclusive. -/
def high (b : Bound) (d : Int) : Int := if b.exclusive then b.number - d else b.number

theorem below_of_low_le (d_pos : 0 < d) (le : b.low d ≤ x) : b.Below x := by
  obtain ⟨number, _ | _⟩ := b <;> simp [low, Below] at le ⊢ <;> omega

theorem Below.mono (below : b.Below x) (le : x ≤ y) : b.Below y := by
  obtain ⟨number, _ | _⟩ := b <;> simp [Below] at below ⊢ <;> omega

/-- A multiple that a lower bound admits is not below the inclusive one, unless the bound is
exclusive and no multiple. -/
theorem low_le_of_below (dvd : d ∣ x) (below : b.Below x)
    (on_grid : b.exclusive = true → d ∣ b.number) : b.low d ≤ x := by
  unfold Below at below
  unfold low
  split
  · next exclusive =>
      rw [if_pos exclusive] at below
      exact add_le_of_dvd_of_lt (on_grid exclusive) dvd below
  · next inclusive =>
      rw [if_neg inclusive] at below
      exact below

/-- Making a lower bound inclusive moves it by less than a step beyond what it admits. -/
theorem low_lt_add (d_pos : 0 < d) (below : b.Below x) : b.low d < x + d := by
  obtain ⟨number, _ | _⟩ := b <;> simp [low, Below] at below ⊢ <;> omega

theorem above_of_le_high (d_pos : 0 < d) (le : x ≤ b.high d) : b.Above x := by
  obtain ⟨number, _ | _⟩ := b <;> simp [high, Above] at le ⊢ <;> omega

/-- As `low_le_of_below`, for upper bounds. -/
theorem le_high_of_above (dvd : d ∣ x) (above : b.Above x)
    (on_grid : b.exclusive = true → d ∣ b.number) : x ≤ b.high d := by
  unfold Above at above
  unfold high
  split
  · next exclusive =>
      rw [if_pos exclusive] at above
      exact Int.le_sub_right_of_add_le (add_le_of_dvd_of_lt dvd (on_grid exclusive) above)
  · next inclusive =>
      rw [if_neg inclusive] at above
      exact above

theorem Above.mono (above : b.Above y) (le : x ≤ y) : b.Above x := by
  obtain ⟨number, _ | _⟩ := b <;> simp [Above] at above ⊢ <;> omega

end Bound

/-- The integer is a multiple that the bounds admit. -/
structure Admitted (lower upper : Option Bound) (d x : Int) : Prop where
  multiple : d ∣ x
  below : ∀ l ∈ lower, l.Below x
  above : ∀ u ∈ upper, u.Above x

/-- The search reaches what is admitted: an admitted multiple is not above the upper bound made
inclusive, or the lower bound is exclusive and no multiple. -/
def Reachable (lower upper : Option Bound) (d : Int) : Prop :=
  (∃ x, Admitted lower upper d x ∧ ∀ u ∈ upper, x ≤ u.high d)
    ∨ ∃ l ∈ lower, l.exclusive = true ∧ ¬ d ∣ l.number

/-- A number to start from lies between the bounds made inclusive, or at the lower one where
these are crossed. -/
structure Starts (lower upper : Option Bound) (d n : Int) : Prop where
  low_le : ∀ l ∈ lower, l.low d ≤ n
  le_high : ∀ u ∈ upper, n ≤ u.high d ∨ ∃ l ∈ lower, n = l.low d

section Search

variable {lower upper : Option Bound}

theorem settled_eq_of_le {high : Option Int} (le : ∀ h ∈ high, upTo d n ≤ h) :
    settled d high n = upTo d n :=
  if_neg fun ⟨h, mem, less⟩ => absurd (le h mem) (not_le.2 less)

/-- The next multiple is admitted where it is not above the upper bound. -/
theorem Starts.admitted_upTo (starts : Starts lower upper d n) (d_pos : 0 < d)
    (le : ∀ u ∈ upper, upTo d n ≤ u.high d) : Admitted lower upper d (upTo d n) where
  multiple := dvd_upTo d n
  below l mem := Bound.below_of_low_le d_pos ((starts.low_le l mem).trans (le_upTo d_pos n))
  above u mem := Bound.above_of_le_high d_pos (le u mem)

/-- The multiple before is admitted by the lower bound, where a multiple below the upper bound is, or
where the bound is exclusive and no multiple. -/
theorem Starts.below_sub (starts : Starts lower upper d n) (d_pos : 0 < d) {u : Bound}
    (at_upper : u ∈ upper) (exceeds : u.high d < upTo d n) (reachable : Reachable lower upper d)
    (l : Bound) (mem : l ∈ lower) : l.Below (upTo d n - d) := by
  obtain ⟨s, admitted, le⟩ | ⟨l', mem', exclusive, off_grid⟩ := reachable
  · have less : s < upTo d n := (le u at_upper).trans_lt exceeds
    have step := add_le_of_dvd_of_lt admitted.multiple (dvd_upTo d n) less
    exact (admitted.below l mem).mono (by omega)
  · cases Option.mem_unique mem mem'
    have low_le := starts.low_le l mem
    have le := le_upTo d_pos n
    have off : l.number ≠ upTo d n - d := fun same =>
      off_grid (same ▸ Int.dvd_sub (dvd_upTo d n) (Int.dvd_refl d))
    rw [Bound.low, if_pos exclusive] at low_le
    rw [Bound.Below, if_pos exclusive]
    omega

/-- The multiple before is admitted by the upper bound, where any multiple is admitted. -/
theorem Starts.above_sub (starts : Starts lower upper d n) (d_pos : 0 < d) {u : Bound}
    (at_upper : u ∈ upper) (some_admitted : ∃ s, Admitted lower upper d s) :
    u.Above (upTo d n - d) := by
  have less := upTo_lt d_pos n
  obtain le | ⟨l, mem, rfl⟩ := starts.le_high u at_upper
  · exact Bound.above_of_le_high d_pos (by omega)
  · obtain ⟨s, admitted⟩ := some_admitted
    have near := Bound.low_lt_add d_pos (admitted.below l mem)
    refine (admitted.above u at_upper).mono ?_
    by_contra more
    have step := add_le_of_dvd_of_lt admitted.multiple
      (Int.dvd_sub (dvd_upTo d (l.low d)) (Int.dvd_refl d)) (not_le.1 more)
    omega

/-- **Where the search succeeds.**  When some multiple is admitted, the one that is settled on is
admitted if and only if the search reaches what is admitted. -/
theorem settled_admitted_iff (starts : Starts lower upper d n) (d_pos : 0 < d)
    (some_admitted : ∃ s, Admitted lower upper d s) :
    Admitted lower upper d (settled d (upper.map (·.high d)) n) ↔ Reachable lower upper d := by
  by_cases fits : ∀ u ∈ upper, upTo d n ≤ u.high d
  · have admitted := starts.admitted_upTo d_pos fits
    have same : settled d (upper.map (·.high d)) n = upTo d n :=
      settled_eq_of_le (by simpa using fits)
    rw [same]
    exact ⟨fun _ => .inl ⟨_, admitted, fits⟩, fun _ => admitted⟩
  · obtain ⟨u, at_upper, exceeds⟩ : ∃ u ∈ upper, u.high d < upTo d n := by simpa using fits
    have same : settled d (upper.map (·.high d)) n = upTo d n - d :=
      if_pos ⟨_, Option.mem_map_of_mem _ at_upper, exceeds⟩
    rw [same]
    constructor
    · intro admitted
      have less := upTo_lt d_pos n
      by_contra unreachable
      obtain ⟨unreached, on_grid⟩ := not_or.1 unreachable
      -- The multiple lies below the number to start from, so that is no lower than the upper bound.
      obtain le | ⟨l, mem, rfl⟩ := starts.le_high u at_upper
      · refine unreached ⟨_, admitted, fun u' mem => ?_⟩
        cases Option.mem_unique mem at_upper
        omega
      · have low_le := Bound.low_le_of_below admitted.multiple (admitted.below l mem)
          fun exclusive => not_not.1 fun off => on_grid ⟨l, mem, exclusive, off⟩
        omega
    · intro reachable
      refine ⟨Int.dvd_sub (dvd_upTo d n) (Int.dvd_refl d),
        starts.below_sub d_pos at_upper exceeds reachable, fun u' mem => ?_⟩
      cases Option.mem_unique mem at_upper
      exact starts.above_sub d_pos at_upper some_admitted

end Search

/-! ### Keywords -/

/-- The keywords of numbers. -/
def numberKeywords : List String :=
  ["minimum", "maximum", "exclusiveMinimum", "exclusiveMaximum", "multipleOf"]

/-- The integer under a keyword. -/
def intAt? (es : Entries) (key : String) : Option Int :=
  match numberAt? es key with
  | some (.int n) => some n
  | _ => none

/-- The bound under a keyword, which a flag may make exclusive, and the exclusive one under a keyword
of its own. -/
def boundsUnder (es : Entries) (bound exclusiveBound : String) : List Bound :=
  (intAt? es bound).toList.map (⟨·, Entries.isSet es exclusiveBound⟩)
    ++ (intAt? es exclusiveBound).toList.map (⟨·, true⟩)

/-- The lower bounds that a schema states. -/
def lowerBounds (es : Entries) : List Bound := boundsUnder es "minimum" "exclusiveMinimum"

/-- The upper bounds that a schema states. -/
def upperBounds (es : Entries) : List Bound := boundsUnder es "maximum" "exclusiveMaximum"

/-- The step between the values that a schema allows. -/
def unitOf (es : Entries) : Int := (intAt? es "multipleOf").getD 1

/-- The integer satisfies what a schema states of numbers. -/
structure Satisfies (es : Entries) (x : Int) : Prop where
  below : ∀ b ∈ lowerBounds es, b.Below x
  above : ∀ b ∈ upperBounds es, b.Above x
  multiple : ∀ d ∈ intAt? es "multipleOf", d ∣ x

/-- The numbers that a schema states are integers, and its step is positive. -/
structure Whole (es : Entries) : Prop where
  whole : ∀ key ∈ numberKeywords, numberAt? es key = (intAt? es key).map .int
  step_pos : ∀ d ∈ intAt? es "multipleOf", 0 < d

/-- The last of several bounds on a side excludes whatever the other ones exclude. -/
structure LastIsTightest (es : Entries) : Prop where
  lower : ∀ last ∈ (lowerBounds es).getLast?, ∀ b ∈ lowerBounds es,
    ∀ x, last.Below x → b.Below x
  upper : ∀ last ∈ (upperBounds es).getLast?, ∀ b ∈ upperBounds es,
    ∀ x, last.Above x → b.Above x

/-- There is no step, or all the numbers are so small that no quotient of them is rounded to another
integer. -/
def FitsWords (es : Entries) : Prop :=
  intAt? es "multipleOf" = none
    ∨ ∀ key ∈ numberKeywords, ∀ n ∈ intAt? es key, n.natAbs ≤ 2 ^ 51

/-- The search reaches what satisfies the schema. -/
def Attainable (es : Entries) : Prop :=
  Reachable (lowerBounds es).getLast? (upperBounds es).getLast? (unitOf es)

/-- The last upper bound is inclusive or a multiple of the step, which all are without a step. -/
def UpperOnGrid (es : Entries) : Prop :=
  ∀ u ∈ (upperBounds es).getLast?, u.exclusive = true → unitOf es ∣ u.number

/-- A flag is no number. -/
theorem isSet_eq_false {key : String} (number : intAt? es key = some n) :
    Entries.isSet es key = false := by
  unfold intAt? numberAt? at number
  unfold Entries.isSet
  cases found : Entries.get? es key with
  | none => rfl
  | some v =>
      rw [found] at number
      cases v with
      | scalar s =>
          cases s with
          | int m => rfl
          | _ => cases number
      | _ => cases number

theorem exists_intAt?_of_mem {bound exclusiveBound : String} {b : Bound}
    (mem : b ∈ boundsUnder es bound exclusiveBound) :
    ∃ key ∈ [bound, exclusiveBound], b.number ∈ intAt? es key := by
  obtain mem | mem := List.mem_append.1 mem
  all_goals
    obtain ⟨n, number, rfl⟩ := List.mem_map.1 mem
    exact ⟨_, by simp, Option.mem_toList.1 number⟩

/-- Of the bounds on a side the last one is made inclusive. -/
theorem boundOf_eq {move : Numeric → Numeric → Except Failure Numeric} {moved : Int → Int → Int}
    {bound exclusiveBound : String} (exact : ∀ m n, move (.int m) (.int n) = .ok (.int (moved m n)))
    (whole : numberAt? es bound = (intAt? es bound).map .int)
    (exclusive_whole : numberAt? es exclusiveBound = (intAt? es exclusiveBound).map .int) :
    boundOf move (.int d) es bound exclusiveBound
      = .ok ((boundsUnder es bound exclusiveBound).getLast?.map fun b =>
          .int (if b.exclusive then moved b.number d else b.number)) := by
  unfold boundOf boundsUnder
  rw [whole, exclusive_whole]
  cases intAt? es bound with
  | none =>
      cases intAt? es exclusiveBound with
      | none => rfl
      | some e => simp [exact]
  | some b =>
      cases number : intAt? es exclusiveBound with
      | none =>
          cases Entries.isSet es exclusiveBound with
          | true => simp [exact]
          | false => simp
      | some e => simp [isSet_eq_false number, exact]

/-- All of a list satisfy what the last one does, if that implies it for the others. -/
theorem forall_mem_iff_getLast? {bs : List Bound} {p : Bound → Prop}
    (tightest : ∀ last ∈ bs.getLast?, ∀ b ∈ bs, p last → p b) :
    (∀ b ∈ bs, p b) ↔ ∀ b ∈ bs.getLast?, p b := by
  refine ⟨fun all b mem => all b (List.mem_of_getLast? mem), fun last b mem => ?_⟩
  have found := List.getLast?_eq_some_getLast (List.ne_nil_of_mem mem)
  exact tightest _ found b mem (last _ found)

theorem satisfies_iff (last : LastIsTightest es) : Satisfies es x
    ↔ Admitted (lowerBounds es).getLast? (upperBounds es).getLast? (unitOf es) x := by
  have lower := forall_mem_iff_getLast? fun l mem b at_b => last.lower l mem b at_b x
  have upper := forall_mem_iff_getLast? fun u mem b at_b => last.upper u mem b at_b x
  have multiple : (∀ d ∈ intAt? es "multipleOf", d ∣ x) ↔ unitOf es ∣ x := by
    unfold unitOf
    cases intAt? es "multipleOf" with
    | none => simp
    | some d => simp
  exact ⟨fun h => ⟨multiple.1 h.multiple, lower.1 h.below, upper.1 h.above⟩,
    fun h => ⟨lower.2 h.below, upper.2 h.above, multiple.2 h.multiple⟩⟩

/-- The search reaches what satisfies the schema where the upper bound is on the grid. -/
theorem attainable_of_upperOnGrid (on_grid : UpperOnGrid es)
    (some_admitted : ∃ s,
      Admitted (lowerBounds es).getLast? (upperBounds es).getLast? (unitOf es) s) :
    Attainable es := by
  obtain ⟨s, admitted⟩ := some_admitted
  exact .inl ⟨s, admitted, fun u mem =>
    Bound.le_high_of_above admitted.multiple (admitted.above u mem) (on_grid u mem)⟩

/-! ### The search -/

section Numbers

variable {low high : Option Int}

theorem isLess_int (m n : Int) : (Numeric.int m).isLess (.int n) = decide (m < n) := by
  unfold Numeric.isLess Numeric.compare?
  rw [Bool.eq_iff_iff, beq_iff_eq, Option.some.injEq, compare_lt_iff_lt, decide_eq_true_iff]

theorem least_zero (n : Int) : Numeric.least (.int 0) (.int n) = .int (min 0 n) := by
  unfold Numeric.least
  rw [isLess_int]
  split
  · next negative => rw [min_eq_right (of_decide_eq_true negative).le]
  · next nonnegative => rw [min_eq_left (by simpa using nonnegative)]

/-- The least number to start from. -/
def firstStart (low high : Option Int) : Int := low.getD ((high.map (min 0)).getD 0)

/-- The greatest number to start from, unless it is below the least one. -/
def lastStart (low high : Option Int) : Int := high.getD (firstStart low high + 100)

/-- The number is one to start from. -/
structure IsStart (low high : Option Int) (n : Int) : Prop where
  first_le : firstStart low high ≤ n
  le_last : n ≤ max (firstStart low high) (lastStart low high)

theorem canonicalNumber_eq (low high : Option Int) :
    canonicalNumber (low.map .int) (high.map .int) = .int (firstStart low high) := by
  cases low with
  | some l => rfl
  | none =>
      cases high with
      | none => rfl
      | some h =>
          show Numeric.least (.int 0) (.int h) = _
          rw [least_zero]
          rfl

theorem drawingRange_eq (low high : Option Int) :
    drawingRange (low.map .int) (high.map .int)
      = .ok (.int (firstStart low high), .int (lastStart low high)) := by
  cases low with
  | some l => cases high <;> rfl
  | none =>
      cases high with
      | none => rfl
      | some h =>
          show Except.ok (Numeric.least (.int 0) (.int h), _) = _
          rw [least_zero]
          rfl

/-- A number that is drawn between two others is between them. -/
theorem between_mem {first last : Int} (le : first ≤ last) (t : Twister) :
    first ≤ ((Draw.between first last).run t).1 ∧ ((Draw.between first last).run t).1 ≤ last := by
  have less := Draw.below_lt (n := (last - first + 1).toNat) (by omega) t
  show first ≤ first + (((Draw.below (last - first + 1).toNat).run t).1 : Int)
    ∧ first + (((Draw.below (last - first + 1).toNat).run t).1 : Int) ≤ last
  omega

/-- The number to start from, whatever the random source. -/
theorem exists_startingNumber (low high : Option Int) (source : Option Twister) :
    ∃ n rest, ((startingNumber true (low.map .int) (high.map .int)).run source).result
        = .ok (.int n, rest) ∧ IsStart low high n := by
  cases source with
  | none =>
      refine ⟨firstStart low high, none, ?_, le_refl _, le_max_left _ _⟩
      rw [← canonicalNumber_eq]
      rfl
  | some t =>
      have drawn := between_mem (le_max_left (firstStart low high) (lastStart low high)) t
      refine ⟨_, some ((Draw.between (firstStart low high)
        (max (firstStart low high) (lastStart low high))).run t).2, ?_, drawn.1, drawn.2⟩
      have is_seeded : (Sampling.isSeeded.run (some t)).result = .ok (true, some t) := rfl
      unfold startingNumber
      rw [Sampling.result_bind_of_ok is_seeded, if_pos rfl,
        Sampling.result_bind_of_ok (Sampling.result_ofExcept (drawingRange_eq low high) _)]
      dsimp only
      rw [if_pos rfl]
      rfl

theorem stepOf?_eq (whole : Whole es) : stepOf? es = (intAt? es "multipleOf").map .int := by
  unfold stepOf?
  rw [whole.whole "multipleOf" (by decide)]
  cases step : intAt? es "multipleOf" with
  | none => rfl
  | some d =>
      have positive : (Numeric.int d).isPositive = true := by
        rw [Numeric.isPositive, isLess_int]
        exact decide_eq_true (whole.step_pos d step)
      exact Option.filter_some_pos positive

theorem ok_bind {α β : Type} (a : α) (next : α → Except Failure β) :
    (Except.ok a >>= next) = next a := rfl

/-- With a step, a number settles on a multiple. -/
theorem snapped_eq {d n : Int} (d_pos : 0 < d) (d_small : d < 2 ^ 53) (n_small : n.natAbs < 2 ^ 53) :
    snapped (some (.int d)) (high.map .int) (.int n) = .ok (.int (settled d high n)) := by
  obtain ⟨x, quotient, count⟩ := Numeric.ceil_div n_small d_pos d_small
  have product : (Numeric.int ⌈(n / d : ℚ)⌉).mul (.int d) = .ok (.int (upTo d n)) := rfl
  unfold snapped
  dsimp only
  rw [quotient, ok_bind, count, ok_bind, product, ok_bind]
  cases high with
  | none => simp [settled]
  | some h =>
      show (if (Numeric.int h).isLess (.int (upTo d n)) then _ else _) = _
      rw [isLess_int]
      unfold settled
      simp only [decide_eq_true_eq, Option.mem_def, Option.some.injEq, exists_eq_left']
      split
      · rfl
      · rfl

/-- Without a step, a number that is not above the upper bound settles on itself. -/
theorem settled_one (le : ∀ h ∈ high, n ≤ h) : settled 1 high n = n := by
  have same : upTo 1 n = n := by simp [upTo]
  rw [settled_eq_of_le (by rwa [same]), same]

end Numbers

section Sample

variable {lower upper : Option Bound}

/-- The search starts from the numbers between the bounds made inclusive. -/
theorem IsStart.starts (start : IsStart (lower.map (·.low d)) (upper.map (·.high d)) n) :
    Starts lower upper d n := by
  constructor
  · rintro l ⟨⟩
    exact start.first_le
  · rintro u ⟨⟩
    cases lower with
    | some l =>
        obtain le | le := le_max_iff.1 start.le_last
        · exact .inr ⟨l, rfl, le_antisymm le start.first_le⟩
        · exact .inl le
    | none =>
        refine .inl (start.le_last.trans (max_le ?_ (le_refl _)))
        exact min_le_right _ _

/-- Without a step, a start of the search is not above the upper bound, where an integer is
admitted. -/
theorem Starts.le_high_one (starts : Starts lower upper 1 n)
    (some_admitted : ∃ s, Admitted lower upper 1 s) (u : Bound) (mem : u ∈ upper) :
    n ≤ u.high 1 := by
  obtain le | ⟨l, at_lower, rfl⟩ := starts.le_high u mem
  · exact le
  · obtain ⟨s, admitted⟩ := some_admitted
    have low_le := Bound.low_le_of_below admitted.multiple (admitted.below l at_lower)
      fun _ => Int.one_dvd _
    have le_high := Bound.le_high_of_above admitted.multiple (admitted.above u mem)
      fun _ => Int.one_dvd _
    exact low_le.trans le_high

/-- The numbers to start from are little greater than the bounds. -/
theorem IsStart.natAbs_lt {low high : Option Int} (start : IsStart low high n)
    (low_small : ∀ l ∈ low, l.natAbs ≤ 2 ^ 52) (high_small : ∀ h ∈ high, h.natAbs ≤ 2 ^ 52) :
    n.natAbs < 2 ^ 53 := by
  obtain ⟨first_le, le_last⟩ := start
  have first_small : (firstStart low high).natAbs ≤ 2 ^ 52 := by
    cases low with
    | some l => exact low_small l rfl
    | none =>
        cases high with
        | some h =>
            have h_small := high_small h rfl
            show (min 0 h).natAbs ≤ 2 ^ 52
            omega
        | none => exact Nat.zero_le _
  have last_le : lastStart low high ≤ 2 ^ 52 + 100 := by
    cases high with
    | some h =>
        have h_small := high_small h rfl
        show h ≤ 2 ^ 52 + 100
        omega
    | none =>
        show firstStart low none + 100 ≤ 2 ^ 52 + 100
        omega
  omega

/-- Bounds made inclusive have at most twice the magnitude of the numbers of the schema. -/
theorem natAbs_moved_le {bound exclusiveBound : String} {b : Bound} {moved : Int}
    (small : ∀ key ∈ numberKeywords, ∀ n ∈ intAt? es key, n.natAbs ≤ 2 ^ 51)
    (keywords : [bound, exclusiveBound] ⊆ numberKeywords)
    (step : d ∈ intAt? es "multipleOf") (mem : b ∈ (boundsUnder es bound exclusiveBound).getLast?)
    (near : moved = b.number ∨ moved = b.number + d ∨ moved = b.number - d) :
    moved.natAbs ≤ 2 ^ 52 := by
  obtain ⟨key, at_key, number⟩ := exists_intAt?_of_mem (List.mem_of_getLast? mem)
  have number_small := small key (keywords at_key) _ number
  have step_small := small "multipleOf" (by decide) d step
  omega

theorem lowerBound_eq (whole : Whole es) (d : Int) :
    boundOf Numeric.add (.int d) es "minimum" "exclusiveMinimum"
      = .ok (((lowerBounds es).getLast?.map (·.low d)).map .int) := by
  rw [Option.map_map]
  exact boundOf_eq (fun _ _ => rfl) (whole.whole _ (by decide))
    (whole.whole _ (by decide))

theorem upperBound_eq (whole : Whole es) (d : Int) :
    boundOf Numeric.sub (.int d) es "maximum" "exclusiveMaximum"
      = .ok (((upperBounds es).getLast?.map (·.high d)).map .int) := by
  rw [Option.map_map]
  exact boundOf_eq (fun _ _ => rfl) (whole.whole _ (by decide))
    (whole.whole _ (by decide))

theorem unit_eq (whole : Whole es) : (stepOf? es).getD (.int 1) = .int (unitOf es) := by
  rw [stepOf?_eq whole, unitOf]
  cases intAt? es "multipleOf" <;> rfl

theorem unitOf_pos (whole : Whole es) : 0 < unitOf es := by
  unfold unitOf
  cases step : intAt? es "multipleOf" with
  | none => exact one_pos
  | some d => exact whole.step_pos d step

/-- With a step, all that takes part in the search fits a mantissa. -/
theorem natAbs_lt_of_fitsWords (fits : FitsWords es) (step : d ∈ intAt? es "multipleOf")
    (start : IsStart ((lowerBounds es).getLast?.map (·.low d))
      ((upperBounds es).getLast?.map (·.high d)) n) : d < 2 ^ 53 ∧ n.natAbs < 2 ^ 53 := by
  obtain none | small := fits
  · cases none.symm.trans step
  · constructor
    · have := small "multipleOf" (by decide) d step
      omega
    · refine start.natAbs_lt (fun l mem => ?_) (fun h mem => ?_)
      · obtain ⟨b, at_b, rfl⟩ := Option.mem_map.1 mem
        refine natAbs_moved_le small (by decide) step at_b ?_
        unfold Bound.low
        split <;> simp
      · obtain ⟨b, at_b, rfl⟩ := Option.mem_map.1 mem
        refine natAbs_moved_le small (by decide) step at_b ?_
        unfold Bound.high
        split <;> simp

/-- **The sample of an integer.**  When some integer satisfies the last bounds and the step, the
sample does if and only if the search reaches one. -/
theorem exists_sampleNumber (whole : Whole es) (fits : FitsWords es)
    (some_admitted : ∃ s,
      Admitted (lowerBounds es).getLast? (upperBounds es).getLast? (unitOf es) s)
    (source : Option Twister) :
    ∃ x rest, ((sampleNumber es true).run source).result = .ok (.int x, rest)
      ∧ (Admitted (lowerBounds es).getLast? (upperBounds es).getLast? (unitOf es) x
        ↔ Attainable es) := by
  obtain ⟨n, rest, started, is_start⟩ := exists_startingNumber
    ((lowerBounds es).getLast?.map (·.low (unitOf es)))
    ((upperBounds es).getLast?.map (·.high (unitOf es))) source
  have starts := is_start.starts
  have settles : snapped (stepOf? es)
      (((upperBounds es).getLast?.map (·.high (unitOf es))).map .int) (.int n)
      = .ok (.int (settled (unitOf es)
          ((upperBounds es).getLast?.map (·.high (unitOf es))) n)) := by
    rw [stepOf?_eq whole]
    unfold unitOf at *
    cases step : intAt? es "multipleOf" with
    | none =>
        rw [step] at starts some_admitted
        have le := starts.le_high_one some_admitted
        have same : settled 1 ((upperBounds es).getLast?.map (·.high 1)) n = n :=
          settled_one (by simpa using le)
        exact congrArg (fun m => Except.ok (Numeric.int m)) same.symm
    | some d =>
        rw [step] at is_start
        obtain ⟨d_small, n_small⟩ := natAbs_lt_of_fitsWords fits step is_start
        exact snapped_eq (whole.step_pos d step) d_small n_small
  refine ⟨_, rest, ?_, settled_admitted_iff starts (unitOf_pos whole) some_admitted⟩
  unfold sampleNumber
  dsimp only
  rw [unit_eq whole, Sampling.result_bind_of_ok (Sampling.result_ofExcept (lowerBound_eq whole _) _),
    Sampling.result_bind_of_ok (Sampling.result_ofExcept (upperBound_eq whole _) _),
    Sampling.result_bind_of_ok started,
    Sampling.result_bind_of_ok (Sampling.result_ofExcept settles _)]
  rfl

/-- The sample of a primitive schema that gives no example. -/
theorem result_of_primitive {refs : List String} {depth limit : Nat}
    (shallow : (depth : Int) < c.options.maxDepth)
    (entries : c.anchors.entries? schema = some es)
    (primitive : (Node.ofSchema c.anchors schema).result = .ok (.primitive f))
    (no_example : (if c.options.useExamples then exampleOf? c.anchors es else none) = none)
    (source : Option Twister) :
    ((sampleWithin c (limit + 1) refs depth schema).run source).result
      = ((samplePrimitive es f).run source).result := by
  have none_active : ∀ n ∈ ([] : List Nat), schema ≠ .aliasTo n :=
    fun n mem => absurd mem List.not_mem_nil
  obtain ⟨inner, same, -⟩ := exists_classify_eq entries none_active
  have from_entries := primitive
  rw [Node.ofSchema, same] at from_entries
  obtain ⟨plain, no_values, unjoined⟩ :=
    unjoined_of_primitive (formOf_of_primitive from_entries)
  have bare : Bare c es := ⟨plain, no_example, by rw [no_values]; rfl⟩
  rw [sampleWithin_of_unjoined entries shallow bare unjoined]
  rw [sampleShape, Sampling.result_bind_of_ok (Sampling.result_lift primitive _)]
  rfl

/-- The sample of a primitive schema is what is drawn for its keywords. -/
theorem result_sample_of_primitive {v : Value}
    (shallow : 0 < c.options.maxDepth) (entries : c.anchors.entries? schema = some es)
    (primitive : (Node.ofSchema c.anchors schema).result = .ok (.primitive f))
    (no_example : (if c.options.useExamples then exampleOf? c.anchors es else none) = none)
    (drawn : ∃ rest, ((samplePrimitive es f).run (c.options.seed.map Twister.ofSeed)).result
      = .ok (v, rest)) : (sample c schema).result = .ok v := by
  obtain ⟨rest, drawn⟩ := drawn
  rw [result_sample, descentLimit, result_of_primitive (by simpa using shallow) entries primitive
    no_example, drawn]
  rfl

/-- **Samples of integers.**  Let the numbers of a primitive schema of integers be integers, the
step positive, the last bound on each side the tightest one and, with a step, all of them fit words.
When some integer satisfies them, the sample is an integer, without a seed and for each seed; and it
satisfies them if and only if the search reaches one that does.  So it does where the upper bound is
inclusive or a multiple of the step. -/
theorem sample_satisfies_iff (shallow : 0 < c.options.maxDepth)
    (entries : c.anchors.entries? schema = some es)
    (primitive : (Node.ofSchema c.anchors schema).result = .ok (.primitive f))
    (integer : f.type = some "integer")
    (no_example : (if c.options.useExamples then exampleOf? c.anchors es else none) = none)
    (whole : Whole es) (last : LastIsTightest es) (fits : FitsWords es)
    (some_satisfies : ∃ s, Satisfies es s) :
    ∃ x, (sample c schema).result = .ok (.int x) ∧ (Satisfies es x ↔ Attainable es)
      ∧ (UpperOnGrid es → Satisfies es x) := by
  simp only [satisfies_iff last] at some_satisfies ⊢
  obtain ⟨x, rest, found, reaches⟩ :=
    exists_sampleNumber whole fits some_satisfies (c.options.seed.map Twister.ofSeed)
  refine ⟨x, result_sample_of_primitive shallow entries primitive no_example ⟨rest, ?_⟩, reaches,
    fun on_grid => reaches.2 (attainable_of_upperOnGrid on_grid some_satisfies)⟩
  rw [samplePrimitive, integer]
  exact found

/-- A number of bottles, in boxes of five. -/
def bottlesSchema : Entries :=
  [(.string "type", .string "integer"), (.string "minimum", .int 0),
   (.string "exclusiveMinimum", .int 2), (.string "exclusiveMaximum", .int 21),
   (.string "multipleOf", .int 5)]

/-- Samples without a dictionary, drawn with a seed. -/
def seeded : Context := ⟨{}, none, { seed := some 7 }⟩

theorem bottles_lastIsTightest : LastIsTightest bottlesSchema := by
  have lower : lowerBounds bottlesSchema = [⟨0, false⟩, ⟨2, true⟩] := by decide
  have upper : upperBounds bottlesSchema = [⟨21, true⟩] := by decide
  constructor
  · rw [lower]
    rintro last ⟨⟩ b mem x below
    obtain rfl | rfl := List.mem_pair.1 mem
    · exact Bound.below_of_low_le one_pos (le_trans (by decide) (Int.le_of_lt below))
    · exact below
  · rw [upper]
    rintro last ⟨⟩ b mem x above
    cases List.mem_singleton.1 mem
    exact above

/-- The premises hold of bottles. -/
theorem sample_satisfies_iff_bottles :
    (Node.ofSchema seeded.anchors (.object bottlesSchema)).result
        = .ok (.primitive (factsOf seeded.anchors bottlesSchema))
      ∧ Whole bottlesSchema ∧ FitsWords bottlesSchema ∧ Satisfies bottlesSchema 5
      ∧ ∃ x, (sample seeded (.object bottlesSchema)).result = .ok (.int x)
        ∧ (Satisfies bottlesSchema x ↔ Attainable bottlesSchema)
        ∧ (UpperOnGrid bottlesSchema → Satisfies bottlesSchema x) := by
  have primitive : (Node.ofSchema seeded.anchors (.object bottlesSchema)).result
      = .ok (.primitive (factsOf seeded.anchors bottlesSchema)) := by cbv
  have whole : Whole bottlesSchema := ⟨by decide, by decide⟩
  have fits : FitsWords bottlesSchema := .inr (by decide)
  have satisfies : Satisfies bottlesSchema 5 := ⟨by decide, by decide, by decide⟩
  exact ⟨primitive, whole, fits, satisfies, sample_satisfies_iff (by decide) rfl primitive (by cbv) rfl
    whole bottles_lastIsTightest fits ⟨5, satisfies⟩⟩

/-- A number of seats, fewer than three, in rows of five. -/
def seatsSchema : Entries :=
  [(.string "type", .string "integer"), (.string "minimum", .int 0),
   (.string "exclusiveMaximum", .int 3), (.string "multipleOf", .int 5)]

/-- Nothing satisfies the schema of seats but zero, which is less than a step below the upper bound:
the search passes it by. -/
theorem sample_seats_not_satisfies :
    (Node.ofSchema {} (.object seatsSchema)).result = .ok (.primitive (factsOf {} seatsSchema))
      ∧ Whole seatsSchema ∧ Satisfies seatsSchema 0
      ∧ (sample ⟨{}, none, {}⟩ (.object seatsSchema)).result = .ok (.int (-5))
      ∧ ¬ Satisfies seatsSchema (-5) := by
  have primitive : (Node.ofSchema {} (.object seatsSchema)).result
      = .ok (.primitive (factsOf {} seatsSchema)) := by cbv
  have sampled : (sample ⟨{}, none, {}⟩ (.object seatsSchema)).result = .ok (.int (-5)) := by
    have integer : (factsOf {} seatsSchema).type = some "integer" := by cbv
    refine result_sample_of_primitive (by decide) rfl primitive rfl ⟨none, ?_⟩
    rw [samplePrimitive, integer]
    rfl
  exact ⟨primitive, ⟨by decide, by decide⟩, ⟨by decide, by decide, by decide⟩, sampled,
    fun satisfies => absurd satisfies.below (by decide)⟩

end Sample

end SchemaCodegen.Mock
