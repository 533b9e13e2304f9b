import Mathlib
import SchemaCodegen.Proofs.Number.Words

/-!
# Limits of integers

A limit is a rational number, which an exclusive limit keeps out itself.  It bounds the integers above
it (`Limit.Below`) or the ones below it (`Limit.Above`).

Cutting a limit takes its number to the next integer on the side of zero.  Only a limit that is no
integer is moved by that, and a lower one keeps its integers exactly when the integer that it reaches
falls on the right side: a positive one is cut to an integer below it, to be kept out, and a negative
one to an integer above it, to be let in (`below_cut_iff`).  An upper limit is a lower one of the
opposite numbers (`above_iff`).

Two pairs of a lower and an upper condition describe the same integers exactly when they agree side
by side, or when no integer meets either pair (`both_sides_iff`).  So limits on both sides keep their
integers together exactly when each keeps its own, or when they leave none (`cut_limits_iff`).
-/

namespace SchemaCodegen

open Binary64

/-- A limit of numbers.  An exclusive one keeps out the number itself. -/
structure Limit where
  number : ℚ
  exclusive : Bool

namespace Limit

variable {limit : Limit} {x : Int}

/-- The limit is below an integer. -/
def Below (limit : Limit) (x : Int) : Prop :=
  if limit.exclusive then limit.number < x else limit.number ≤ x

/-- The limit is above an integer. -/
def Above (limit : Limit) (x : Int) : Prop :=
  if limit.exclusive then x < limit.number else x ≤ limit.number

/-- The limit is an integer. -/
def IsWhole (limit : Limit) : Prop := ∃ n : Int, limit.number = n

/-- The limit of the opposite number. -/
def opposite (limit : Limit) : Limit := { limit with number := -limit.number }

/-- The limit at the next integer on the side of zero. -/
def cut (limit : Limit) : Limit := { limit with number := towardZero limit.number }

theorem exclusive_cut (limit : Limit) : limit.cut.exclusive = limit.exclusive := rfl

/-! ### Lower limits -/

theorem monotone_below (limit : Limit) : Monotone limit.Below := by
  intro x y le below
  have le_rat : (x : ℚ) ≤ y := Int.cast_le.2 le
  unfold Below at below ⊢
  split at below
  · next exclusive => rw [if_pos exclusive]; exact below.trans_le le_rat
  · next inclusive => rw [if_neg inclusive]; exact below.trans le_rat

/-- A limit between two integers that is cut downward keeps its integers when it is exclusive. -/
theorem below_cut_iff_of_pos (fraction : ¬ limit.IsWhole) (pos : 0 < limit.number) :
    (∀ x, limit.cut.Below x ↔ limit.Below x) ↔ limit.exclusive = true := by
  have cut_eq : limit.cut.number = ⌊limit.number⌋ := by
    rw [cut, towardZero, if_pos pos.le]
  have moved : (⌊limit.number⌋ : ℚ) < limit.number :=
    (Int.floor_le _).lt_of_ne fun same => fraction ⟨_, same.symm⟩
  constructor
  · intro kept
    by_contra inclusive
    -- The floor is let in by the cut limit alone.
    have entered := (kept ⌊limit.number⌋).1 (by
      rw [Below, cut_eq, exclusive_cut, if_neg inclusive])
    rw [Below, if_neg inclusive] at entered
    exact moved.not_ge entered
  · intro exclusive x
    rw [Below, Below, cut_eq, exclusive_cut, if_pos exclusive,
      if_pos exclusive, Int.cast_lt, Int.floor_lt]

/-- A limit between two integers that is cut upward keeps its integers when it is not exclusive. -/
theorem below_cut_iff_of_neg (fraction : ¬ limit.IsWhole) (neg : limit.number < 0) :
    (∀ x, limit.cut.Below x ↔ limit.Below x) ↔ ¬ limit.exclusive = true := by
  have cut_eq : limit.cut.number = ⌈limit.number⌉ := by
    rw [cut, towardZero, if_neg neg.not_ge]
  have moved : limit.number < ⌈limit.number⌉ :=
    (Int.le_ceil _).lt_of_ne fun same => fraction ⟨_, same⟩
  constructor
  · intro kept exclusive
    -- The ceiling is kept out by the cut limit alone.
    have entered := (kept ⌈limit.number⌉).2 (by rw [Below, if_pos exclusive]; exact moved)
    rw [Below, cut_eq, exclusive_cut, if_pos exclusive] at entered
    exact lt_irrefl _ entered
  · intro inclusive x
    rw [Below, Below, cut_eq, exclusive_cut, if_neg inclusive,
      if_neg inclusive, Int.cast_le, Int.ceil_le]

theorem cut_of_isWhole (whole : limit.IsWhole) : limit.cut = limit := by
  obtain ⟨n, number⟩ := whole
  rw [cut, number, towardZero_intCast, ← number]

/-- **A lower limit keeps its integers when it is cut** exactly when it is an integer itself, or
exclusive and positive, or inclusive and negative. -/
theorem below_cut_iff (limit : Limit) : (∀ x, limit.cut.Below x ↔ limit.Below x)
    ↔ limit.IsWhole ∨ (limit.exclusive = true ↔ 0 < limit.number) := by
  by_cases whole : limit.IsWhole
  · simp [cut_of_isWhole whole, whole]
  · obtain neg | zero | pos := lt_trichotomy limit.number 0
    · rw [below_cut_iff_of_neg whole neg]
      simp [whole, neg.not_gt]
    · exact absurd ⟨0, by rw [zero, Int.cast_zero]⟩ whole
    · rw [below_cut_iff_of_pos whole pos]
      simp [whole, pos]

/-! ### Upper limits -/

/-- An upper limit of a number is a lower one of the opposite number. -/
theorem above_iff : limit.Above x ↔ limit.opposite.Below (-x) := by
  unfold Above Below opposite
  dsimp only
  rw [Int.cast_neg, neg_lt_neg_iff, neg_le_neg_iff]

theorem antitone_above (limit : Limit) : Antitone limit.Above := by
  intro x y le above
  rw [above_iff] at above ⊢
  exact limit.opposite.monotone_below (neg_le_neg le) above

theorem cut_opposite (limit : Limit) : limit.opposite.cut = limit.cut.opposite := by
  unfold cut opposite
  dsimp only
  rw [towardZero_neg, Int.cast_neg]

theorem isWhole_opposite : limit.opposite.IsWhole ↔ limit.IsWhole := by
  unfold IsWhole opposite
  constructor
  · rintro ⟨n, number⟩
    exact ⟨-n, by rw [Int.cast_neg, ← number, neg_neg]⟩
  · rintro ⟨n, number⟩
    exact ⟨-n, by rw [Int.cast_neg, ← number]⟩

/-- **An upper limit keeps its integers when it is cut** exactly when it is an integer itself, or
exclusive and negative, or inclusive and positive. -/
theorem above_cut_iff (limit : Limit) : (∀ x, limit.cut.Above x ↔ limit.Above x)
    ↔ limit.IsWhole ∨ (limit.exclusive = true ↔ limit.number < 0) := by
  have mirrored := below_cut_iff limit.opposite
  rw [isWhole_opposite, cut_opposite] at mirrored
  have positive : 0 < limit.opposite.number ↔ limit.number < 0 := neg_pos
  rw [positive] at mirrored
  refine Iff.trans ?_ mirrored
  simp only [above_iff]
  exact (Equiv.neg Int).forall_congr_right
    (q := fun x => limit.cut.opposite.Below x ↔ limit.opposite.Below x)

end Limit

/-! ### Both sides -/

variable {lower lower' upper upper' : Int → Prop} {x y : Int}

/-- Around an integer that meets both pairs, a pair within the other has its lower condition within
the other's. -/
theorem lower_of_within (within : ∀ x, lower x ∧ upper x → lower' x ∧ upper' x)
    (monotone' : Monotone lower') (antitone : Antitone upper) (at_y' : lower' y) (at_y : upper y)
    (at_x : lower x) : lower' x := by
  obtain above | below := le_total y x
  · exact monotone' above at_y'
  · exact (within x ⟨at_x, antitone below at_y⟩).1

/-- Around an integer that meets both pairs, a pair within the other has its upper condition within
the other's. -/
theorem upper_of_within (within : ∀ x, lower x ∧ upper x → lower' x ∧ upper' x)
    (monotone : Monotone lower) (antitone' : Antitone upper') (at_y : lower y) (at_y' : upper' y)
    (at_x : upper x) : upper' x := by
  obtain above | below := le_total y x
  · exact (within x ⟨monotone above at_y, at_x⟩).2
  · exact antitone' below at_y'

/-- **Two pairs of a lower and an upper condition** describe the same integers exactly when they
agree side by side, or when no integer meets either pair. -/
theorem both_sides_iff (monotone : Monotone lower) (monotone' : Monotone lower')
    (antitone : Antitone upper) (antitone' : Antitone upper') :
    (∀ x, lower x ∧ upper x ↔ lower' x ∧ upper' x) ↔
      ((∀ x, lower x ↔ lower' x) ∧ ∀ x, upper x ↔ upper' x)
        ∨ ∀ x, ¬ (lower x ∧ upper x) ∧ ¬ (lower' x ∧ upper' x) := by
  constructor
  · intro same
    have within x := (same x).1
    have within' x := (same x).2
    by_cases common : ∃ y, lower y ∧ upper y
    · obtain ⟨y, low, up⟩ := common
      obtain ⟨low', up'⟩ := within y ⟨low, up⟩
      exact .inl
        ⟨fun x => ⟨lower_of_within within monotone' antitone low' up,
            lower_of_within within' monotone antitone' low up'⟩,
          fun x => ⟨upper_of_within within monotone antitone' low up',
            upper_of_within within' monotone' antitone low' up⟩⟩
    · have outside x : ¬ (lower x ∧ upper x) := fun both => common ⟨x, both⟩
      exact .inr fun x => ⟨outside x, fun both => outside x (within' x both)⟩
  · rintro (⟨same_lower, same_upper⟩ | outside) x
    · rw [same_lower x, same_upper x]
    · exact iff_of_false (outside x).1 (outside x).2

/-! ### Lists of limits -/

variable {lowers uppers : List Limit}

/-- What is said of at most one limit is said of all integers together. -/
theorem forall_mem_iff {limits : List Limit} (single : limits.length ≤ 1)
    {before after : Limit → Int → Prop} :
    (∀ x, (∀ limit ∈ limits, before limit x) ↔ ∀ limit ∈ limits, after limit x)
      ↔ ∀ limit ∈ limits, ∀ x, before limit x ↔ after limit x := by
  match limits, single with
  | [], _ => simp
  | [limit], _ => simp

/-- **At most one limit on each side**, cut toward zero, describes the same integers exactly when each
keeps its own, or when there are none before and after. -/
theorem cut_limits_iff (single_lower : lowers.length ≤ 1) (single_upper : uppers.length ≤ 1) :
    (∀ x, (∀ limit ∈ lowers, limit.cut.Below x) ∧ (∀ limit ∈ uppers, limit.cut.Above x)
        ↔ (∀ limit ∈ lowers, limit.Below x) ∧ ∀ limit ∈ uppers, limit.Above x) ↔
      ((∀ limit ∈ lowers, limit.IsWhole ∨ (limit.exclusive = true ↔ 0 < limit.number))
        ∧ ∀ limit ∈ uppers, limit.IsWhole ∨ (limit.exclusive = true ↔ limit.number < 0))
      ∨ ∀ x, ¬ ((∀ limit ∈ lowers, limit.cut.Below x) ∧ ∀ limit ∈ uppers, limit.cut.Above x)
        ∧ ¬ ((∀ limit ∈ lowers, limit.Below x) ∧ ∀ limit ∈ uppers, limit.Above x) := by
  refine Iff.trans (both_sides_iff
    (.ball (s := {limit | limit ∈ lowers}) fun limit _ => limit.cut.monotone_below)
    (.ball (s := {limit | limit ∈ lowers}) fun limit _ => limit.monotone_below)
    (.ball (s := {limit | limit ∈ uppers}) fun limit _ => limit.cut.antitone_above)
    (.ball (s := {limit | limit ∈ uppers}) fun limit _ => limit.antitone_above)) ?_
  rw [forall_mem_iff single_lower, forall_mem_iff single_upper]
  simp only [Limit.below_cut_iff, Limit.above_cut_iff]

end SchemaCodegen
