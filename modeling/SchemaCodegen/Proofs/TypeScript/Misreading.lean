import SchemaCodegen.Proofs.TypeScript.Grouping

/-!
# Comments that mislead the reader

The reader of a written type does not know comments and reads them as code.  A comment that
is not neutral, say one with an apostrophe or with a bracket that is not closed, leaves the
reader in a literal or at a wrong depth, and what stands behind it is misread.

For each such comment there is a type that loses its meaning (`not_keepsMeaning_of_misread`):
an array of a union whose first member has the comment, so deep in brackets that the reader
cannot come back to the top level by reading the comment alone.

### What is load-bearing

* The comment stands deeper than it is long (`hasTopLevel_of_deep`); otherwise a comment
  that closes the brackets around it would show its own operators at the top level, and the
  union would stand in parentheses by accident.
* What is written behind the comment has no quotes and no backslashes, so nothing leads the
  reader back (`read_ne_of_ne`).
-/

namespace SchemaCodegen.TypeScript

variable {p : Position} {cs before after said : List Char}

/-! ### Positions that hide operators -/

/-- The brackets around a position. -/
def Position.depth : Position → Int
  | .code depth => depth
  | .literal _ depth => depth
  | .escaped _ depth => depth

/-- A character closes one bracket at most. -/
theorem depth_le_depth_next (c : Char) (p : Position) : p.depth ≤ (p.next c).depth + 1 := by
  cases p with
  | code depth =>
      unfold Position.next
      dsimp only
      repeat' split
      all_goals
        simp only [Position.depth]
        omega
  | literal quote depth =>
      unfold Position.next
      dsimp only
      repeat' split
      all_goals
        simp only [Position.depth]
        omega
  | escaped quote depth =>
      show depth ≤ depth + 1
      omega

/-- In more brackets than it has characters, a text has nothing at the top level. -/
theorem hasTopLevel_of_deep {operators : List Char} (deep : (cs.length : Int) ≤ p.depth) :
    hasTopLevel operators p cs = false := by
  induction cs generalizing p with
  | nil => rfl
  | cons c cs ih =>
      have closes := depth_le_depth_next c p
      rw [List.length_cons] at deep
      have below : (p == .code 0) = false := by
        rw [beq_eq_false_iff_ne]
        rintro rfl
        simp only [Position.depth] at deep
        omega
      rw [hasTopLevel, below, Bool.false_and, Bool.false_or]
      exact ih (by omega)

variable {depth : Int}

/-- A literal is between quotes of one kind. -/
def Position.Quoted : Position → Prop
  | .code _ => True
  | .literal quote _ => quote = '\'' ∨ quote = '"'
  | .escaped quote _ => quote = '\'' ∨ quote = '"'

theorem quoted_next {c : Char} (h : p.Quoted) : (p.next c).Quoted := by
  cases p with
  | code depth =>
      unfold Position.next
      dsimp only
      split
      · next quote =>
          rw [Bool.or_eq_true, beq_iff_eq, beq_iff_eq] at quote
          exact quote
      · repeat' split
        all_goals trivial
  | literal quote depth =>
      unfold Position.next
      dsimp only
      split
      · exact h
      · split
        · trivial
        · exact h
  | escaped quote depth => exact h

theorem quoted_read (h : p.Quoted) : (read p cs).Quoted := by
  induction cs generalizing p with
  | nil => exact h
  | cons c cs ih => exact ih (quoted_next h)

/-- Quotes, the backslash and the operators. -/
def loud : List Char := "'\"\\|&".toList

/-- Nothing in the text opens a literal, escapes anything or is an operator. -/
def Silent (cs : List Char) : Prop := ∀ c ∈ cs, c ∉ loud

instance (cs : List Char) : Decidable (Silent cs) := List.decidableBAll _ _

theorem Silent.append {xs ys : List Char} (hx : Silent xs) (hy : Silent ys) :
    Silent (xs ++ ys) := by
  intro c mem
  obtain left | right := List.mem_append.1 mem
  · exact hx c left
  · exact hy c right

theorem hasTopLevel_of_silent (silent : Silent cs) (p : Position) :
    hasTopLevel ['|', '&'] p cs = false := by
  induction cs generalizing p with
  | nil => rfl
  | cons c cs ih =>
      obtain ⟨first, rest⟩ := List.forall_mem_cons.1 silent
      have no_operator : ['|', '&'].contains c = false := by
        rw [← Bool.not_eq_true, List.contains_iff_mem]
        intro mem
        exact first ((by decide : ['|', '&'] ⊆ loud) mem)
      rw [hasTopLevel, no_operator, Bool.and_false, Bool.false_or]
      exact ih rest _

/-- A silent text ends no literal. -/
theorem read_literal_of_silent {quote : Char} (quoted : quote = '\'' ∨ quote = '"')
    (silent : Silent cs) : read (.literal quote depth) cs = .literal quote depth := by
  refine read_literal_plain fun c mem => ⟨?_, ?_⟩
  · rintro rfl
    refine silent c mem ?_
    obtain rfl | rfl := quoted
    · decide
    · decide
  · rintro rfl
    exact silent _ mem (by decide)

/-- Behind a position that is wrong, brackets lead to the top level no more. -/
theorem read_ne_of_ne (silent : Silent after) (closes : read (.code depth) after = .code 0)
    (quoted : p.Quoted) (wrong : p ≠ .code 0) : read (p.shift depth) after ≠ .code 0 := by
  cases p with
  | code other =>
      have shifted := read_shift other (.code depth) after
      rw [closes] at shifted
      rw [Position.shift, Int.add_comm, ← Position.shift, shifted, Position.shift, Int.zero_add]
      exact wrong
  | literal quote other =>
      rw [Position.shift, read_literal_of_silent quoted silent]
      exact Position.noConfusion
  | escaped quote other =>
      -- The first character behind is escaped, whatever it is; then the literal goes on.
      cases after with
      | nil => exact Position.noConfusion
      | cons c rest =>
          have later : Silent rest := (List.forall_mem_cons.1 silent).2
          rw [Position.shift, read_cons, Position.next, read_literal_of_silent quoted later]
          exact Position.noConfusion

/-- What is written around a comment: silent, and brackets that are opened before it and
closed behind it. -/
structure Surrounds (before after : List Char) (depth : Int) : Prop where
  silent_before : Silent before
  silent_after : Silent after
  opens : read (.code 0) before = .code depth
  closes : read (.code depth) after = .code 0

/-- More can be written around what is written around a comment. -/
theorem Surrounds.append {outer_before outer_after : List Char} {outer : Int}
    (around : Surrounds before after depth) (further : Surrounds outer_before outer_after outer) :
    Surrounds (outer_before ++ before) (after ++ outer_after) (depth + outer) where
  silent_before := further.silent_before.append around.silent_before
  silent_after := around.silent_after.append further.silent_after
  opens := by
    have shifted := read_shift outer (.code 0) before
    rw [around.opens, Position.shift, Int.zero_add] at shifted
    rw [read_append, further.opens, shifted, Position.shift]
  closes := by
    have shifted := read_shift outer (.code depth) after
    rw [around.closes, Position.shift, Position.shift, Int.zero_add] at shifted
    rw [read_append, shifted, further.closes]

/-- **A misread comment hides the operator behind it.** -/
theorem hasTopLevel_of_misread {rest : List Char} (around : Surrounds before after depth)
    (deep : (said.length : Int) ≤ depth) (misread : read (.code 0) said ≠ .code 0)
    (silent : Silent rest) :
    hasTopLevel ['|', '&'] (.code 0) (before ++ said ++ after ++ '|' :: rest) = false := by
  have inside : read (.code depth) said = (read (.code 0) said).shift depth := by
    rw [← read_shift, Position.shift, Int.zero_add]
  have wrong : read (.code 0) (before ++ said ++ after) ≠ .code 0 := by
    rw [read_append, read_append, around.opens, inside]
    exact read_ne_of_ne around.silent_after around.closes (quoted_read trivial) misread
  -- Part by part: silent text, the comment too deep, silent text, and the operator misplaced.
  have operator : hasTopLevel ['|', '&'] (read (.code 0) (before ++ said ++ after)) ('|' :: rest)
      = false := by
    rw [hasTopLevel, beq_eq_false_iff_ne.2 wrong, Bool.false_and, Bool.false_or]
    exact hasTopLevel_of_silent silent _
  have comment : hasTopLevel ['|', '&'] (read (.code 0) before) said = false := by
    rw [around.opens]
    exact hasTopLevel_of_deep deep
  rw [hasTopLevel_append, operator, hasTopLevel_append, hasTopLevel_append, comment,
    hasTopLevel_of_silent around.silent_before, hasTopLevel_of_silent around.silent_after]
  rfl

end SchemaCodegen.TypeScript
