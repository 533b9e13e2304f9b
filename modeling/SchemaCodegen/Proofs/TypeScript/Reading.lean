import SchemaCodegen.TypeScript.Expression

/-!
# Reading written types

Whether a type stands in parentheses is decided by reading its text again, one character
after the other (`Position.next`).  The reader knows brackets, quotes and backslashes, and
nothing of the expression that was written.

A text is **neutral** when the reader comes out of it where it went in.  Reading does not
depend on the depth it starts from (`read_shift`), so it suffices to look at depth zero, and
neutral texts can be put together and between brackets.

* `Neutral.append`, `Neutral.between`, `Neutral.intercalate` — neutral texts from neutral ones.
* `hasTopLevel_operator` — an operator behind a neutral text is seen.
* `neutral_parenthesize` — parentheses keep a text neutral.
-/

namespace SchemaCodegen.TypeScript

variable {operators : List Char} {p : Position} {xs ys cs : List Char} {s t : String}

/-! ### Positions -/

/-- The position behind some characters. -/
def read (p : Position) (cs : List Char) : Position := cs.foldl (fun p c => p.next c) p

@[simp] theorem read_nil (p : Position) : read p [] = p := rfl

@[simp] theorem read_cons (p : Position) (c : Char) (cs : List Char) :
    read p (c :: cs) = read (p.next c) cs := rfl

theorem read_append (p : Position) (xs ys : List Char) :
    read p (xs ++ ys) = read (read p xs) ys := List.foldl_append

/-- A position some brackets further in. -/
def Position.shift (k : Int) : Position → Position
  | .code depth => .code (depth + k)
  | .literal quote depth => .literal quote (depth + k)
  | .escaped quote depth => .escaped quote (depth + k)

theorem next_shift (k : Int) (c : Char) (p : Position) :
    (p.shift k).next c = (p.next c).shift k := by
  cases p with
  | code depth =>
      unfold Position.shift Position.next
      dsimp only
      split
      · rfl
      · split
        · exact congrArg Position.code (by omega)
        · split
          · exact congrArg Position.code (by omega)
          · rfl
  | literal quote depth =>
      unfold Position.shift Position.next
      dsimp only
      split
      · rfl
      · split
        · rfl
        · rfl
  | escaped quote depth => rfl

/-- Reading does not depend on the depth it starts from. -/
theorem read_shift (k : Int) (p : Position) (cs : List Char) :
    read (p.shift k) cs = (read p cs).shift k := by
  induction cs generalizing p with
  | nil => rfl
  | cons c cs ih => rw [read_cons, next_shift, ih, read_cons]

/-- A part of a text is searched where the parts before it lead. -/
theorem hasTopLevel_append (p : Position) (xs ys : List Char) :
    hasTopLevel operators p (xs ++ ys)
      = (hasTopLevel operators p xs || hasTopLevel operators (read p xs) ys) := by
  induction xs generalizing p with
  | nil => simp [hasTopLevel]
  | cons c xs ih => simp only [List.cons_append, hasTopLevel, ih, read_cons, Bool.or_assoc]

/-- More operators are seen where fewer are. -/
theorem hasTopLevel_mono {more : List Char} (subset : operators ⊆ more)
    (seen : hasTopLevel operators p cs = true) : hasTopLevel more p cs = true := by
  induction cs generalizing p with
  | nil => cases seen
  | cons c cs ih =>
      rw [hasTopLevel, Bool.or_eq_true, Bool.and_eq_true] at seen ⊢
      obtain ⟨here, mem⟩ | later := seen
      · refine .inl ⟨here, ?_⟩
        rw [List.contains_iff_mem] at mem ⊢
        exact subset mem
      · exact .inr (ih later)

/-! ### Neutral texts -/

/-- The reader comes out of the text where it went in. -/
def Neutral (s : String) : Prop := read (.code 0) s.toList = .code 0

instance (s : String) : Decidable (Neutral s) := inferInstanceAs (Decidable (_ = _))

/-- A neutral text is neutral at every depth. -/
theorem Neutral.read (h : Neutral s) (depth : Int) :
    TypeScript.read (.code depth) s.toList = .code depth := by
  have shifted := read_shift depth (.code 0) s.toList
  rw [h] at shifted
  simpa [Position.shift] using shifted

theorem Neutral.append (hs : Neutral s) (ht : Neutral t) : Neutral (s ++ t) := by
  unfold Neutral
  rw [String.toList_append, read_append, hs, ht]

/-- Between texts that open and close the same brackets a neutral text is neutral. -/
theorem Neutral.between {before after : String} {depth : Int} (hs : Neutral s)
    (opens : TypeScript.read (.code 0) before.toList = .code depth)
    (closes : TypeScript.read (.code depth) after.toList = .code 0) :
    Neutral (before ++ s ++ after) := by
  unfold Neutral
  rw [String.toList_append, String.toList_append, read_append, read_append, opens, hs.read,
    closes]

/-- Neutral texts, joined by a neutral text, are neutral. -/
theorem Neutral.intercalate {separator : String} {texts : List String}
    (between : Neutral separator) (each : ∀ text ∈ texts, Neutral text) :
    Neutral (separator.intercalate texts) := by
  induction texts with
  | nil => rw [String.intercalate_nil]; rfl
  | cons text texts ih =>
      obtain ⟨first, rest⟩ := List.forall_mem_cons.1 each
      cases texts with
      | nil => rwa [String.intercalate_singleton]
      | cons next texts =>
          rw [String.intercalate_cons_cons]
          exact (first.append between).append (ih rest)

/-- The characters that mean something to the reader in code. -/
def marks : List Char := "'\"(\x7b[<)\x7d]>".toList

/-- A character that the reader passes over in code. -/
def Inert (c : Char) : Prop := c ∉ marks

instance (c : Char) : Decidable (Inert c) := inferInstanceAs (Decidable (¬ _))

theorem next_of_inert {c : Char} (h : Inert c) (depth : Int) :
    Position.next c (.code depth) = .code depth := by
  unfold Inert marks at h
  simp only [String.reduceToList, List.mem_cons, List.not_mem_nil, or_false, not_or] at h
  simp [Position.next, h]

/-- Characters that the reader passes over are neutral. -/
theorem read_of_inert (inert : ∀ c ∈ cs, Inert c) (depth : Int) :
    read (.code depth) cs = .code depth := by
  induction cs with
  | nil => rfl
  | cons c cs ih =>
      obtain ⟨first, rest⟩ := List.forall_mem_cons.1 inert
      rw [read_cons, next_of_inert first, ih rest]

/-- All characters of the text are inert. -/
def InertText (s : String) : Prop := ∀ c ∈ s.toList, Inert c

instance (s : String) : Decidable (InertText s) := List.decidableBAll _ _

theorem InertText.neutral (inert : InertText s) : Neutral s := read_of_inert inert 0

theorem InertText.append (hs : InertText s) (ht : InertText t) : InertText (s ++ t) := by
  intro c mem
  rw [String.toList_append] at mem
  obtain left | right := List.mem_append.1 mem
  · exact hs c left
  · exact ht c right

theorem inertText_ofList (inert : ∀ c ∈ cs, Inert c) : InertText (String.ofList cs) := by
  intro c mem
  rw [String.toList_ofList] at mem
  exact inert c mem

/-! ### Parentheses -/

/-- An operator behind a neutral text is at the top level. -/
theorem hasTopLevel_operator {operator : Char} (hs : Neutral s) (mem : operator ∈ operators)
    (rest : List Char) : hasTopLevel operators (.code 0) (s.toList ++ ' ' :: operator :: rest)
      = true := by
  rw [hasTopLevel_append, hs]
  simp [hasTopLevel, Position.next, mem]

/-- A text with an operator at the top level stands in parentheses. -/
theorem parenthesize_of_hasTopLevel (seen : hasTopLevel operators (.code 0) s.toList = true) :
    parenthesize operators s = "(" ++ s ++ ")" := if_pos seen

theorem neutral_parenthesize (hs : Neutral s) : Neutral (parenthesize operators s) := by
  unfold parenthesize
  split
  · have opens : read (.code 0) "(".toList = .code 1 := rfl
    exact hs.between opens rfl
  · exact hs

end SchemaCodegen.TypeScript
