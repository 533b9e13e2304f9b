/-!
# Texts inside texts

Whether a text occurs in another one, and the parts of a text between the marks that occur
in it.
-/

namespace SchemaCodegen.Text

/-- The characters occur in a row. -/
def occursIn (part : List Char) : List Char → Bool
  | [] => part.isEmpty
  | c :: rest => part.isPrefixOf (c :: rest) || occursIn part rest

/-- A text contains another. -/
def contains (text part : String) : Bool := occursIn part.toList text.toList

example : contains "new_password" "password" = true ∧ contains "pass" "password" = false := by
  decide +kernel

/-- The parts of a text between marks; a text without a mark is one part. -/
def partsAt (mark : Char) : List Char → List (List Char)
  | [] => [[]]
  | c :: rest =>
    if c = mark then [] :: partsAt mark rest
    else match partsAt mark rest with
      | part :: parts => (c :: part) :: parts
      | [] => [[c]]

/-- There is always a first part. -/
theorem partsAt_ne_nil (mark : Char) (cs : List Char) : partsAt mark cs ≠ [] := by
  induction cs with
  | nil => simp [partsAt]
  | cons c rest ih =>
    unfold partsAt
    split
    · simp
    · split <;> simp_all

/-- A text without a mark in front of another one is its first part. -/
theorem partsAt_append {mark : Char} {cs rest : List Char} (h : mark ∉ cs) :
    partsAt mark (cs ++ mark :: rest) = cs :: partsAt mark rest := by
  induction cs with
  | nil => simp [partsAt]
  | cons c tail ih =>
    have hc : c ≠ mark := fun hc => h (by simp [hc])
    have ht : mark ∉ tail := fun ht => h (by simp [ht])
    simp [partsAt, hc, ih ht]

/-- A text without a mark is its only part. -/
theorem partsAt_of_not_mem {mark : Char} {cs : List Char} (h : mark ∉ cs) :
    partsAt mark cs = [cs] := by
  induction cs with
  | nil => rfl
  | cons c tail ih =>
    have hc : c ≠ mark := fun hc => h (by simp [hc])
    have ht : mark ∉ tail := fun ht => h (by simp [ht])
    simp [partsAt, hc, ih ht]

end SchemaCodegen.Text
