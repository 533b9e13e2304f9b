import Mathlib.Data.List.Chain
import SchemaCodegen.Proofs.Identifier.Letters
import SchemaCodegen.Proofs.Identifier.Spelling
import SchemaCodegen.Proofs.Text.Cut

/-!
# Identifiers and labels of names

A name has an identifier, for code, and a label, for people.  Both come from its words, and taking
them again changes nothing: the words of an identifier are the identifier itself, and those of a
label are found again because no step is left inside them (`Stepless`) and a first letter in upper
case makes none.

* `IsTypeIdentifier` — ASCII letters and digits, an upper-case letter first.
* `pascalCase_label_laws` — every name has an identifier, a label has the identifier of its name,
  and both are fixed.
-/

namespace SchemaCodegen

variable {c : Char} {cs w : List Char} {ws : List (List Char)} {opening : Bool}

/-! ### Spellings -/

theorem spell_cons_of_word (opening : Bool) (cs : List Char) (word : isWordChar c = true) :
    spell opening (c :: cs) = (if opening then toUpper c else c) :: spell false cs := by
  rw [spell, if_pos word]

theorem spell_cons_of_separator (opening : Bool) (cs : List Char)
    (separates : isWordChar c = false) : spell opening (c :: cs) = spell true cs := by
  rw [spell, if_neg (by simp [separates])]

/-- Characters of a word are spelled as they are behind its first one. -/
theorem spell_of_words (words : ∀ c ∈ cs, isWordChar c = true) : spell false cs = cs := by
  induction cs with
  | nil => rfl
  | cons c cs ih =>
      obtain ⟨first, rest⟩ := List.forall_mem_cons.1 words
      rw [spell_cons_of_word false cs first, if_neg Bool.false_ne_true, ih rest]

theorem isWordChar_of_mem_spell (mem : c ∈ spell opening cs) : isWordChar c = true := by
  induction cs generalizing opening with
  | nil => cases mem
  | cons d cs ih =>
      rw [spell] at mem
      split at mem
      · next word =>
          obtain rfl | later := List.mem_cons.1 mem
          · split
            · exact isWordChar_toUpper word
            · exact word
          · exact ih later
      · exact ih mem

/-- A spelling has the letters and digits of the characters, up to their case. -/
theorem map_toUpper_spell (opening : Bool) (cs : List Char) :
    (spell opening cs).map toUpper = (cs.filter isWordChar).map toUpper := by
  induction cs generalizing opening with
  | nil => rfl
  | cons c cs ih =>
      cases word : isWordChar c with
      | true =>
          rw [spell_cons_of_word opening cs word, List.filter_cons_of_pos word, List.map_cons,
            List.map_cons, ih]
          cases opening with
          | true => rw [if_pos rfl, toUpper_toUpper]
          | false => rw [if_neg Bool.false_ne_true]
      | false =>
          rw [spell_cons_of_separator opening cs word, List.filter_cons_of_neg (by simp [word]), ih]

/-- A spelling opens with the first letter or digit, in upper case. -/
theorem head?_spell (cs : List Char) :
    (spell true cs).head? = (cs.filter isWordChar).head?.map toUpper := by
  induction cs with
  | nil => rfl
  | cons c cs ih =>
      cases word : isWordChar c with
      | true =>
          rw [spell_cons_of_word true cs word, if_pos rfl, List.filter_cons_of_pos word]
          rfl
      | false =>
          rw [spell_cons_of_separator true cs word, List.filter_cons_of_neg (by simp [word]), ih]

/-! ### Identifiers -/

/-- The characters are an identifier for a type: ASCII letters and digits, an upper-case letter
first. -/
structure IsTypeIdentifier (cs : List Char) : Prop where
  opens : ∃ c ∈ cs.head?, isUpper c = true
  words : ∀ c ∈ cs, isWordChar c = true

/-- A spelling that opens with a letter is an identifier, and any other one is completed to one. -/
theorem isTypeIdentifier_pascalChars (cs : List Char) : IsTypeIdentifier (pascalChars cs) := by
  have words : ∀ c ∈ spell true cs, isWordChar c = true := fun c => isWordChar_of_mem_spell
  have upper : ∀ c ∈ (spell true cs).head?, isLower c = false := by
    intro c mem
    rw [head?_spell] at mem
    obtain ⟨d, -, rfl⟩ := Option.map_eq_some_iff.1 mem
    exact isLower_toUpper d
  rw [pascalChars_eq]
  generalize spell true cs = s at words upper
  unfold completed
  split
  · exact ⟨⟨'A', head?_anonymous, by decide⟩, List.all_eq_true.1 (by decide)⟩
  · next nonempty =>
      obtain ⟨c, rest, rfl⟩ := List.exists_cons_of_ne_nil nonempty
      split
      · exact ⟨⟨'S', head?_schema _, by decide⟩,
          List.forall_mem_append.2 ⟨List.all_eq_true.1 (by decide), words⟩⟩
      · next letter =>
          have word := words c List.mem_cons_self
          rw [opensWithDigit, List.head?_cons, Option.any_some, Bool.not_eq_true] at letter
          rw [isWordChar, upper c rfl, letter, Bool.or_false, Bool.or_false] at word
          exact ⟨⟨c, rfl, word⟩, words⟩

/-- An identifier is its own. -/
theorem IsTypeIdentifier.pascalChars_eq_self (identifier : IsTypeIdentifier cs) :
    pascalChars cs = cs := by
  obtain ⟨⟨c, opens, upper⟩, words⟩ := identifier
  cases cs with
  | nil => cases opens
  | cons d rest =>
      cases opens
      obtain ⟨first, later⟩ := List.forall_mem_cons.1 words
      have spelled : spell true (c :: rest) = c :: rest := by
        rw [spell_cons_of_word true rest first, if_pos rfl, toUpper_of_isUpper upper,
          spell_of_words later]
      rw [pascalChars_eq, spelled]
      exact completed_of_head? rfl (isNumeral_eq_false_of_isUpper upper)

/-! ### Steps inside words -/

/-- A step from a lower-case letter or digit to an upper-case letter. -/
def IsStep (c d : Char) : Prop := (isLower c || isNumeral c) = true ∧ isUpper d = true

/-- No step between neighbouring characters. -/
def Stepless (cs : List Char) : Prop := cs.IsChain fun c d => ¬ IsStep c d

theorem not_isStep_space (c : Char) : ¬ IsStep c ' ' ∧ ¬ IsStep ' ' c := by
  have no_upper : isUpper ' ' = false := by decide
  have no_lower : (isLower ' ' || isNumeral ' ') = false := by decide
  constructor
  · rintro ⟨-, upper⟩
    cases no_upper.symm.trans upper
  · rintro ⟨lower, -⟩
    cases no_lower.symm.trans lower

theorem head?_cutCamel (cs : List Char) : (cutCamel cs).head? = cs.head? := by
  fun_cases cutCamel cs <;> rfl

/-- What is cut at each step has none left. -/
theorem stepless_cutCamel (cs : List Char) : Stepless (cutCamel cs) := by
  fun_induction cutCamel cs with
  | case1 c d rest step ih =>
      exact .cons_cons (not_isStep_space c).1
        (List.isChain_cons.2 ⟨fun e _ => (not_isStep_space e).2, ih⟩)
  | case2 c d rest smooth ih =>
      refine List.isChain_cons.2 ⟨fun e opens => ?_, ih⟩
      rw [head?_cutCamel] at opens
      cases opens
      exact fun step => smooth (Bool.and_eq_true_iff.2 step)
  | case3 cs short =>
      match cs with
      | [] => exact .nil
      | [c] => exact .singleton c
      | c :: d :: rest => exact absurd rfl (short c d rest)

/-- Nothing is cut where there is no step. -/
theorem cutCamel_of_stepless (stepless : Stepless cs) : cutCamel cs = cs := by
  fun_induction cutCamel cs with
  | case1 c d rest step ih =>
      exact absurd (Bool.and_eq_true_iff.1 step) (List.isChain_cons_cons.1 stepless).1
  | case2 c d rest smooth ih => rw [ih (List.isChain_cons_cons.1 stepless).2]
  | case3 cs short => rfl

/-- A cut does not change the spelling: what comes behind it is in upper case already. -/
theorem spell_cutCamel (opening : Bool) (cs : List Char) :
    spell opening (cutCamel cs) = spell opening cs := by
  fun_induction cutCamel cs generalizing opening with
  | case1 c d rest step ih =>
      obtain ⟨lower, upper⟩ := Bool.and_eq_true_iff.1 step
      have left : isWordChar c = true := by
        obtain lower | numeral := Bool.or_eq_true_iff.1 lower
        · rw [isWordChar, lower, Bool.or_true, Bool.true_or]
        · rw [isWordChar, numeral, Bool.or_true]
      have right : isWordChar d = true := by rw [isWordChar, upper, Bool.true_or, Bool.true_or]
      rw [spell_cons_of_word opening _ left, spell_cons_of_word opening _ left,
        spell_cons_of_separator false _ (by decide), ih, spell_cons_of_word true rest right,
        spell_cons_of_word false rest right, if_pos rfl, if_neg Bool.false_ne_true,
        toUpper_of_isUpper upper]
  | case2 c d rest smooth ih => rw [spell, spell, ih, ih]
  | case3 cs short => rfl

/-! ### Words -/

/-- The characters are a word: letters and digits, one at least. -/
structure IsWord (w : List Char) : Prop where
  nonempty : w ≠ []
  words : ∀ c ∈ w, isWordChar c = true

theorem isWord_of_mem_nameWords (mem : w ∈ nameWords cs) : IsWord w where
  nonempty := Text.splitRuns_ne_nil mem
  words c at_c := by
    have passes := Text.not_sep_of_mem_splitRuns (fun _ none => absurd none List.not_mem_nil) mem c at_c
    simpa using passes

/-- Words joined by spaces come apart again. -/
theorem nameWords_intercalate (words : ∀ w ∈ ws, IsWord w) :
    nameWords ([' '].intercalate ws) = ws := by
  have passes {w : List Char} (word : IsWord w) : ∀ c ∈ w, (!isWordChar c) = false :=
    fun c mem => by rw [word.words c mem, Bool.not_true]
  induction ws with
  | nil => rfl
  | cons w ws ih =>
      obtain ⟨word, later⟩ := List.forall_mem_cons.1 words
      cases ws with
      | nil =>
          rw [List.intercalate_singleton]
          exact Text.splitRuns_word (passes word) (by simpa using word.nonempty)
      | cons next ws =>
          have in_front : nameWords (w ++ ' ' :: [' '].intercalate (next :: ws))
              = w :: nameWords ([' '].intercalate (next :: ws)) :=
            Text.splitRuns_word_append (passes word) (by decide) (by simpa using word.nonempty)
          rw [List.intercalate_cons_cons, List.append_assoc]
          exact in_front.trans (congrArg (w :: ·) (ih later))

theorem capitalize_capitalize (w : List Char) : capitalize (capitalize w) = capitalize w := by
  cases w with
  | nil => rfl
  | cons c w => rw [capitalize, capitalize, toUpper_toUpper]

theorem IsWord.capitalize (word : IsWord w) : IsWord (capitalize w) := by
  obtain ⟨nonempty, words⟩ := word
  cases w with
  | nil => exact absurd rfl nonempty
  | cons c w =>
      obtain ⟨first, rest⟩ := List.forall_mem_cons.1 words
      exact ⟨List.cons_ne_nil _ _, List.forall_mem_cons.2 ⟨isWordChar_toUpper first, rest⟩⟩

/-- A first letter in upper case opens no step. -/
theorem Stepless.capitalize (stepless : Stepless w) : Stepless (capitalize w) := by
  cases w with
  | nil => exact .nil
  | cons c w =>
      obtain ⟨first, rest⟩ := List.isChain_cons.1 stepless
      refine List.isChain_cons.2 ⟨fun d opens step => first d opens ?_, rest⟩
      rw [IsStep, isLower_toUpper, isNumeral_toUpper, Bool.false_or] at step
      rw [IsStep, step.1, Bool.or_true]
      exact ⟨rfl, step.2⟩

/-- There is no step at a space. -/
theorem stepless_intercalate (stepless : ∀ w ∈ ws, Stepless w) :
    Stepless ([' '].intercalate ws) := by
  induction ws with
  | nil => exact .nil
  | cons w ws ih =>
      obtain ⟨first, later⟩ := List.forall_mem_cons.1 stepless
      cases ws with
      | nil => rwa [List.intercalate_singleton]
      | cons next ws =>
          rw [List.intercalate_cons_cons, List.append_assoc]
          refine List.isChain_append.2 ⟨first, ?_, fun c _ d opens => ?_⟩
          · exact List.isChain_cons.2 ⟨fun d _ => (not_isStep_space d).2, ih later⟩
          · cases opens
            exact (not_isStep_space c).1

/-! ### Labels -/

/-- The characters of a label. -/
def labelChars (cs : List Char) : List Char :=
  [' '].intercalate ((nameWords (cutCamel cs)).map capitalize)

theorem toList_label (name : String) : (label name).toList = labelChars name.toList := by
  rw [label, String.toList_intercalate, List.map_map, labelChars]
  congr 1
  exact List.map_congr_left fun w _ => String.toList_ofList

/-- The words of a label, as they stand in it. -/
theorem words_of_label (cs : List Char) :
    ∀ w ∈ (nameWords (cutCamel cs)).map capitalize, IsWord w ∧ Stepless w := by
  intro w mem
  obtain ⟨v, at_v, rfl⟩ := List.mem_map.1 mem
  have inside : v <:+: cutCamel cs := Text.infix_of_mem_splitRuns at_v
  have stepless : Stepless v := List.IsChain.infix (stepless_cutCamel cs) inside
  exact ⟨(isWord_of_mem_nameWords at_v).capitalize, stepless.capitalize⟩

theorem nameWords_labelChars (cs : List Char) :
    nameWords (labelChars cs) = (nameWords (cutCamel cs)).map capitalize :=
  nameWords_intercalate fun w mem => (words_of_label cs w mem).1

/-- Nothing is left to cut in a label. -/
theorem cutCamel_labelChars (cs : List Char) : cutCamel (labelChars cs) = labelChars cs :=
  cutCamel_of_stepless (stepless_intercalate fun w mem => (words_of_label cs w mem).2)

theorem labelChars_labelChars (cs : List Char) : labelChars (labelChars cs) = labelChars cs := by
  have capital (ws : List (List Char)) : (ws.map capitalize).map capitalize = ws.map capitalize := by
    rw [List.map_map]
    exact List.map_congr_left fun w _ => capitalize_capitalize w
  rw [labelChars, cutCamel_labelChars, nameWords_labelChars, capital, labelChars]

/-- A label is spelled as the name that it is of. -/
theorem spell_labelChars (cs : List Char) : spell true (labelChars cs) = spell true cs := by
  rw [← flatMap_capitalize_nameWords, nameWords_labelChars, List.flatMap_map]
  calc (nameWords (cutCamel cs)).flatMap (fun w => capitalize (capitalize w))
      = (nameWords (cutCamel cs)).flatMap capitalize := by simp only [capitalize_capitalize]
    _ = spell true (cutCamel cs) := flatMap_capitalize_nameWords _
    _ = spell true cs := spell_cutCamel true cs

/-! ### Names -/

/-- A name with letters or digits keeps them in its identifier, behind `Schema` when a digit comes
first. -/
theorem exists_letters_pascalChars {first : Char} {rest : List Char}
    (letters : cs.filter isWordChar = first :: rest) :
    ∃ t, pascalChars cs = (if isNumeral first then "Schema".toList else []) ++ t
      ∧ t.map toUpper = (first :: rest).map toUpper := by
  refine ⟨spell true cs, ?_, by rw [map_toUpper_spell, letters]⟩
  have opens : (spell true cs).head? = some (toUpper first) := by rw [head?_spell, letters]; rfl
  have nonempty : spell true cs ≠ [] := by
    intro empty
    rw [empty] at opens
    cases opens
  rw [pascalChars_eq, completed, if_neg nonempty, opensWithDigit, opens, Option.any_some,
    isNumeral_toUpper]
  split
  · rfl
  · rfl

/-- **Identifiers and labels.**  Every name has an identifier, which is its own one; the label has
the same identifier and is its own label; and the identifier has the letters and digits of the
name, up to their case. -/
theorem pascalCase_label_laws (name : String) :
    IsTypeIdentifier (pascalCase name).toList
      ∧ pascalCase (pascalCase name) = pascalCase name
      ∧ pascalCase (label name) = pascalCase name
      ∧ label (label name) = label name
      ∧ ∀ first rest, name.toList.filter isWordChar = first :: rest →
          ∃ letters, (pascalCase name).toList
              = (if isNumeral first then "Schema".toList else []) ++ letters
            ∧ letters.map toUpper = (first :: rest).map toUpper := by
  have characters : (pascalCase name).toList = pascalChars name.toList := String.toList_ofList
  have identifier := isTypeIdentifier_pascalChars name.toList
  refine ⟨characters ▸ identifier, ?_, ?_, ?_, fun first rest letters => ?_⟩
  · rw [pascalCase, characters, identifier.pascalChars_eq_self, ← characters, String.ofList_toList]
  · rw [pascalCase, pascalCase, toList_label, pascalChars_eq, spell_labelChars, pascalChars_eq]
  · rw [← String.toList_inj, toList_label, toList_label, labelChars_labelChars]
  · rw [characters]
    exact exists_letters_pascalChars letters

/-- A name that opens with a digit. -/
theorem pascalCase_label_laws_twoFactor :
    "2fa-userName".toList.filter isWordChar = '2' :: "fauserName".toList
      ∧ ∃ letters, (pascalCase "2fa-userName").toList = "Schema".toList ++ letters
        ∧ letters.map toUpper = ('2' :: "fauserName".toList).map toUpper := by
  have letters : "2fa-userName".toList.filter isWordChar = '2' :: "fauserName".toList := by decide
  exact ⟨letters, (pascalCase_label_laws "2fa-userName").2.2.2.2 _ _ letters⟩

end SchemaCodegen
