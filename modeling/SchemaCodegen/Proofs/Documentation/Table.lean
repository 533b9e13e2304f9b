import Mathlib
import SchemaCodegen.Documentation.Markdown
import SchemaCodegen.Proofs.Reference.RoundTrip
import SchemaCodegen.Proofs.Traced

/-!
# Reading the property table

The table of a section is read back from its text: at the end of the text there is one line for
each property, and a line is cut into its cells at the bars that do not stand behind a backslash
(`sectionText_table`).

### What is load-bearing

* A cell holds no line feed, since it is made of words, and no open bar, since each of its bars is
  behind a backslash (`Fits`).  Nothing is assumed about the names, types and descriptions that the
  cells are made from.
* A cell may end with a backslash.  There is a blank between it and the bar that ends it
  (`barParts_append`), so the bar is open all the same.
* The name and the description above the table may have any number of lines, so lines are counted
  from the end of the text (`exists_partsAt_intercalate`).
-/

namespace SchemaCodegen

namespace Text

variable {mark : Char} {cs rest : List Char} {lines rows : List (List Char)}

/-! ### Lines at the end of a text -/

/-- The parts of a text around one of its marks. -/
theorem partsAt_append_mark :
    partsAt mark (cs ++ mark :: rest) = partsAt mark cs ++ partsAt mark rest := by
  induction cs with
  | nil => simp [partsAt]
  | cons c cs ih =>
      rw [List.cons_append, partsAt, partsAt]
      split
      · rw [ih, List.cons_append]
      · rw [ih]
        cases parts : partsAt mark cs with
        | nil => exact absurd parts (partsAt_ne_nil mark cs)
        | cons part parts => rfl

/-- Texts without a mark at the end of what is joined are the last parts. -/
theorem exists_partsAt_intercalate (unmarked : ∀ row ∈ rows, mark ∉ row) :
    ∃ above, partsAt mark ([mark].intercalate (lines ++ rows)) = above ++ rows := by
  rcases rows with _ | ⟨row, rows⟩
  · exact ⟨_, (List.append_nil _).symm⟩
  · induction lines with
    | nil => exact ⟨[], partsAt_intercalate (List.cons_ne_nil _ _) unmarked⟩
    | cons line lines ih =>
        obtain ⟨above, same⟩ := ih
        refine ⟨partsAt mark line ++ above, ?_⟩
        rw [List.cons_append, List.intercalate_cons_of_ne_nil (by simp), List.append_assoc,
          List.singleton_append, partsAt_append_mark, same, List.append_assoc]

/-! ### Single lines -/

/-- What stands in joined texts stands in the separator or in one of them. -/
theorem of_mem_intercalate {c : Char} {separator : List Char}
    (mem : c ∈ separator.intercalate lines) : c ∈ separator ∨ ∃ line ∈ lines, c ∈ line := by
  induction lines with
  | nil => cases mem
  | cons line lines ih =>
      rcases lines with _ | ⟨next, lines⟩
      · rw [List.intercalate_singleton] at mem
        exact .inr ⟨line, List.mem_cons_self, mem⟩
      · rw [List.intercalate_cons_cons] at mem
        rcases List.mem_append.1 mem with mem | behind
        · rcases List.mem_append.1 mem with here | between
          · exact .inr ⟨line, List.mem_cons_self, here⟩
          · exact .inl between
        · rcases ih behind with between | ⟨later, at_later, there⟩
          · exact .inl between
          · exact .inr ⟨later, List.mem_cons_of_mem _ at_later, there⟩

/-- A text on one line has no other blanks than spaces. -/
theorem eq_space_of_mem_oneLine {s : String} {c : Char} (mem : c ∈ (oneLine s).toList)
    (blank : isBlank c = true) : c = ' ' := by
  rw [oneLine, String.toList_intercalate] at mem
  rcases of_mem_intercalate mem with space | ⟨_, at_text, at_word⟩
  · exact List.mem_singleton.1 space
  · obtain ⟨_, at_words, rfl⟩ := List.mem_map.1 at_text
    obtain ⟨word, run, rfl⟩ := List.mem_map.1 at_words
    rw [String.toList_ofList] at at_word
    have kept := not_sep_of_mem_splitRuns (fun _ none => absurd none List.not_mem_nil) run c at_word
    rw [blank] at kept
    cases kept

end Text

namespace Markdown

variable {g : Anchors} {before : Char} {cs rest : List Char} {cells : List String}

/-! ### Bars and cells -/

/-- A bar that ends a cell: one that is not right behind a backslash. -/
def isOpenBar (before c : Char) : Bool := c == '|' && before != '\\'

/-- How many open bars there are in what stands behind a character. -/
def openBars : (before : Char) → List Char → Nat
  | _, [] => 0
  | before, c :: rest => (if isOpenBar before c then 1 else 0) + openBars c rest

/-- The parts between the open bars of what stands behind a character. -/
def barParts : (before : Char) → List Char → List (List Char)
  | _, [] => [[]]
  | before, c :: rest =>
    if isOpenBar before c then [] :: barParts c rest
    else match barParts c rest with
      | part :: parts => (c :: part) :: parts
      | [] => [[c]]

/-- The cells of a line: what stands between two open bars, less the blank on either side. -/
def cellsOf (line : List Char) : List String :=
  (barParts ' ' line).tail.dropLast.map fun part => String.ofList part.tail.dropLast

/-- Each open bar opens one part more. -/
theorem length_barParts : (barParts before cs).length = openBars before cs + 1 := by
  induction cs generalizing before with
  | nil => rfl
  | cons c cs ih =>
      rw [barParts, openBars]
      split
      · rw [List.length_cons, ih, Nat.add_comm 1]
      · have same : (barParts c cs).length = openBars c cs + 1 := ih
        rw [Nat.zero_add]
        split
        · next part parts cut =>
            rw [cut] at same
            exact same
        · next cut =>
            rw [cut] at same
            cases same

/-- A text without an open bar is the first part, up to the next bar behind a blank. -/
theorem barParts_append (closed : openBars before cs = 0) :
    barParts before (cs ++ ' ' :: '|' :: rest) = (cs ++ [' ']) :: barParts '|' rest := by
  induction cs generalizing before with
  | nil => simp [barParts, isOpenBar]
  | cons c cs ih =>
      rw [openBars, Nat.add_eq_zero_iff] at closed
      obtain ⟨here, later⟩ := closed
      have shut : ¬ isOpenBar before c = true := by
        intro isOpen
        rw [if_pos isOpen] at here
        cases here
      rw [List.cons_append, barParts, if_neg shut, ih later]
      rfl

/-! ### What cells hold -/

/-- A text that can stand in a cell: it has no open bar and no line feed. -/
structure Fits (text : String) : Prop where
  closed : openBars ' ' text.toList = 0
  one_line : '\n' ∉ text.toList

/-- Escaped bars are not open. -/
theorem openBars_escapeBars : openBars before (escapeBars cs) = 0 := by
  induction cs generalizing before with
  | nil => rfl
  | cons c cs ih =>
      have split_off : escapeBars (c :: cs)
          = (if c == '|' then ['\\', '|'] else [c]) ++ escapeBars cs := List.flatMap_cons
      rw [split_off]
      split
      · rw [List.cons_append, List.singleton_append, openBars, openBars, ih]
        simp [isOpenBar]
      · next other =>
          rw [List.singleton_append, openBars, ih]
          simp [isOpenBar, other]

/-- Any text fits once it is a cell. -/
theorem fits_cell (text : String) : Fits (cell text) where
  closed := by
    rw [cell, String.toList_ofList]
    exact openBars_escapeBars
  one_line := by
    rw [cell, String.toList_ofList]
    intro mem
    obtain ⟨c, at_c, from_c⟩ := List.mem_flatMap.1 mem
    split at from_c
    · simp at from_c
    · rw [List.mem_singleton] at from_c
      subst from_c
      have space := Text.eq_space_of_mem_oneLine at_c (by decide)
      cases space

/-! ### Rows -/

/-- Behind a bar, cells that fit are parts of their own. -/
theorem barParts_cells {cell : String} (fit : ∀ text ∈ cell :: cells, Fits text) :
    barParts '|' (' ' :: (" | ".intercalate (cell :: cells) ++ " |").toList)
      = (cell :: cells).map (fun text => ' ' :: (text.toList ++ [' '])) ++ [[]] := by
  induction cells generalizing cell with
  | nil =>
      have closed : openBars '|' (' ' :: cell.toList) = 0 := by
        rw [openBars, (fit cell List.mem_cons_self).closed]
        rfl
      rw [String.intercalate_singleton, String.toList_append]
      exact barParts_append closed
  | cons next cells ih =>
      obtain ⟨here, later⟩ := List.forall_mem_cons.1 fit
      have closed : openBars '|' (' ' :: cell.toList) = 0 := by
        rw [openBars, here.closed]
        rfl
      have joined : ' ' :: (" | ".intercalate (cell :: next :: cells) ++ " |").toList
          = (' ' :: cell.toList)
            ++ ' ' :: '|' :: ' ' :: (" | ".intercalate (next :: cells) ++ " |").toList := by
        rw [String.intercalate_cons_cons, String.append_assoc, String.append_assoc,
          String.toList_append, String.toList_append]
        rfl
      rw [joined, barParts_append closed, ih later]
      rfl

/-- The parts of a row are its cells, with nothing in front of the first bar and behind the last. -/
theorem barParts_row (some_cell : cells ≠ []) (fit : ∀ text ∈ cells, Fits text) :
    barParts ' ' (row cells).toList
      = [] :: (cells.map (fun text => ' ' :: (text.toList ++ [' '])) ++ [[]]) := by
  obtain ⟨cell, cells, rfl⟩ := List.exists_cons_of_ne_nil some_cell
  rw [← barParts_cells fit, row, String.append_assoc, String.toList_append]
  rfl

/-- A row has an open bar in front of each cell, and one at its end. -/
theorem openBars_row (some_cell : cells ≠ []) (fit : ∀ text ∈ cells, Fits text) :
    openBars ' ' (row cells).toList = cells.length + 1 := by
  have parts : (barParts ' ' (row cells).toList).length = openBars ' ' (row cells).toList + 1 :=
    length_barParts
  rw [barParts_row some_cell fit, List.length_cons, List.length_append, List.length_map] at parts
  exact (Nat.succ.inj parts).symm

/-- What is read from a row are the cells that it was made from. -/
theorem cellsOf_row (some_cell : cells ≠ []) (fit : ∀ text ∈ cells, Fits text) :
    cellsOf (row cells).toList = cells := by
  rw [cellsOf, barParts_row some_cell fit, List.tail_cons, List.dropLast_concat, List.map_map]
  refine (List.map_congr_left fun text _ => ?_).trans (List.map_id cells)
  show String.ofList (text.toList ++ [' ']).dropLast = text
  rw [List.dropLast_concat, String.ofList_toList]

/-- A row is one line. -/
theorem newline_not_mem_row (fit : ∀ text ∈ cells, Fits text) : '\n' ∉ (row cells).toList := by
  intro mem
  rw [row, String.toList_append, String.toList_append, String.toList_intercalate] at mem
  rcases List.mem_append.1 mem with mem | at_end
  · rcases List.mem_append.1 mem with at_front | inside
    · simp at at_front
    · rcases Text.of_mem_intercalate inside with between | ⟨_, at_cell, at_c⟩
      · simp at between
      · obtain ⟨text, mem, rfl⟩ := List.mem_map.1 at_cell
        exact (fit text mem).one_line at_c
  · simp at at_end

/-! ### Sections -/

/-- The description in the row of a property. -/
def descriptionCell (g : Anchors) (schema : Value) : String :=
  cell ((((g.entries? schema).bind (Entries.get? · "description")).map (Value.shown g)).getD "")

/-- `Documents g required p line`: the line is the row of a property.  It has five open bars, and
its cells are the name, the type, whether the property is required, and the description. -/
structure Documents (g : Anchors) (required : List String) (p : Scalar × Value)
    (line : List Char) : Prop where
  five_bars : openBars ' ' line = 5
  cells : ∃ type answer, (typeLabel g p.2).result = .ok type
    ∧ cellsOf line = [cell p.1.shown, cell type, answer, descriptionCell g p.2]
  answers : (cellsOf line)[2]? = some "Yes" ↔ ∃ name ∈ required, p.1 = .string name

theorem exists_row_of_propertyRow {required : List String} {p : Scalar × Value} {line : String}
    (found : (propertyRow g required p).result = .ok line) :
    ∃ type, (typeLabel g p.2).result = .ok type
      ∧ line = row [cell p.1.shown, cell type,
        if required.any (Scalar.string · == p.1) then "Yes" else "No", descriptionCell g p.2] := by
  rw [propertyRow] at found
  obtain ⟨type, typed, same⟩ := Traced.result_bind_eq_ok.1 found
  refine ⟨type, typed, ?_⟩
  unfold descriptionCell
  cases entries : g.entries? p.2 with
  | none =>
      rw [entries] at same
      cases same
      rfl
  | some es =>
      rw [entries] at same
      cases same
      rfl

/-- What is written for a property is one line, and documents it. -/
theorem documents_of_propertyRow {required : List String} {p : Scalar × Value} {line : String}
    (found : (propertyRow g required p).result = .ok line) :
    '\n' ∉ line.toList ∧ Documents g required p line.toList := by
  obtain ⟨type, typed, rfl⟩ := exists_row_of_propertyRow found
  have required_iff : required.any (Scalar.string · == p.1) = true
      ↔ ∃ name ∈ required, p.1 = .string name := by
    rw [List.any_eq_true]
    exact exists_congr fun name => and_congr_right fun _ => beq_iff_eq.trans eq_comm
  generalize answered : (if required.any (Scalar.string · == p.1) = true then "Yes" else "No")
    = answer
  have fit : ∀ text ∈ [cell p.1.shown, cell type, answer, descriptionCell g p.2], Fits text := by
    have plain : Fits answer := by
      subst answered
      split
      · exact ⟨by decide, by decide⟩
      · exact ⟨by decide, by decide⟩
    simp only [List.forall_mem_cons, List.not_mem_nil, false_implies, implies_true, and_true]
    exact ⟨fits_cell _, fits_cell _, plain, fits_cell _⟩
  refine ⟨newline_not_mem_row fit, openBars_row (List.cons_ne_nil _ _) fit,
    ⟨type, answer, typed, cellsOf_row (List.cons_ne_nil _ _) fit⟩, ?_⟩
  rw [cellsOf_row (List.cons_ne_nil _ _) fit, ← required_iff, ← answered]
  split
  · next isRequired => simp [isRequired]
  · next optional => simp [optional]

/-- **The property table can be read back.**  The text of a section for a schema with properties
ends with one line for each of them, in their order.  Each of these lines has five bars that do not
stand behind a backslash; the cells between them are the name of the property, the label of its
type, `Yes` for the required ones, and the description. -/
theorem sectionText_table {name : Scalar} {schema : Value} {d : Option Entries} {text : String}
    (found : (sectionText g name schema d).result = .ok text) :
    ∃ es, (sectionKeywords g schema d).result = .ok es
      ∧ ∀ ps, g.objectAt? es "properties" = some ps → ∃ above rows,
          Text.partsAt '\n' text.toList = above ++ rows
            ∧ List.Forall₂ (Documents g (requiredNames g es)) ps rows := by
  rw [sectionText] at found
  obtain ⟨es, keywords, found⟩ := Traced.result_bind_eq_ok.1 found
  refine ⟨es, keywords, ?_⟩
  intro ps properties
  rw [properties] at found
  obtain ⟨rows, each, found⟩ := Traced.result_bind_eq_ok.1 found
  cases found
  have aligned := (Traced.result_mapM_eq_ok.1 each).imp fun _ _ => documents_of_propertyRow
  have one_line : ∀ line ∈ rows.map String.toList, '\n' ∉ line := by
    intro _ mem
    obtain ⟨line, at_line, rfl⟩ := List.mem_map.1 mem
    obtain ⟨p, -, single, -⟩ := exists_of_mem_left aligned.flip at_line
    exact single
  obtain ⟨above, last⟩ := Text.exists_partsAt_intercalate one_line
  refine ⟨above, rows.map String.toList, ?_, ?_⟩
  · rw [String.toList_intercalate, List.map_append]
    exact last
  · exact List.forall₂_map_right_iff.2 (aligned.imp fun _ _ both => both.2)

/-- Two properties with bars, line feeds and backslashes in their names, types and descriptions. -/
def barredProperties : Entries :=
  [(.string "a|b\n", .object [(.string "type", .string "x\n|")]),
   (.string "c\\", .object [(.string "enum", .list [.string "p|q", .string "\n"]),
     (.string "description", .string "either\\| or")])]

/-- The keywords of a schema with a description of two lines, which needs the second property. -/
def barredKeywords : Entries :=
  [(.string "description", .string "Has\n|bars|"), (.string "properties", .object barredProperties),
   (.string "required", .list [.string "c\\"])]

set_option maxRecDepth 4096 in
/-- Neither the line feeds nor the bars nor the backslash at the end of a name get in the way. -/
theorem sectionText_table_barred :
    ∃ text, (sectionText {} (.string "Bars") (.object barredKeywords) none).result = .ok text
      ∧ text = "## Bars\n\nHas\n|bars|\n\n### Properties\n\n"
        ++ "| Property | Type | Required | Description |\n"
        ++ "|----------|------|----------|-------------|\n"
        ++ "| a\\|b | x \\| | No |  |\n| c\\ | enum(p\\|q, ) | Yes | either\\\\| or |"
      ∧ ∃ above rows, Text.partsAt '\n' text.toList = above ++ rows
        ∧ List.Forall₂ (Documents {} ["c\\"]) barredProperties rows := by
  have computed : (sectionText {} (.string "Bars") (.object barredKeywords) none).result
      = .ok ("## Bars\n\nHas\n|bars|\n\n### Properties\n\n"
        ++ "| Property | Type | Required | Description |\n"
        ++ "|----------|------|----------|-------------|\n"
        ++ "| a\\|b | x \\| | No |  |\n| c\\ | enum(p\\|q, ) | Yes | either\\\\| or |") := by
    cbv
  obtain ⟨es, keywords, table⟩ := sectionText_table computed
  have same : es = barredKeywords := by
    have computed : (sectionKeywords {} (.object barredKeywords) none).result
        = .ok barredKeywords := rfl
    exact Except.ok.inj (keywords.symm.trans computed)
  subst same
  exact ⟨_, computed, rfl, table barredProperties rfl⟩

end Markdown

end SchemaCodegen
