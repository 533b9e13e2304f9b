import SchemaCodegen.Text.Blank
import SchemaCodegen.Text.Search

/-!
# Lines of a given width

A message on a stream with styles is laid out in lines of a given width, counted in cells:
most characters take one, East Asian ones two, and combining ones none.  Words are kept
together where a line has room for them; a word longer than a line is cut.  A tab reaches
to the next multiple of eight.
-/

namespace SchemaCodegen.Wrap

/-- Characters that take two cells. -/
def wideRanges : List (Nat × Nat) :=
  [(0x1100, 0x115f), (0x231a, 0x231b), (0x2329, 0x232a), (0x23e9, 0x23ec), (0x2614, 0x2615),
   (0x2648, 0x2653), (0x26aa, 0x26ab), (0x2705, 0x2705), (0x270a, 0x270b), (0x2728, 0x2728),
   (0x274c, 0x274c), (0x2753, 0x2755), (0x2795, 0x2797), (0x2b1b, 0x2b1c), (0x2b50, 0x2b50),
   (0x2e80, 0x303e), (0x3041, 0x33ff), (0x3400, 0x4dbf), (0x4e00, 0xa4cf), (0xa960, 0xa97c),
   (0xac00, 0xd7a3), (0xf900, 0xfaff), (0xfe10, 0xfe19), (0xfe30, 0xfe6b), (0xff01, 0xff60),
   (0xffe0, 0xffe6), (0x16fe0, 0x18cd5), (0x1b000, 0x1b2fb), (0x1f300, 0x1f64f),
   (0x1f680, 0x1f6fc), (0x1f7e0, 0x1f7eb), (0x1f90c, 0x1faf6), (0x20000, 0x3fffd)]

/-- Characters that take no cell. -/
def narrowRanges : List (Nat × Nat) :=
  [(0x0, 0x1f), (0x7f, 0x9f), (0x300, 0x36f), (0x483, 0x489), (0x591, 0x5bd), (0x610, 0x61a),
   (0x64b, 0x65f), (0x200b, 0x200f), (0x2028, 0x202e), (0x2060, 0x2063), (0x20d0, 0x20f0),
   (0xfe00, 0xfe0f), (0xfe20, 0xfe2f), (0xfeff, 0xfeff), (0xe0100, 0xe01ef)]

/-- A number is in one of the ranges. -/
def inRanges (ranges : List (Nat × Nat)) (n : Nat) : Bool :=
  ranges.any fun r => r.1 ≤ n && n ≤ r.2

/-- The cells that a character takes. -/
def cells (c : Char) : Nat :=
  if 0x20 ≤ c.toNat && c.toNat < 0x7f then 1
  else if inRanges narrowRanges c.toNat then 0
  else if inRanges wideRanges c.toNat then 2
  else 1

/-- The cells that a text takes. -/
def width (cs : List Char) : Nat := (cs.map cells).foldr (· + ·) 0

@[simp] theorem width_nil : width [] = 0 := rfl

theorem width_append (xs ys : List Char) : width (xs ++ ys) = width xs + width ys := by
  induction xs with
  | nil => simp
  | cons c rest ih =>
    simp only [width, List.cons_append, List.map_cons, List.foldr_cons] at ih ⊢
    omega

/-- A text with its tabs as spaces; `column` is where it starts. -/
def withoutTabs : (column : Nat) → List Char → List Char
  | _, [] => []
  | column, c :: rest =>
    if c = '\t' then
      let gap := 8 - column % 8
      List.replicate gap ' ' ++ withoutTabs (column + gap) rest
    else c :: withoutTabs (column + cells c) rest

/-- The words of a text, each with the blanks around it; the budget is the text's length. -/
def wordsOf : (budget : Nat) → List Char → List (List Char)
  | 0, _ => []
  | budget + 1, cs =>
    let lead := cs.takeWhile Text.isBlank
    let body := (cs.drop lead.length).takeWhile (!Text.isBlank ·)
    if body.isEmpty then []
    else
      let rest := cs.drop (lead.length + body.length)
      let trail := rest.takeWhile Text.isBlank
      (lead ++ body ++ trail) :: wordsOf budget (rest.drop trail.length)

/-- A text cut into pieces of a width, behind a piece that is begun. -/
def chop (limit : Nat) : (piece : List Char) → List Char → List (List Char)
  | piece, [] => [piece]
  | piece, c :: rest =>
    if limit < width piece + cells c then piece :: chop limit [c] rest
    else chop limit (piece ++ [c]) rest

/-- Words filled into lines of a width, the last line first. -/
def fill (limit : Nat) : (lines : List (List Char)) → (words : List (List Char)) →
    List (List Char)
  | lines, [] => lines
  | [], word :: rest =>
    if limit < width (Text.dropBlanksRight word) then fill limit (chop limit [] word).reverse rest
    else fill limit [word] rest
  | line :: done, word :: rest =>
    let needed := width (Text.dropBlanksRight word)
    if width line + needed ≤ limit then fill limit ((line ++ word) :: done) rest
    else if limit < needed then
      fill limit ((chop limit [] word).reverse ++ line :: done) rest
    else fill limit (word :: line :: done) rest

/-- A line without blanks at its end that do not fit. -/
def trimEnd (limit : Nat) (line : List Char) : List Char :=
  let blanks := (line.reverse.takeWhile Text.isBlank).length
  line.take (line.length - min blanks (line.length - limit))

/-- The characters at the front that fit. -/
def crop (limit : Nat) : List Char → List Char
  | [] => []
  | c :: rest =>
    if limit < cells c then List.replicate limit ' '
    else c :: crop (limit - cells c) rest

/-- A line that fits. -/
def fitted (limit : Nat) (line : List Char) : List Char :=
  let line := trimEnd limit line
  if limit < width line then crop limit line else line

/-- The lines of one line of a message. -/
def wrapLine (limit : Nat) (line : List Char) : List (List Char) :=
  let line := withoutTabs 0 line
  match (fill limit [] (wordsOf line.length line)).reverse with
  | [] => [fitted limit line]
  | lines => lines.map (fitted limit)

/-- A message in lines of a width, each with its end. -/
def wrapped (limit : Nat) (message : List Char) : String :=
  String.ofList (((Text.partsAt '\n' message).flatMap (wrapLine limit)).flatMap (· ++ ['\n']))

example : wrapped 10 "ab cd efgh ijklmnopqrstuv\n".toList = "ab cd efgh\nijklmnopqr\nstuv\n\n" := by
  decide +kernel

end SchemaCodegen.Wrap
