import SchemaCodegen.Failure
import SchemaCodegen.Text.Blank
import SchemaCodegen.Text.Search

/-!
# Style tags in messages

A message for a coloured stream may hold style tags: `[bold]` opens a style, `[/bold]` closes
it and `[/]` closes the innermost one.  A tag starts with a small letter or one of `#`, `/`
and `@`; other brackets are text.  A backslash in front of a tag makes it text, and of two
backslashes one is left.

`visibleText` is what a reader sees on a stream that shows no styles: the message without its
tags.  A closing tag needs an opening one; an opening tag may stay open.
-/

namespace SchemaCodegen.Markup

/-- A part of a message. -/
inductive Part where
  | text (cs : List Char)
  | tag (name : List Char)
deriving DecidableEq, Repr

/-- A character that a tag may start with. -/
def startsTag (c : Char) : Bool := ('a' ≤ c && c ≤ 'z') || c == '#' || c == '/' || c == '@'

/-- The inside of the tag at the front, and the text behind it. -/
def tagAt? : List Char → Option (List Char × List Char)
  | '[' :: c :: rest =>
    let inside := (c :: rest).takeWhile fun d => d != ']' && d != '['
    let behind := (c :: rest).drop inside.length
    if startsTag c && behind.head? == some ']' then some (inside, behind.tail) else none
  | _ => none

/-- The part that a tag behind a number of backslashes is. -/
def escapedParts (slashes : Nat) (inside : List Char) : List Part :=
  let kept := List.replicate (slashes / 2) '\\'
  if slashes % 2 = 1 then [.text kept, .text ('[' :: inside ++ [']'])]
  else [.text kept, .tag (inside.takeWhile (· != '='))]

/-- The parts of a message; the budget is its length. -/
def partsOf : (budget : Nat) → List Char → List Part
  | 0, _ => []
  | _, [] => []
  | budget + 1, c :: rest =>
    let slashes := (c :: rest).takeWhile (· == '\\')
    match tagAt? ((c :: rest).drop slashes.length) with
    | some (inside, behind) => escapedParts slashes.length inside ++ partsOf budget behind
    | none =>
      if c = '\\' && rest.head? == some '[' then partsOf budget rest
      else .text [c] :: partsOf budget rest

/-- Short names of styles. -/
def shortNames : List (String × String) :=
  [("b", "bold"), ("d", "dim"), ("i", "italic"), ("u", "underline"), ("uu", "underline2"),
   ("r", "reverse"), ("c", "conceal"), ("s", "strike"), ("o", "overline")]

/-- The name of a style, in lower case, with full names for short ones. -/
def styleName (name : List Char) : String :=
  let words := Text.words (String.ofList (name.map Char.toLower))
  " ".intercalate (words.map fun w => (shortNames.lookup w).getD w)

/-- The open styles without the innermost one of a name, if it is open. -/
def close? (name : String) : List String → Option (List String)
  | [] => none
  | s :: rest => if s = name then some rest else (close? name rest).map (s :: ·)

/-- The text of the parts, given the styles that are open. -/
def visible : (open_ : List String) → List Part → Except Failure (List Char)
  | _, [] => .ok []
  | open_, .text cs :: rest => (cs ++ ·) <$> visible open_ rest
  | open_, .tag ('/' :: name) :: rest =>
    let closed := if Text.isBlankText (String.ofList name) then
        (match open_ with
          | [] => none
          | _ :: outer => some outer)
      else close? (styleName name) open_
    match closed with
    | some outer => visible outer rest
    | none => .error .unmatchedTag
  | open_, .tag name :: rest => visible (styleName name :: open_) rest

/-- A character that no stream shows. -/
def isUnshown (c : Char) : Bool :=
  c.toNat == 7 || c.toNat == 8 || (11 ≤ c.toNat && c.toNat ≤ 13)

/-- What is seen of a message. -/
def visibleText (message : String) : Except Failure (List Char) := do
  let cs := message.toList
  let seen ← if cs.contains '[' then visible [] (partsOf cs.length cs) else pure cs
  pure (seen.filter fun c => !isUnshown c)

/-- Text without tags is seen as it is. -/
theorem visible_text (open_ : List String) (cs : List Char) :
    visible open_ [.text cs] = .ok cs := by
  simp [visible, Functor.map, Except.map]

end SchemaCodegen.Markup
