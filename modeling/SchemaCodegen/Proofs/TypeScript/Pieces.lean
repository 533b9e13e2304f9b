import SchemaCodegen.Proofs.TypeScript.CommentEnd
import SchemaCodegen.Proofs.TypeScript.Parts

/-!
# Comments among the pieces of a declaration

A declaration is written piece by piece: code, and comments among it.  `Declaration.pieces` takes the
text apart into these, by the same recursion that writes it, so that it is known of each character
whether it was written as code or as part of a comment, and of which one.

The pieces put together are the text (`Declaration.textOf_pieces`).  The comments among them are the
block above the declaration and a remark for each property with a description, in the order in which
the type has them (`Declaration.commentsOf_pieces`).
-/

namespace SchemaCodegen.TypeScript

/-! ### Pieces -/

/-- A piece of a written type: code, or one comment. -/
inductive Piece where
  | code (text : String)
  | comment (text : String)

namespace Piece

/-- The text of a piece. -/
@[simp] def text : Piece → String
  | .code text => text
  | .comment text => text

/-- The comment, if the piece is one. -/
def comment? : Piece → Option String
  | .comment text => some text
  | .code _ => none

end Piece

/-- The text of some pieces. -/
def textOf (pieces : List Piece) : String := String.join (pieces.map Piece.text)

/-- The comments among some pieces. -/
def commentsOf (pieces : List Piece) : List String := pieces.filterMap Piece.comment?

@[simp] theorem textOf_nil : textOf [] = "" := rfl

@[simp] theorem textOf_append (xs ys : List Piece) : textOf (xs ++ ys) = textOf xs ++ textOf ys := by
  rw [textOf, List.map_append, String.join_append]
  rfl

@[simp] theorem textOf_cons (piece : Piece) (pieces : List Piece) :
    textOf (piece :: pieces) = piece.text ++ textOf pieces := by
  rw [textOf, List.map_cons, String.join_cons]
  rfl

/-- Parts with code between each two of them. -/
def joinedBy (separator : String) : List (List Piece) → List Piece
  | [] => []
  | [part] => part
  | part :: next :: rest => part ++ .code separator :: joinedBy separator (next :: rest)

theorem textOf_joinedBy (separator : String) (parts : List (List Piece)) :
    textOf (joinedBy separator parts) = separator.intercalate (parts.map textOf) := by
  fun_induction joinedBy separator parts with
  | case1 => rfl
  | case2 part => rw [List.map_singleton, String.intercalate_singleton]
  | case3 part next rest ih =>
      rw [textOf_append, textOf_cons, ih]
      simp only [List.map_cons, String.intercalate_cons_cons, String.append_assoc]
      rfl

/-- The pieces in parentheses, when their text asks for them. -/
def parenthesized (operators : List Char) (pieces : List Piece) : List Piece :=
  if hasTopLevel operators (.code 0) (textOf pieces).toList then
    .code "(" :: pieces ++ [.code ")"]
  else pieces

/-- The pieces with `null` added, unless their text admits it. -/
def nullAdded (pieces : List Piece) : List Piece :=
  if textOf pieces == "null" || (textOf pieces).endsWith "| null" then pieces
  else pieces ++ [.code " | null"]

/-- Alternatives or members between operators; anything, when there are none. -/
def operated (operator : String) (parts : List (List Piece)) : List Piece :=
  if parts.isEmpty then [.code anyText] else joinedBy operator parts

theorem textOf_code (text : String) : textOf [.code text] = text := by
  rw [textOf_cons]
  exact String.append_empty

theorem textOf_parenthesized (operators : List Char) (pieces : List Piece) :
    textOf (parenthesized operators pieces) = parenthesize operators (textOf pieces) := by
  unfold parenthesized parenthesize
  split
  · rw [textOf_append, textOf_cons, textOf_code]
    rfl
  · rfl

theorem textOf_nullAdded (pieces : List Piece) :
    textOf (nullAdded pieces) = withNull (textOf pieces) := by
  unfold nullAdded withNull
  split
  · rfl
  · rw [textOf_append, textOf_code]

theorem textOf_operated (operator : String) (parts : List (List Piece)) :
    textOf (operated operator parts) = joined operator (parts.map textOf) := by
  cases parts with
  | nil => exact textOf_code _
  | cons part parts => exact textOf_joinedBy operator (part :: parts)

mutual

/-- The pieces of a type at a depth of indentation. -/
def TypeExpr.pieces (depth : Nat) : TypeExpr → List Piece
  | .any => [.code anyText]
  | .openRecord => [.code openRecordText]
  | .builtin text => [.code text]
  | .named schema => [.code (typeName schema)]
  | .array item => parenthesized ['|', '&'] (item.pieces depth) ++ [.code "[]"]
  | .record values => .code "Record<string, " :: values.pieces depth ++ [.code ">"]
  | .structure fields index =>
    joinedBy "\n" ([.code "\x7b"] :: fieldPieces (depth + 1) fields
      ++ (match index with
        | some type =>
          [.code (indentation (depth + 1) ++ "[key: string]: ") :: type.pieces (depth + 1)
            ++ [.code ";"]]
        | none => [])
      ++ [[.code (indentation depth ++ "\x7d")]])
  | .literals texts => [.code (joined " | " texts)]
  | .intersection members => operated " & " (memberPieces ['|'] depth members)
  | .union members => operated " | " (memberPieces [] depth members)
  | .nullable inner => nullAdded (inner.pieces depth)

/-- The pieces of members, in parentheses where one of the operators asks for them. -/
def memberPieces (operators : List Char) (depth : Nat) : List TypeExpr → List (List Piece)
  | [] => []
  | e :: rest => parenthesized operators (e.pieces depth) :: memberPieces operators depth rest

/-- The pieces of the lines of properties. -/
def fieldPieces (depth : Nat) : List Field → List (List Piece)
  | [] => []
  | .mk comment readOnly name isOptional type :: rest =>
    (match comment with
      | some said => [[.code (indentation depth), .comment (remark said)]]
      | none => [])
    ++ (.code (indentation depth ++ (if readOnly then "readonly " else "") ++ propertyName name
          ++ (if isOptional then "?" else "") ++ ": ") :: type.pieces depth ++ [.code ";"])
    :: fieldPieces depth rest

end

mutual

/-- The pieces of a type are its text. -/
theorem textOf_pieces (depth : Nat) : (e : TypeExpr) → textOf (e.pieces depth) = e.text depth
  | .any => textOf_code _
  | .openRecord => textOf_code _
  | .builtin _ => textOf_code _
  | .named _ => textOf_code _
  | .array item => by
      rw [TypeExpr.pieces, textOf_append, textOf_parenthesized, textOf_pieces depth item, textOf_code]
      rfl
  | .record values => by
      rw [TypeExpr.pieces, textOf_append, textOf_cons, textOf_pieces depth values, textOf_code]
      rfl
  | .structure fields none => by
      rw [TypeExpr.pieces, textOf_joinedBy, text_structure]
      simp [indexLines, textOf_fieldPieces]
  | .structure fields (some type) => by
      rw [TypeExpr.pieces, textOf_joinedBy, text_structure]
      simp [indexLines, textOf_fieldPieces, textOf_pieces (depth + 1) type, String.append_assoc]
  | .literals _ => textOf_code _
  | .intersection members => by
      rw [TypeExpr.pieces, textOf_operated, textOf_memberPieces]
      rfl
  | .union members => by
      rw [TypeExpr.pieces, textOf_operated, textOf_memberPieces]
      rfl
  | .nullable inner => by
      rw [TypeExpr.pieces, textOf_nullAdded, textOf_pieces depth inner]
      rfl

theorem textOf_memberPieces (operators : List Char) (depth : Nat) : (members : List TypeExpr) →
    (memberPieces operators depth members).map textOf = memberTexts operators depth members
  | [] => rfl
  | e :: rest => by
      rw [memberPieces, List.map_cons, textOf_parenthesized, textOf_pieces depth e,
        textOf_memberPieces operators depth rest]
      rfl

theorem textOf_fieldPieces (depth : Nat) : (fields : List Field) →
    (fieldPieces depth fields).map textOf = fieldTexts depth fields
  | [] => rfl
  | .mk none readOnly name isOptional type :: rest => by
      rw [fieldPieces, fieldTexts]
      simp [textOf_pieces depth type, textOf_fieldPieces depth rest, String.append_assoc]
  | .mk (some said) readOnly name isOptional type :: rest => by
      rw [fieldPieces, fieldTexts]
      simp [textOf_pieces depth type, textOf_fieldPieces depth rest, String.append_assoc, remark]

end

/-! ### Comments in order -/

mutual

/-- The comments of a type, in the order in which they are written. -/
def TypeExpr.comments : TypeExpr → List String
  | .array item => item.comments
  | .record values => values.comments
  | .structure fields index =>
    fieldComments fields ++ (match index with
      | some type => type.comments
      | none => [])
  | .intersection members => memberComments members
  | .union members => memberComments members
  | .nullable inner => inner.comments
  | _ => []

/-- The comments of members. -/
def memberComments : List TypeExpr → List String
  | [] => []
  | e :: rest => e.comments ++ memberComments rest

/-- The comments on properties and in their types. -/
def fieldComments : List Field → List String
  | [] => []
  | .mk comment _ _ _ type :: rest => comment.toList ++ type.comments ++ fieldComments rest

end

@[simp] theorem commentsOf_nil : commentsOf [] = [] := rfl

@[simp] theorem commentsOf_append (xs ys : List Piece) :
    commentsOf (xs ++ ys) = commentsOf xs ++ commentsOf ys := List.filterMap_append

@[simp] theorem commentsOf_code (text : String) (pieces : List Piece) :
    commentsOf (.code text :: pieces) = commentsOf pieces := rfl

@[simp] theorem commentsOf_comment (text : String) (pieces : List Piece) :
    commentsOf (.comment text :: pieces) = text :: commentsOf pieces := rfl

theorem commentsOf_joinedBy (separator : String) (parts : List (List Piece)) :
    commentsOf (joinedBy separator parts) = parts.flatMap commentsOf := by
  fun_induction joinedBy separator parts with
  | case1 => rfl
  | case2 part => simp
  | case3 part next rest ih =>
      rw [commentsOf_append, commentsOf_code, ih]
      rfl

theorem commentsOf_parenthesized (operators : List Char) (pieces : List Piece) :
    commentsOf (parenthesized operators pieces) = commentsOf pieces := by
  unfold parenthesized
  split
  · simp
  · rfl

theorem commentsOf_nullAdded (pieces : List Piece) :
    commentsOf (nullAdded pieces) = commentsOf pieces := by
  unfold nullAdded
  split
  · rfl
  · simp

theorem commentsOf_operated (operator : String) (parts : List (List Piece)) :
    commentsOf (operated operator parts) = parts.flatMap commentsOf := by
  cases parts with
  | nil => rfl
  | cons part parts => exact commentsOf_joinedBy operator (part :: parts)

mutual

/-- The comments among the pieces of a type are those of the type, in order. -/
theorem commentsOf_pieces (depth : Nat) : (e : TypeExpr) →
    commentsOf (e.pieces depth) = e.comments.map remark
  | .any => rfl
  | .openRecord => rfl
  | .builtin _ => rfl
  | .named _ => rfl
  | .array item => by
      simp [TypeExpr.pieces, TypeExpr.comments, commentsOf_parenthesized, commentsOf_pieces depth item]
  | .record values => by
      simp [TypeExpr.pieces, TypeExpr.comments, commentsOf_pieces depth values]
  | .structure fields none => by
      simp [TypeExpr.pieces, TypeExpr.comments, commentsOf_joinedBy, commentsOf_fieldPieces]
  | .structure fields (some type) => by
      simp [TypeExpr.pieces, TypeExpr.comments, commentsOf_joinedBy, commentsOf_fieldPieces,
        commentsOf_pieces (depth + 1) type]
  | .literals _ => rfl
  | .intersection members => by
      rw [TypeExpr.pieces, TypeExpr.comments, commentsOf_operated, commentsOf_memberPieces]
  | .union members => by
      rw [TypeExpr.pieces, TypeExpr.comments, commentsOf_operated, commentsOf_memberPieces]
  | .nullable inner => by
      rw [TypeExpr.pieces, TypeExpr.comments, commentsOf_nullAdded, commentsOf_pieces depth inner]

theorem commentsOf_memberPieces (operators : List Char) (depth : Nat) : (members : List TypeExpr) →
    (memberPieces operators depth members).flatMap commentsOf = (memberComments members).map remark
  | [] => rfl
  | e :: rest => by
      rw [memberPieces, memberComments, List.flatMap_cons, List.map_append,
        commentsOf_parenthesized, commentsOf_pieces depth e,
        commentsOf_memberPieces operators depth rest]

theorem commentsOf_fieldPieces (depth : Nat) : (fields : List Field) →
    (fieldPieces depth fields).flatMap commentsOf = (fieldComments fields).map remark
  | [] => rfl
  | .mk none readOnly name isOptional type :: rest => by
      simp [fieldPieces, fieldComments, commentsOf_pieces depth type,
        commentsOf_fieldPieces depth rest]
  | .mk (some said) readOnly name isOptional type :: rest => by
      simp [fieldPieces, fieldComments, commentsOf_pieces depth type,
        commentsOf_fieldPieces depth rest]

end

/-! ### Declarations -/

/-- The pieces of the declaration itself. -/
def Declaration.bodyPieces (d : Declaration) : List Piece :=
  match d.type with
  | .structure fields index =>
    .code ("export interface " ++ typeName d.name ++ " ") :: (TypeExpr.structure fields index).pieces 0
  | e => .code ("export type " ++ typeName d.name ++ " = ") :: e.pieces 0 ++ [.code ";"]

/-- The pieces of a declaration with its comment. -/
def Declaration.pieces (d : Declaration) : List Piece :=
  match d.comment with
  | some said => .comment (block said) :: .code "\n" :: d.bodyPieces
  | none => d.bodyPieces

theorem Declaration.textOf_bodyPieces (d : Declaration) : textOf d.bodyPieces = d.body := by
  obtain ⟨name, comment, type⟩ := d
  cases type with
  | «structure» fields index => simp [bodyPieces, body, TypeScript.textOf_pieces]
  | _ => simp [bodyPieces, body, TypeScript.textOf_pieces, String.append_assoc]

/-- The pieces of a declaration are its text. -/
theorem Declaration.textOf_pieces (d : Declaration) : textOf d.pieces = d.text := by
  unfold pieces text
  cases d.comment with
  | none => exact d.textOf_bodyPieces
  | some said =>
      have lines : commentLines said ≠ [] := by simp [commentLines]
      dsimp only
      rw [String.intercalate_append_of_ne_nil lines (List.cons_ne_nil _ _),
        String.intercalate_singleton, String.append_assoc, textOf_cons, textOf_cons,
        d.textOf_bodyPieces, Piece.text, Piece.text, block]

theorem Declaration.commentsOf_bodyPieces (d : Declaration) :
    commentsOf d.bodyPieces = d.type.comments.map remark := by
  obtain ⟨name, comment, type⟩ := d
  cases type with
  | «structure» fields index => simp [bodyPieces, TypeScript.commentsOf_pieces]
  | _ => simp [bodyPieces, TypeScript.commentsOf_pieces]

theorem Declaration.commentsOf_pieces (d : Declaration) :
    commentsOf d.pieces = d.comment.toList.map block ++ d.type.comments.map remark := by
  unfold pieces
  cases d.comment with
  | none => simpa using d.commentsOf_bodyPieces
  | some said => simpa using d.commentsOf_bodyPieces

end SchemaCodegen.TypeScript
