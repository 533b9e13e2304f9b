import Mathlib
import SchemaCodegen.Proofs.Traced
import SchemaCodegen.Proofs.TypeScript.Pieces

/-!
# Descriptions stay in their comments

The comments of a declaration are the block above it, with the description of the schema, and the
remarks in its type, with those of properties.  Each is to end at its own end of a comment and nowhere
before, so that the rest of the declaration is code.  The remarks do so whatever is said; the block
does so exactly when the description of the schema has no end of a comment in it
(`comments_closed_iff`).
-/

namespace SchemaCodegen.TypeScript

variable {c : Context} {key : Scalar} {schema : Value} {node : Node} {d : Declaration}

/-- A description of blanks ends no comment. -/
theorem not_endsComment_of_blank {said : String} (blank : Text.isBlankText said = true) :
    ¬ EndsComment said.toList := by
  intro ends
  have star : '*' ∈ said.toList := ends.subset List.mem_cons_self
  have no_blank : Text.isBlank '*' = false := by decide
  exact Bool.false_ne_true (no_blank.symm.trans (List.all_eq_true.1 blank '*' star))

/-- The comment above a declaration is the description of the schema, if that says anything. -/
theorem comment_of_declared (classified : (Node.ofSchema c.anchors schema).result = .ok node)
    (declared : (declarationOf c key schema).result = .ok d) :
    d.comment = spokenDescription? node := by
  obtain ⟨node', classified', declared⟩ := Traced.result_bind_eq_ok.1 declared
  obtain ⟨name, -, declared⟩ := Traced.result_bind_eq_ok.1 declared
  obtain ⟨e, -, declared⟩ := Traced.result_bind_eq_ok.1 declared
  cases classified.symm.trans classified'
  cases declared
  rfl

theorem forall_spoken_iff (node : Node) :
    (∀ said ∈ spokenDescription? node, ¬ EndsComment said.toList)
      ↔ ∀ said ∈ node.description?, ¬ EndsComment said.toList := by
  unfold spokenDescription?
  constructor
  · intro spoken said mem
    cases blank : Text.isBlankText said with
    | true => exact not_endsComment_of_blank blank
    | false => exact spoken said (Option.mem_filter_iff.2 ⟨mem, by simp [blank]⟩)
  · intro all said mem
    exact all said (Option.mem_filter_iff.1 mem).1

/-- **Descriptions stay in their comments.**  A declaration is written as code and comments; these
are, in order, the block with the description of the schema and the remarks with those of
properties; and each of them ends where it should if and only if the description of the schema has
no end of a comment in it. -/
theorem comments_closed_iff (classified : (Node.ofSchema c.anchors schema).result = .ok node)
    (declared : (declarationOf c key schema).result = .ok d) :
    textOf d.pieces = d.text
      ∧ commentsOf d.pieces = (spokenDescription? node).toList.map block ++ d.type.comments.map remark
      ∧ ((∀ comment ∈ commentsOf d.pieces, IsComment comment)
        ↔ ∀ said ∈ node.description?, ¬ EndsComment said.toList) := by
  have same := comment_of_declared classified declared
  have comments := d.commentsOf_pieces
  rw [same] at comments
  refine ⟨d.textOf_pieces, comments, ?_⟩
  rw [comments, ← forall_spoken_iff]
  simp [or_imp, forall_and, isComment_block, isComment_remark]

/-- A parcel, whose weight is described with an end of a comment. -/
def parcelSchema : Value := .object [
  (.string "type", .string "object"),
  (.string "description", .string "Parcel / box * 2"),
  (.string "properties", .object [(.string "weight", .object [
    (.string "type", .string "number"), (.string "description", .string "grams */ net")])])]

/-- The declaration of a parcel. -/
def parcelDeclaration : Declaration where
  name := "Parcel"
  comment := some "Parcel / box * 2"
  type := .structure [.mk (some "grams */ net") false "weight" true (.builtin "number")] none

/-- Without any options or schemas besides. -/
def plainContext : Context := ⟨{}, none, {}, false⟩

theorem parcel_comments_closed_iff : ∃ node,
    (Node.ofSchema plainContext.anchors parcelSchema).result = .ok node
      ∧ (declarationOf plainContext (.string "Parcel") parcelSchema).result = .ok parcelDeclaration
      ∧ textOf parcelDeclaration.pieces = parcelDeclaration.text
      ∧ commentsOf parcelDeclaration.pieces = (spokenDescription? node).toList.map block
        ++ parcelDeclaration.type.comments.map remark
      ∧ ((∀ comment ∈ commentsOf parcelDeclaration.pieces, IsComment comment)
        ↔ ∀ said ∈ node.description?, ¬ EndsComment said.toList) := by
  have declared :
      (declarationOf plainContext (.string "Parcel") parcelSchema).result = .ok parcelDeclaration := by
    cbv
  obtain ⟨node, classified, -⟩ := Traced.result_bind_eq_ok.1 declared
  exact ⟨node, classified, declared, comments_closed_iff classified declared⟩

/-- The declaration of a text that is described with an end of a comment. -/
def openedDeclaration : Declaration where
  name := "X"
  comment := some "a */ b"
  type := .builtin "string"

/-- An end of a comment in the description of a schema ends the block above its declaration: what
follows it is read as code. -/
theorem description_breaks_out :
    (declarationOf plainContext (.string "X") (.object [(.string "type", .string "string"),
        (.string "description", .string "a */ b")])).result = .ok openedDeclaration
      ∧ openedDeclaration.text = "/**\n * a */ b\n */\nexport type X = string;"
      ∧ ∃ comment ∈ commentsOf openedDeclaration.pieces, ¬ IsComment comment := by
  refine ⟨by cbv, by decide +kernel, block "a */ b", List.mem_cons_self, ?_⟩
  rw [isComment_block]
  decide

end SchemaCodegen.TypeScript
