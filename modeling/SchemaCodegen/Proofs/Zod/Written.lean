import SchemaCodegen.Proofs.Text.Infix
import SchemaCodegen.Proofs.Zod.Uses
import SchemaCodegen.Zod.Module

/-!
# Validators are written with their parts

The text of an object validator has a line for each property (`hasLine_of_mem_fields`), that of a
union or an intersection the texts of its members.  What a validator uses stands in its text:
`Validator.uses` lists identifiers that the declaration of the validator really has
(`Declaration.written`).
-/

namespace SchemaCodegen.Zod

open Text (HasLine infix_append infix_append_left infix_append_right infix_intercalate infix_join)

/-! ### Parts -/

/-- The name of a property, and whether it is optional. -/
def Field.head : Field → String × Bool
  | .mk name isOptional _ => (name, isOptional)

/-- The line of a property. -/
def Field.line (depth : Nat) : Field → String
  | .mk name isOptional v =>
    indentation depth ++ propertyName name ++ ": " ++ v.text depth
      ++ (if isOptional then ".optional()" else "") ++ ","

/-- The properties of an object validator, with what is called on it. -/
def Validator.fields : Validator → List Field
  | .object fields => fields
  | .call inner _ _ => inner.fields
  | .catchall inner _ => inner.fields
  | .nullable inner => inner.fields
  | _ => []

/-- The members of an intersection, with what is called on it. -/
def Validator.members : Validator → List Validator
  | .intersection members => members
  | .call inner _ _ => inner.members
  | .nullable inner => inner.members
  | _ => []

variable {use : Use} {text line : String} {texts : List String} {depth : Nat} {v : Validator}
  {members : List Validator} {field : Field} {fields : List Field}

/-! ### Members -/

theorem infix_withNullable (s : String) : s.toList <:+: (withNullable s).toList := by
  unfold withNullable
  split
  · exact List.infix_rfl
  · exact infix_append_left

/-- A member stands in the union. -/
theorem infix_unionText (mem : text ∈ texts) : text.toList <:+: (unionText texts).toList := by
  unfold unionText
  split
  · cases mem
  · cases List.mem_singleton.1 mem
    exact List.infix_rfl
  · exact (infix_intercalate mem).trans infix_append

/-- What stands in the first member, or is a later one, stands in the intersection. -/
theorem infix_foldl_intersection {first : String}
    (h : text.toList <:+: first.toList ∨ text ∈ texts) :
    text.toList <:+: (texts.foldl
      (fun e m => "z.intersection(" ++ e ++ ", " ++ m ++ ")") first).toList := by
  induction texts generalizing first with
  | nil =>
      obtain inside | none := h
      · exact inside
      · cases none
  | cons next rest ih =>
      rw [List.foldl_cons]
      refine ih ?_
      obtain inside | mem := h
      · left
        have earlier : first.toList <:+: ("z.intersection(" ++ first ++ ", ").toList := infix_append
        exact inside.trans (earlier.trans (infix_append_left.trans infix_append_left))
      · obtain rfl | later := List.mem_cons.1 mem
        · exact .inl infix_append
        · exact .inr later

/-- A member stands in the intersection. -/
theorem infix_intersectionText (mem : text ∈ texts) :
    text.toList <:+: (intersectionText texts).toList := by
  cases texts with
  | nil => cases mem
  | cons first rest =>
      refine infix_foldl_intersection ?_
      obtain rfl | later := List.mem_cons.1 mem
      · exact .inl List.infix_rfl
      · exact .inr later

theorem text_mem_memberTexts (depth : Nat) (mem : v ∈ members) :
    v.text depth ∈ memberTexts depth members := by
  induction members with
  | nil => cases mem
  | cons first rest ih =>
      rw [memberTexts]
      obtain rfl | later := List.mem_cons.1 mem
      · exact List.mem_cons_self
      · exact List.mem_cons_of_mem _ (ih later)

/-- A member stands in the discriminated union, a step deeper. -/
theorem infix_text_discriminated {property : String}
    (mem : text ∈ memberTexts (depth + 1) members) :
    text.toList <:+: ((Validator.discriminated property members).text depth).toList := by
  have at_line : text.toList <:+: (indentation (depth + 1) ++ text ++ ",\n").toList := infix_append
  have joined := infix_join (List.mem_map_of_mem (f := fun text =>
    indentation (depth + 1) ++ text ++ ",\n") mem)
  refine at_line.trans (joined.trans ?_)
  exact infix_append_right.trans (infix_append_left.trans infix_append_left)

/-- What is called on a validator stands behind it. -/
theorem infix_text_call (inner : Validator) (method argument : String) (depth : Nat) :
    (inner.text depth).toList <:+: ((inner.call method argument).text depth).toList := by
  rw [text_call]
  simp only [String.append_assoc]
  exact infix_append_left

theorem infix_text_catchall (inner others : Validator) (depth : Nat) :
    (inner.text depth).toList <:+: ((inner.catchall others).text depth).toList := by
  show _ <:+: (inner.text depth ++ ".catchall(" ++ others.text depth ++ ")").toList
  simp only [String.append_assoc]
  exact infix_append_left

/-! ### Properties -/

theorem Field.line_mem_fieldTexts (depth : Nat) (mem : field ∈ fields) :
    field.line depth ∈ fieldTexts depth fields := by
  induction fields with
  | nil => cases mem
  | cons first rest ih =>
      obtain ⟨name, isOptional, v⟩ := first
      rw [fieldTexts]
      obtain rfl | later := List.mem_cons.1 mem
      · exact List.mem_cons_self
      · exact List.mem_cons_of_mem _ (ih later)

/-- **Properties are written.**  The text of an object validator has the line of each property. -/
theorem hasLine_of_mem_fields (depth : Nat) : (v : Validator) → field ∈ v.fields →
    HasLine (v.text depth) (field.line (depth + 1))
  | .object _, mem => Text.hasLine_intercalate (field.line_mem_fieldTexts (depth + 1) mem)
  | .call inner _ _, mem => (hasLine_of_mem_fields depth inner mem).trans (infix_text_call ..)
  | .catchall inner _, mem =>
      (hasLine_of_mem_fields depth inner mem).trans (infix_text_catchall ..)
  | .nullable inner, mem => (hasLine_of_mem_fields depth inner mem).trans (infix_withNullable _)

/-- The text of an intersection has the lines of its members. -/
theorem hasLine_of_mem_members {member : Validator} (has : HasLine (member.text depth) line) :
    (v : Validator) → member ∈ v.members → HasLine (v.text depth) line
  | .intersection _, mem => has.trans (infix_intersectionText (text_mem_memberTexts depth mem))
  | .call inner _ _, mem => (hasLine_of_mem_members has inner mem).trans (infix_text_call ..)
  | .nullable inner, mem => (hasLine_of_mem_members has inner mem).trans (infix_withNullable _)

/-! ### Uses -/

mutual

/-- **Uses are written.**  The identifier of a schema that a validator uses stands in the text
of the validator. -/
theorem infix_text_of_mem_uses : (v : Validator) → (depth : Nat) → use ∈ v.uses →
    (validatorName use.schema).toList <:+: (v.text depth).toList
  | .unknown, _, mem => nomatch mem
  | .openRecord, _, mem => nomatch mem
  | .base _, _, mem => nomatch mem
  | .strings _, _, mem => nomatch mem
  | .literals _, _, mem => nomatch mem
  | .named schema, depth, mem => by
      rw [List.mem_singleton.1 mem]
      show (validatorName schema).toList <:+: (validatorName schema).toList
      exact List.infix_rfl
  | .tagged schema field literal, depth, mem => by
      rw [List.mem_singleton.1 mem]
      show (validatorName schema).toList <:+: (validatorName schema ++ ".extend(\x7b "
        ++ propertyName field ++ ": " ++ literalCall literal ++ " \x7d)").toList
      simp only [String.append_assoc]
      exact infix_append_left
  | .array item, depth, mem => (infix_text_of_mem_uses item depth mem).trans infix_append
  | .record values, depth, mem => (infix_text_of_mem_uses values depth mem).trans infix_append
  | .object fields, depth, mem => by
      obtain ⟨line, at_line, inside⟩ := exists_line_of_mem_uses fields (depth + 1) mem
      refine inside.trans (infix_intercalate ?_)
      exact List.mem_cons_of_mem _ (List.mem_append_left _ at_line)
  | .union members, depth, mem => by
      obtain ⟨text, at_text, inside⟩ := exists_member_of_mem_uses members depth mem
      exact inside.trans (infix_unionText at_text)
  | .intersection members, depth, mem => by
      obtain ⟨text, at_text, inside⟩ := exists_member_of_mem_uses members depth mem
      exact inside.trans (infix_intersectionText at_text)
  | .discriminated field members, depth, mem => by
      obtain ⟨text, at_text, inside⟩ := exists_member_of_mem_uses members (depth + 1) mem
      exact inside.trans (infix_text_discriminated at_text)
  | .call inner _ _, depth, mem =>
      (infix_text_of_mem_uses inner depth mem).trans (infix_text_call ..)
  | .catchall inner others, depth, mem => by
      obtain in_inner | in_others := List.mem_append.1 mem
      · exact (infix_text_of_mem_uses inner depth in_inner).trans (infix_text_catchall ..)
      · exact (infix_text_of_mem_uses others depth in_others).trans infix_append
  | .nullable inner, depth, mem =>
      (infix_text_of_mem_uses inner depth mem).trans (infix_withNullable _)

theorem exists_member_of_mem_uses : (members : List Validator) → (depth : Nat) →
    use ∈ memberUses members →
    ∃ text ∈ memberTexts depth members, (validatorName use.schema).toList <:+: text.toList
  | [], _, mem => nomatch mem
  | v :: rest, depth, mem => by
      obtain at_first | at_later := List.mem_append.1 mem
      · exact ⟨_, List.mem_cons_self, infix_text_of_mem_uses v depth at_first⟩
      · obtain ⟨text, at_text, inside⟩ := exists_member_of_mem_uses rest depth at_later
        exact ⟨text, List.mem_cons_of_mem _ at_text, inside⟩

theorem exists_line_of_mem_uses : (fields : List Field) → (depth : Nat) →
    use ∈ fieldUses fields →
    ∃ line ∈ fieldTexts depth fields, (validatorName use.schema).toList <:+: line.toList
  | [], _, mem => nomatch mem
  | .mk name isOptional v :: rest, depth, mem => by
      obtain at_first | at_later := List.mem_append.1 mem
      · refine ⟨_, List.mem_cons_self, (infix_text_of_mem_uses v depth at_first).trans ?_⟩
        exact infix_append_right.trans (infix_append_left.trans infix_append_left)
      · obtain ⟨line, at_line, inside⟩ := exists_line_of_mem_uses rest depth at_later
        exact ⟨line, List.mem_cons_of_mem _ at_line, inside⟩

end

/-- A declaration writes its own identifier, behind the words that declare it, and those that its
validator uses. -/
structure Declaration.Written (d : Declaration) : Prop where
  declared : ∃ line ∈ d.lines, ("export const " ++ validatorName d.name).toList <:+: line.toList
  used : ∀ use ∈ d.validator.uses,
    ∃ line ∈ d.lines, (validatorName use.schema).toList <:+: line.toList

theorem Declaration.written (d : Declaration) : d.Written where
  declared := by
    refine ⟨_, List.mem_cons_self, ?_⟩
    split
    · exact infix_append_left.trans (infix_append_left.trans infix_append_left)
    · exact infix_append_left.trans (infix_append_left.trans infix_append_left)
  used use mem := by
    have written := infix_text_of_mem_uses d.validator 0 mem
    refine ⟨_, List.mem_cons_self, written.trans ?_⟩
    split
    · exact infix_append
    · exact infix_append

end SchemaCodegen.Zod
