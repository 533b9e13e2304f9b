import Mathlib.Logic.Relation
import SchemaCodegen.Proofs.Text.Infix
import SchemaCodegen.Proofs.TypeScript.Literals

/-!
# The parts of a type

A type is written with everything in it, the parts of an object type one step deeper.  A
`Placed` type is a type with the depth of indentation at which it stands; `Placed.Within`
leads from a type to the types in it.

Besides its parts a type writes texts that come from outside: literals (`TypeExpr.atoms`) and
comments (`TypeExpr.ownComments`).

* `Placed.induct_children` — induction on what types are made of.
* `Placed.infix_text` — the text of each part stands in the text of the whole.
* `hasLine_of_mem_fields` — the text of an object type has a line for each property.
-/

namespace SchemaCodegen.TypeScript

open Relation (ReflTransGen)

/-! ### Parts -/

/-- A type at a depth of indentation. -/
structure Placed where
  depth : Nat
  type : TypeExpr

/-- The text of the type where it stands. -/
def Placed.text (p : Placed) : String := p.type.text p.depth

/-- The type of a property. -/
def Field.type : Field → TypeExpr
  | .mk _ _ _ _ type => type

/-- The name of a property, and whether it is optional. -/
def Field.head : Field → String × Bool
  | .mk _ _ name isOptional _ => (name, isOptional)

/-- The comment on a property. -/
def Field.comment? : Field → Option String
  | .mk comment _ _ _ _ => comment

/-- The properties of an object type, which may admit `null` besides. -/
def TypeExpr.fields : TypeExpr → List Field
  | .structure fields _ => fields
  | .nullable inner => inner.fields
  | _ => []

/-- The members of an intersection, which may admit `null` besides. -/
def TypeExpr.members : TypeExpr → List TypeExpr
  | .intersection members => members
  | .nullable inner => inner.members
  | _ => []

/-- The types that a type is made of. -/
def Placed.children : Placed → List Placed
  | ⟨depth, .array item⟩ => [⟨depth, item⟩]
  | ⟨depth, .record values⟩ => [⟨depth, values⟩]
  | ⟨depth, .structure fields index⟩ =>
    (fields.map Field.type ++ index.toList).map (Placed.mk (depth + 1))
  | ⟨depth, .intersection members⟩ => members.map (Placed.mk depth)
  | ⟨depth, .union members⟩ => members.map (Placed.mk depth)
  | ⟨depth, .nullable inner⟩ => [⟨depth, inner⟩]
  | _ => []

theorem Placed.mem_children_array (depth : Nat) (item : TypeExpr) :
    ⟨depth, item⟩ ∈ Placed.children ⟨depth, .array item⟩ := List.mem_cons_self

theorem Placed.mem_children_record (depth : Nat) (values : TypeExpr) :
    ⟨depth, values⟩ ∈ Placed.children ⟨depth, .record values⟩ := List.mem_cons_self

theorem Placed.mem_children_nullable (depth : Nat) (inner : TypeExpr) :
    ⟨depth, inner⟩ ∈ Placed.children ⟨depth, .nullable inner⟩ := List.mem_cons_self

theorem Placed.mem_children_intersection (depth : Nat) {member : TypeExpr}
    {members : List TypeExpr} (mem : member ∈ members) :
    ⟨depth, member⟩ ∈ Placed.children ⟨depth, .intersection members⟩ := List.mem_map_of_mem mem

theorem Placed.mem_children_union (depth : Nat) {member : TypeExpr} {members : List TypeExpr}
    (mem : member ∈ members) : ⟨depth, member⟩ ∈ Placed.children ⟨depth, .union members⟩ :=
  List.mem_map_of_mem mem

/-- `p.Within q`: the type `q` is `p` or stands in it. -/
def Placed.Within : Placed → Placed → Prop := ReflTransGen fun p q => q ∈ p.children

/-- The texts that a type takes from outside, as they are. -/
def TypeExpr.atoms : TypeExpr → List String
  | .builtin text => [text]
  | .literals texts => texts
  | _ => []

/-- The comments on the properties of a type. -/
def TypeExpr.ownComments : TypeExpr → List String
  | .structure fields _ => fields.filterMap Field.comment?
  | _ => []

/-- The type writes the comment, on its properties or on those of a type in it. -/
def TypeExpr.Mentions (e : TypeExpr) (comment : String) : Prop :=
  ∃ p, Placed.Within ⟨0, e⟩ p ∧ comment ∈ p.type.ownComments

theorem sizeOf_type_lt {fields : List Field} {e : TypeExpr} (mem : e ∈ fields.map Field.type) :
    sizeOf e < sizeOf fields := by
  obtain ⟨⟨comment, readOnly, name, isOptional, type⟩, at_field, rfl⟩ := List.mem_map.1 mem
  have := List.sizeOf_lt_of_mem at_field
  simp only [Field.mk.sizeOf_spec] at this
  rw [Field.type]
  omega

/-- What a type is made of is smaller. -/
theorem Placed.sizeOf_lt_of_mem_children {p child : Placed} (mem : child ∈ p.children) :
    sizeOf child.type < sizeOf p.type := by
  obtain ⟨depth, e⟩ := p
  cases e with
  | array item =>
      cases List.mem_singleton.1 mem
      simp
  | record values =>
      cases List.mem_singleton.1 mem
      simp
  | «structure» fields index =>
      obtain ⟨type, at_type, rfl⟩ := List.mem_map.1 mem
      obtain in_field | in_index := List.mem_append.1 at_type
      · have := sizeOf_type_lt in_field
        simp only [TypeExpr.structure.sizeOf_spec]
        omega
      · rw [Option.mem_toList] at in_index
        cases in_index
        simp only [TypeExpr.structure.sizeOf_spec, Option.some.sizeOf_spec]
        omega
  | intersection members =>
      obtain ⟨type, at_type, rfl⟩ := List.mem_map.1 mem
      have := List.sizeOf_lt_of_mem at_type
      simp only [TypeExpr.intersection.sizeOf_spec]
      omega
  | union members =>
      obtain ⟨type, at_type, rfl⟩ := List.mem_map.1 mem
      have := List.sizeOf_lt_of_mem at_type
      simp only [TypeExpr.union.sizeOf_spec]
      omega
  | nullable inner =>
      cases List.mem_singleton.1 mem
      simp
  | _ => cases mem

/-- What passes from the types that a type is made of to the type holds of all types. -/
theorem Placed.induct_children {P : Placed → Prop}
    (step : ∀ p : Placed, (∀ child ∈ p.children, P child) → P p) (p : Placed) : P p :=
  step p fun child _mem => induct_children step child
termination_by sizeOf p.type
decreasing_by exact sizeOf_lt_of_mem_children _mem

/-! ### Where the parts are written -/

theorem text_array (depth : Nat) (item : TypeExpr) :
    (TypeExpr.array item).text depth = parenthesize ['|', '&'] (item.text depth) ++ "[]" := rfl

theorem text_record (depth : Nat) (values : TypeExpr) :
    (TypeExpr.record values).text depth = "Record<string, " ++ values.text depth ++ ">" := rfl

theorem text_union (depth : Nat) (members : List TypeExpr) :
    (TypeExpr.union members).text depth = joined " | " (memberTexts [] depth members) := rfl

theorem text_intersection (depth : Nat) (members : List TypeExpr) :
    (TypeExpr.intersection members).text depth = joined " & " (memberTexts ['|'] depth members) :=
  rfl

theorem text_nullable (depth : Nat) (inner : TypeExpr) :
    (TypeExpr.nullable inner).text depth = withNull (inner.text depth) := rfl

theorem memberTexts_eq_map (operators : List Char) (depth : Nat) (members : List TypeExpr) :
    memberTexts operators depth members
      = members.map fun member => parenthesize operators (member.text depth) := by
  induction members with
  | nil => rfl
  | cons member rest ih => rw [memberTexts, ih, List.map_cons]

/-- The lines of a property: its comment, if it has one, and its type. -/
def Field.lines (depth : Nat) (field : Field) : List String := fieldTexts depth [field]

theorem fieldTexts_eq_flatMap (depth : Nat) (fields : List Field) :
    fieldTexts depth fields = fields.flatMap (Field.lines depth) := by
  induction fields with
  | nil => rfl
  | cons field rest ih =>
      obtain ⟨comment, readOnly, name, isOptional, type⟩ := field
      simp only [fieldTexts, ih, List.flatMap_cons, Field.lines]
      simp

/-- The line of a property itself, below its comment. -/
def Field.line (depth : Nat) : Field → String
  | .mk _ readOnly name isOptional type =>
    indentation depth ++ (if readOnly then "readonly " else "") ++ propertyName name
      ++ (if isOptional then "?" else "") ++ ": " ++ type.text depth ++ ";"

theorem Field.line_mem_fieldTexts {field : Field} {fields : List Field} (depth : Nat)
    (mem : field ∈ fields) : field.line depth ∈ fieldTexts depth fields := by
  rw [fieldTexts_eq_flatMap]
  obtain ⟨comment, readOnly, name, isOptional, type⟩ := field
  exact List.mem_flatMap.2 ⟨_, mem, List.mem_append_right _ List.mem_cons_self⟩

/-- The line for further properties. -/
def indexLines (depth : Nat) : Option TypeExpr → List String
  | some type => [indentation depth ++ "[key: string]: " ++ type.text depth ++ ";"]
  | none => []

theorem text_structure (depth : Nat) (fields : List Field) (index : Option TypeExpr) :
    (TypeExpr.structure fields index).text depth
      = "\n".intercalate ("\x7b" :: (fieldTexts (depth + 1) fields ++ indexLines (depth + 1) index)
          ++ [indentation depth ++ "\x7d"]) := by
  cases index <;> rfl

theorem infix_parenthesize (operators : List Char) (s : String) :
    s.toList <:+: (parenthesize operators s).toList := by
  unfold parenthesize
  split
  · exact Text.infix_append
  · exact List.infix_refl _

/-- `| null` is added at the end, if at all. -/
theorem withNull_eq (s : String) : withNull s = s ∨ withNull s = s ++ " | null" := by
  unfold withNull
  split
  · exact .inl rfl
  · exact .inr rfl

theorem prefix_withNull (s : String) : s.toList <+: (withNull s).toList := by
  obtain same | added := withNull_eq s
  · exact same.symm ▸ List.prefix_refl _
  · rw [added, String.toList_append]
    exact List.prefix_append _ _

/-- A member of an intersection or a union stands in the joined members. -/
theorem infix_joined {operator : String} {operators : List Char} {depth : Nat} {e : TypeExpr}
    {members : List TypeExpr} (mem : e ∈ members) :
    (e.text depth).toList <:+: (joined operator (memberTexts operators depth members)).toList := by
  have among : parenthesize operators (e.text depth) ∈ memberTexts operators depth members := by
    rw [memberTexts_eq_map]
    exact List.mem_map_of_mem mem
  rw [joined, if_neg]
  · exact (infix_parenthesize operators _).trans (Text.infix_intercalate among)
  · intro empty
    rw [List.isEmpty_iff.1 empty] at among
    cases among

theorem exists_line {fields : List Field} {e : TypeExpr} (depth : Nat)
    (mem : e ∈ fields.map Field.type) :
    ∃ line ∈ fieldTexts depth fields, (e.text depth).toList <:+: line.toList := by
  obtain ⟨field, at_field, rfl⟩ := List.mem_map.1 mem
  refine ⟨_, field.line_mem_fieldTexts depth at_field, ?_⟩
  obtain ⟨comment, readOnly, name, isOptional, type⟩ := field
  exact Text.infix_append

/-- **Properties are written.**  The text of an object type has the line of each property. -/
theorem hasLine_of_mem_fields {field : Field} (depth : Nat) : (e : TypeExpr) → field ∈ e.fields →
    Text.HasLine (e.text depth) (field.line (depth + 1))
  | .structure fields index, mem => by
      rw [text_structure]
      exact Text.hasLine_intercalate
        (List.mem_append_left _ (field.line_mem_fieldTexts (depth + 1) mem))
  | .nullable inner, mem =>
      (hasLine_of_mem_fields depth inner mem).trans (prefix_withNull _).isInfix

/-- The text of an intersection has the lines of its members. -/
theorem hasLine_of_mem_members {member : TypeExpr} {line : String} {depth : Nat}
    (has : Text.HasLine (member.text depth) line) : (e : TypeExpr) → member ∈ e.members →
    Text.HasLine (e.text depth) line
  | .intersection _, mem => has.trans (infix_joined mem)
  | .nullable inner, mem => (hasLine_of_mem_members has inner mem).trans (prefix_withNull _).isInfix

theorem Placed.infix_text_of_mem_children {p child : Placed} (mem : child ∈ p.children) :
    child.text.toList <:+: p.text.toList := by
  obtain ⟨depth, e⟩ := p
  cases e with
  | array item =>
      cases List.mem_singleton.1 mem
      refine (infix_parenthesize ['|', '&'] _).trans ?_
      show _ <:+: (parenthesize ['|', '&'] (item.text depth) ++ "[]").toList
      rw [String.toList_append]
      exact (List.prefix_append _ _).isInfix
  | record values =>
      cases List.mem_singleton.1 mem
      exact Text.infix_append
  | «structure» fields index =>
      obtain ⟨type, at_type, rfl⟩ := List.mem_map.1 mem
      have inside : ∀ line ∈ fieldTexts (depth + 1) fields ++ indexLines (depth + 1) index,
          line.toList <:+: (Placed.text ⟨depth, .structure fields index⟩).toList := by
        intro line at_line
        rw [Placed.text, text_structure]
        exact Text.infix_intercalate (List.mem_append_left _ (List.mem_cons_of_mem _ at_line))
      -- A property stands in a line of its own, further properties in the line for the index.
      obtain in_field | in_index := List.mem_append.1 at_type
      · obtain ⟨line, at_line, in_line⟩ := exists_line (depth + 1) in_field
        exact in_line.trans (inside line (List.mem_append_left _ at_line))
      · rw [Option.mem_toList] at in_index
        cases in_index
        exact Text.infix_append.trans (inside _ (List.mem_append_right _ List.mem_cons_self))
  | intersection members =>
      obtain ⟨type, at_type, rfl⟩ := List.mem_map.1 mem
      exact infix_joined at_type
  | union members =>
      obtain ⟨type, at_type, rfl⟩ := List.mem_map.1 mem
      exact infix_joined at_type
  | nullable inner =>
      cases List.mem_singleton.1 mem
      exact (prefix_withNull _).isInfix
  | _ => cases mem

/-- **Parts are written.**  The text of each part stands in the text of the whole. -/
theorem Placed.infix_text {p q : Placed} (within : p.Within q) :
    q.text.toList <:+: p.text.toList := by
  induction within with
  | refl => exact List.infix_refl _
  | tail _ child ih => exact (infix_text_of_mem_children child).trans ih

end SchemaCodegen.TypeScript
