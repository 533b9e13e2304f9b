import SchemaCodegen.Proofs.TypeScript.Neutral
import SchemaCodegen.TypeScript.Declaration

/-!
# The schemas a type names

A type names a schema where an identifier stands for a reference, and every name is written as
its identifier (`infix_text_of_names`).  The names are the targets of the references that the
node has as leaves, no more and no fewer (`names_ofNode`): every part of a node is rendered, and
nothing else brings a name in.
-/

namespace SchemaCodegen.TypeScript

variable {c : Context} {n : String} {nodes more : List Node} {node : Node} {depth : Nat}
  {e : TypeExpr}

/-! ### Names in a type -/

/-- The identifier of the schema `n` stands in the type for a reference. -/
def Placed.Names (p : Placed) (n : String) : Prop := ∃ depth, p.Within ⟨depth, .named n⟩

/-- A type is a name or it has the names of its parts. -/
theorem Placed.names_iff {p : Placed} :
    p.Names n ↔ p.type = .named n ∨ ∃ child ∈ p.children, child.Names n := by
  constructor
  · rintro ⟨depth, within⟩
    obtain rfl | ⟨child, mem, rest⟩ := within.cases_head
    · exact .inl rfl
    · exact .inr ⟨child, mem, depth, rest⟩
  · rintro (here | ⟨child, mem, depth, within⟩)
    · obtain ⟨depth, type⟩ := p
      cases here
      exact ⟨depth, .refl⟩
    · exact ⟨depth, .head mem within⟩

theorem names_named {schema : String} :
    (Placed.mk depth (.named schema)).Names n ↔ schema = n := by
  rw [Placed.names_iff]
  simp [Placed.children]

/-- The type is no name, and is made of no other types. -/
def TypeExpr.IsLeaf (e : TypeExpr) : Prop :=
  (∀ schema, e ≠ .named schema) ∧ ∀ depth, Placed.children ⟨depth, e⟩ = []

theorem isLeaf_any : TypeExpr.any.IsLeaf := ⟨nofun, fun _ => rfl⟩

theorem isLeaf_openRecord : TypeExpr.openRecord.IsLeaf := ⟨nofun, fun _ => rfl⟩

theorem isLeaf_builtin (text : String) : (TypeExpr.builtin text).IsLeaf := ⟨nofun, fun _ => rfl⟩

theorem isLeaf_literals (texts : List String) : (TypeExpr.literals texts).IsLeaf :=
  ⟨nofun, fun _ => rfl⟩

theorem TypeExpr.IsLeaf.not_names (leaf : e.IsLeaf) : ¬ (Placed.mk depth e).Names n := by
  rw [Placed.names_iff, leaf.2 depth]
  rintro (here | ⟨child, mem, -⟩)
  · exact leaf.1 n here
  · cases mem

theorem names_array {item : TypeExpr} :
    (Placed.mk depth (.array item)).Names n ↔ (Placed.mk depth item).Names n := by
  rw [Placed.names_iff]
  simp [Placed.children]

theorem names_record {values : TypeExpr} :
    (Placed.mk depth (.record values)).Names n ↔ (Placed.mk depth values).Names n := by
  rw [Placed.names_iff]
  simp [Placed.children]

theorem names_structure {fields : List Field} {index : Option TypeExpr} :
    (Placed.mk depth (.structure fields index)).Names n
      ↔ (∃ field ∈ fields, (Placed.mk (depth + 1) field.type).Names n)
        ∨ ∃ e ∈ index, (Placed.mk (depth + 1) e).Names n := by
  rw [Placed.names_iff]
  simp [Placed.children, or_and_right, exists_or]

theorem names_intersection {members : List TypeExpr} :
    (Placed.mk depth (.intersection members)).Names n
      ↔ ∃ e ∈ members, (Placed.mk depth e).Names n := by
  rw [Placed.names_iff]
  simp [Placed.children]

theorem names_union {members : List TypeExpr} :
    (Placed.mk depth (.union members)).Names n
      ↔ ∃ e ∈ members, (Placed.mk depth e).Names n := by
  rw [Placed.names_iff]
  simp [Placed.children]

theorem names_nullable {inner : TypeExpr} :
    (Placed.mk depth (.nullable inner)).Names n ↔ (Placed.mk depth inner).Names n := by
  rw [Placed.names_iff]
  simp [Placed.children]

theorem names_admitNull (f : Facts) :
    (Placed.mk depth (admitNull f e)).Names n ↔ (Placed.mk depth e).Names n := by
  unfold admitNull
  split
  · exact names_nullable
  · rfl

/-- A name is written as its identifier. -/
theorem infix_text_of_names {p : Placed} (names : p.Names n) :
    (typeName n).toList <:+: p.text.toList := by
  obtain ⟨depth, within⟩ := names
  have written : (Placed.text ⟨depth, .named n⟩).toList <:+: p.text.toList :=
    Placed.infix_text within
  rw [Placed.text, TypeExpr.text] at written
  exact written

/-! ### Targets among nodes -/

/-- `Targets c nodes n`: one of the nodes is a reference to the schema `n`. -/
def Targets (c : Context) (nodes : List Node) (n : String) : Prop :=
  ∃ f ref, Node.reference f ref ∈ nodes ∧ knownName? c.dictionary ref = some n

theorem targets_append :
    Targets c (nodes ++ more) n ↔ Targets c nodes n ∨ Targets c more n := by
  simp only [Targets, List.mem_append, or_and_right, exists_or]

theorem not_targets_nil : ¬ Targets c [] n := by
  rintro ⟨f, ref, mem, -⟩
  cases mem

/-- A node that is no reference adds no target. -/
theorem targets_cons (plain : ∀ f ref, node ≠ .reference f ref) :
    Targets c (node :: nodes) n ↔ Targets c nodes n := by
  have later (f : Facts) (ref : String) :
      Node.reference f ref ∈ node :: nodes ↔ Node.reference f ref ∈ nodes := by
    rw [List.mem_cons, or_iff_right (plain f ref).symm]
  simp only [Targets, later]

theorem targets_reference {f : Facts} {ref : String} :
    Targets c [.reference f ref] n ↔ knownName? c.dictionary ref = some n := by
  constructor
  · rintro ⟨f, ref, mem, known⟩
    cases List.mem_singleton.1 mem
    exact known
  · exact fun known => ⟨f, ref, List.mem_cons_self, known⟩

/-- A type without names is that of a node without targets. -/
theorem names_iff_of_leaf (leaf : e.IsLeaf) (plain : ∀ f ref, node ≠ .reference f ref) :
    (Placed.mk depth e).Names n ↔ Targets c [node] n := by
  rw [targets_cons plain]
  exact iff_of_false leaf.not_names not_targets_nil

/-- An empty schema has no targets. -/
theorem not_targets_of_kind (empty : node.kind = .empty) : ¬ Targets c node.preorder n := by
  cases node with
  | empty f =>
      rw [Node.preorder, targets_cons]
      · exact not_targets_nil
      · nofun
  | _ => cases empty

/-! ### What is rendered -/

theorem isLeaf_bareType (type : String) : (bareType type).IsLeaf := by
  unfold bareType
  split
  all_goals first | exact isLeaf_builtin _ | exact isLeaf_openRecord | exact isLeaf_any

theorem isLeaf_formatType {options : TypeOptions} {type : Option String} {format : String}
    (h : formatType? options type format = some e) : e.IsLeaf := by
  unfold formatType? at h
  dsimp only at h
  repeat' split at h
  all_goals cases h
  all_goals exact isLeaf_builtin _

/-- The type of a primitive is made of no other types. -/
theorem isLeaf_primitiveType (options : TypeOptions) (type format : Option String) :
    (primitiveType options type format).IsLeaf := by
  unfold primitiveType
  dsimp only
  cases found : format.bind fun f => if f.isEmpty then none else formatType? options type f with
  | none =>
      cases type with
      | none => exact isLeaf_any
      | some type => exact isLeaf_bareType type
  | some e =>
      obtain ⟨f, -, at_f⟩ := Option.bind_eq_some_iff.1 found
      split at at_f
      · cases at_f
      · exact isLeaf_formatType at_f

theorem isLeaf_enumeration {g : Anchors} {values : List Value}
    (h : enumeration g values = .ok e) : e.IsLeaf := by
  unfold enumeration at h
  cases written : values.mapM (literalText g) with
  | error failure =>
      rw [written] at h
      cases h
  | ok texts =>
      rw [written] at h
      cases h
      exact isLeaf_literals texts

/-- A reference is rendered as the name of its target. -/
theorem names_reference {ref : String} (h : (c.reference ref).result = .ok e) :
    (Placed.mk depth e).Names n ↔ knownName? c.dictionary ref = some n := by
  unfold Context.reference at h
  cases known : knownName? c.dictionary ref with
  | some name =>
      rw [known] at h
      cases h
      rw [names_named, Option.some.injEq]
  | none =>
      rw [known] at h
      cases strict : c.strict with
      | true =>
          simp only [strict] at h
          cases h
      | false =>
          simp only [strict] at h
          cases h
          exact iff_of_false isLeaf_any.not_names nofun

mutual

/-- **The names in the type of a node** are the targets of the references below the node. -/
theorem names_ofNode : (node : Node) → {e : TypeExpr} → (TypeExpr.ofNode c node).result = .ok e →
    (depth : Nat) → ((Placed.mk depth e).Names n ↔ Targets c node.preorder n)
  | .absent, e, h, depth => by
      cases h
      rw [Node.preorder]
      exact names_iff_of_leaf isLeaf_any nofun
  | .unknown f, e, h, depth => by
      cases h
      rw [names_admitNull, Node.preorder]
      exact names_iff_of_leaf isLeaf_any nofun
  | .empty f, e, h, depth => by
      cases h
      rw [names_admitNull, Node.preorder]
      exact names_iff_of_leaf isLeaf_openRecord nofun
  | .reference f ref, e, h, depth => by
      rw [TypeExpr.ofNode] at h
      obtain ⟨target, named, h⟩ := Traced.result_bind_eq_ok.1 h
      cases h
      rw [names_admitNull, Node.preorder, targets_reference, names_reference named]
  | .array f none, e, h, depth => by
      cases h
      rw [names_admitNull, names_array, Node.preorder]
      exact names_iff_of_leaf isLeaf_any nofun
  | .array f (some items), e, h, depth => by
      rw [TypeExpr.ofNode] at h
      obtain ⟨item, inner, h⟩ := Traced.result_bind_eq_ok.1 h
      cases h
      rw [names_admitNull, names_array, Node.preorder, targets_cons,
        names_ofNode items inner depth]
      nofun
  | .object f [] required (.schema node), e, h, depth => by
      rw [TypeExpr.ofNode] at h
      obtain ⟨values, inner, h⟩ := Traced.result_bind_eq_ok.1 h
      cases h
      rw [names_admitNull, Node.preorder, targets_cons, Node.preorderFields, List.nil_append,
        Additional.preorder]
      · cases empty : node.kind == .empty with
        | true =>
            refine iff_of_false ?_ (not_targets_of_kind (eq_of_beq empty))
            exact isLeaf_openRecord.not_names
        | false => exact names_record.trans (names_ofNode node inner depth)
      · nofun
  | .object f [] required .unstated, e, h, depth => by
      cases h
      rw [names_admitNull, Node.preorder]
      exact names_iff_of_leaf isLeaf_openRecord nofun
  | .object f [] required (.flag allowed), e, h, depth => by
      cases h
      rw [names_admitNull, Node.preorder]
      exact names_iff_of_leaf isLeaf_openRecord nofun
  | .object f (p :: ps) required additional, e, h, depth => by
      rw [TypeExpr.ofNode] at h
      obtain ⟨fields, from_fields, h⟩ := Traced.result_bind_eq_ok.1 h
      obtain ⟨index, from_index, h⟩ := Traced.result_bind_eq_ok.1 h
      cases h
      rw [names_admitNull, names_structure, Node.preorder, targets_cons, targets_append,
        names_fieldsOf f required (p :: ps) from_fields, names_indexOf additional from_index]
      nofun
  | .enumeration f values, e, h, depth => by
      rw [TypeExpr.ofNode] at h
      obtain ⟨literals, from_values, h⟩ := Traced.result_bind_eq_ok.1 h
      cases h
      rw [names_admitNull]
      exact names_iff_of_leaf (isLeaf_enumeration from_values) nofun
  | .composition f k members, e, h, depth => by
      have plain : ∀ f' ref, Node.composition f k members ≠ .reference f' ref := nofun
      rw [Node.preorder, targets_cons plain]
      by_cases choice : k = .allOf
      · subst choice
        rw [TypeExpr.ofNode] at h
        obtain ⟨es, inner, h⟩ := Traced.result_bind_eq_ok.1 h
        cases h
        rw [names_admitNull, names_intersection, names_typesOf members inner depth]
      · obtain ⟨es, inner, rfl⟩ := exists_typesOf_of_choice choice h
        rw [names_admitNull, names_union, names_typesOf members inner depth]
  | .primitive f, e, h, depth => by
      cases h
      rw [names_admitNull]
      exact names_iff_of_leaf (isLeaf_primitiveType _ _ _) nofun

/-- The names in the types of members. -/
theorem names_typesOf : (members : List Node) → {es : List TypeExpr} →
    (typesOf c members).result = .ok es → (depth : Nat) →
    ((∃ e ∈ es, (Placed.mk depth e).Names n) ↔ Targets c (Node.preorderMembers members) n)
  | [], es, h, depth => by
      cases h
      exact iff_of_false (by simp) not_targets_nil
  | node :: rest, es, h, depth => by
      rw [typesOf] at h
      obtain ⟨e, first, h⟩ := Traced.result_bind_eq_ok.1 h
      obtain ⟨es, others, same⟩ := Traced.result_bind_eq_ok.1 h
      cases same
      rw [Node.preorderMembers, targets_append, List.exists_mem_cons_iff,
        names_ofNode node first depth, names_typesOf rest others depth]

/-- The names in the types of properties. -/
theorem names_fieldsOf (f : Facts) (required : List String) : (ps : List (String × Node)) →
    {fields : List Field} → (fieldsOf c f required ps).result = .ok fields → (depth : Nat) →
    ((∃ field ∈ fields, (Placed.mk depth field.type).Names n)
      ↔ Targets c (Node.preorderFields ps) n)
  | [], fields, h, depth => by
      cases h
      exact iff_of_false (by simp) not_targets_nil
  | (name, node) :: rest, fields, h, depth => by
      rw [fieldsOf] at h
      obtain ⟨e, first, h⟩ := Traced.result_bind_eq_ok.1 h
      obtain ⟨fields, others, same⟩ := Traced.result_bind_eq_ok.1 h
      cases same
      rw [Node.preorderFields, targets_append, List.exists_mem_cons_iff, Field.type,
        names_admitNull, names_ofNode node first depth, names_fieldsOf f required rest others depth]

/-- The names in the type of further properties. -/
theorem names_indexOf : (additional : Additional) → {index : Option TypeExpr} →
    (indexOf c additional).result = .ok index → (depth : Nat) →
    ((∃ e ∈ index, (Placed.mk depth e).Names n) ↔ Targets c additional.preorder n)
  | .unstated, index, h, depth => by
      cases h
      exact iff_of_false (by simp) not_targets_nil
  | .flag true, index, h, depth => by
      cases h
      exact iff_of_false (by simp [isLeaf_any.not_names]) not_targets_nil
  | .flag false, index, h, depth => by
      cases h
      exact iff_of_false (by simp) not_targets_nil
  | .schema node, index, h, depth => by
      rw [indexOf] at h
      obtain ⟨values, inner, h⟩ := Traced.result_bind_eq_ok.1 h
      cases h
      rw [Additional.preorder]
      cases empty : node.kind == .empty with
      | true =>
          refine iff_of_false ?_ (not_targets_of_kind (eq_of_beq empty))
          simp [isLeaf_any.not_names]
      | false =>
          rw [← names_ofNode node inner depth]
          simp

end

/-! ### Declarations -/

/-- A declaration has the name of its key and the type of the node of its schema. -/
theorem declarationOf_eq_ok {key : Scalar} {schema : Value} {decl : Declaration}
    (h : (declarationOf c key schema).result = .ok decl) :
    nameOfKey key = .ok decl.name ∧ ∃ shape, (Node.ofSchema c.anchors schema).result = .ok shape ∧
      (TypeExpr.ofNode c shape).result = .ok decl.type := by
  rw [declarationOf] at h
  obtain ⟨shape, found, h⟩ := Traced.result_bind_eq_ok.1 h
  obtain ⟨name, named, h⟩ := Traced.result_bind_eq_ok.1 h
  obtain ⟨type, rendered, same⟩ := Traced.result_bind_eq_ok.1 h
  cases same
  exact ⟨named, shape, found, rendered⟩

theorem infix_body (d : Declaration) : d.body.toList <:+: d.text.toList := by
  unfold Declaration.text
  split
  · exact Text.infix_intercalate (List.mem_append_right _ List.mem_cons_self)
  · exact List.infix_rfl

/-- The type of a declaration is written in it. -/
theorem infix_text_of_declaration (d : Declaration) :
    (d.type.text 0).toList <:+: d.text.toList := by
  have in_body : (d.type.text 0).toList <:+: d.body.toList := by
    unfold Declaration.body
    split
    · next fields index same =>
        rw [same]
        exact Text.infix_append_right
    · exact Text.infix_append
  exact in_body.trans (infix_body d)

/-- A declaration writes its own identifier, behind the words that declare it, and those of the
schemas that its type names. -/
structure Declaration.Written (d : Declaration) : Prop where
  declared : ∃ lead ∈ ["export interface ", "export type "],
    (lead ++ typeName d.name).toList <:+: d.text.toList
  named : ∀ n, (Placed.mk 0 d.type).Names n → (typeName n).toList <:+: d.text.toList

theorem Declaration.written (d : Declaration) : d.Written where
  declared := by
    have in_body : ∃ lead ∈ ["export interface ", "export type "],
        (lead ++ typeName d.name).toList <:+: d.body.toList := by
      unfold Declaration.body
      split
      · exact ⟨_, List.mem_cons_self, Text.infix_append_left.trans Text.infix_append_left⟩
      · refine ⟨_, List.mem_cons_of_mem _ List.mem_cons_self, ?_⟩
        exact Text.infix_append_left.trans (Text.infix_append_left.trans Text.infix_append_left)
    obtain ⟨lead, mem, inside⟩ := in_body
    exact ⟨lead, mem, inside.trans (infix_body d)⟩
  named n names := (infix_text_of_names names).trans (infix_text_of_declaration d)

end SchemaCodegen.TypeScript
