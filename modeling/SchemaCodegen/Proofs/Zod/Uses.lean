import SchemaCodegen.Proofs.Schema.Classify
import SchemaCodegen.Zod.SchemaValidator

/-!
# The schemas a validator uses

A validator names other schemas in two ways: by a **reference**, and by the **mapping** of a
discriminator.  `Validator.uses` lists the names in the order of the text.

The two differ in where they come from (`grounded_ofNode`).  A name used by reference is the
target of a reference that the node has as a leaf.  A name used by a mapping is a name of the
dictionary and no more: the values of a mapping are plain texts, which no walk over
references sees.
-/

namespace SchemaCodegen.Zod

/-- How another schema is used. -/
inductive Use where
  | reference (schema : String)
  | mapping (schema : String)
deriving DecidableEq, Repr

/-- The schema that is used. -/
def Use.schema : Use → String
  | .reference schema => schema
  | .mapping schema => schema

mutual

/-- The schemas that a validator uses. -/
def Validator.uses : Validator → List Use
  | .named schema => [.reference schema]
  | .tagged schema _ _ => [.mapping schema]
  | .array item => item.uses
  | .record values => values.uses
  | .object fields => fieldUses fields
  | .union members => memberUses members
  | .intersection members => memberUses members
  | .discriminated _ members => memberUses members
  | .call inner _ _ => inner.uses
  | .catchall inner others => inner.uses ++ others.uses
  | .nullable inner => inner.uses
  | .unknown | .openRecord | .base _ | .strings _ | .literals _ => []

/-- The schemas that members use. -/
def memberUses : List Validator → List Use
  | [] => []
  | v :: rest => v.uses ++ memberUses rest

/-- The schemas that properties use. -/
def fieldUses : List Field → List Use
  | [] => []
  | .mk _ _ v :: rest => v.uses ++ fieldUses rest

end

variable {c : Context} {nodes : List Node}

/-! ### What adds no use -/

/-- Conditions use no schema. -/
@[simp] theorem uses_calls (v : Validator) (conditions : List (String × String)) :
    (v.calls conditions).uses = v.uses := by
  unfold Validator.calls
  induction conditions generalizing v with
  | nil => rfl
  | cons condition conditions ih =>
      rw [List.foldl_cons, ih]
      rfl

@[simp] theorem uses_admitNull (facts : Facts) (v : Validator) :
    (admitNull facts v).uses = v.uses := by
  unfold admitNull
  split
  · rfl
  · rfl

/-- A description uses no schema. -/
@[simp] theorem uses_finished (node : Node) (v : Validator) :
    (finished c node v).uses = v.uses := by
  rw [finished, uses_admitNull]
  unfold described
  split
  · split
    · rfl
    · rfl
  · rfl

theorem uses_stringValidator (node : Node) (lead : String) :
    (stringValidator c node lead).uses = [] := by
  unfold stringValidator
  repeat' split
  all_goals simp [Validator.uses]

theorem uses_numberValidator {node : Node} {lead : String} {integer : Bool} {v : Validator}
    (h : numberValidator c node lead integer = .ok v) : v.uses = [] := by
  unfold numberValidator at h
  obtain ⟨lower, -, h⟩ := bind_eq_ok.1 h
  obtain ⟨upper, -, h⟩ := bind_eq_ok.1 h
  obtain ⟨step, -, h⟩ := bind_eq_ok.1 h
  cases h
  rw [uses_calls]
  rfl

/-- A primitive uses no schema. -/
theorem uses_primitiveValidator {node : Node} {v : Validator}
    (h : primitiveValidator c node = .ok v) : v.uses = [] := by
  unfold primitiveValidator at h
  extract_lets lead at h
  split at h
  · cases h
    exact uses_stringValidator node _
  · exact uses_numberValidator h
  · exact uses_numberValidator h
  all_goals
    cases h
    rfl

/-- An enumeration uses no schema. -/
theorem uses_enumeration {g : Anchors} {values : List Value} {v : Validator}
    (h : enumeration g values = .ok v) : v.uses = [] := by
  unfold enumeration at h
  split at h
  · cases h
    rfl
  · split at h
    · cases h
      rfl
    · obtain ⟨texts, -, h⟩ := bind_eq_ok.1 h
      cases h
      rfl

/-! ### Where uses come from -/

/-- `Grounded c nodes use`: a use by reference is the target of a reference among the nodes,
and a use by a mapping is a name of the dictionary. -/
def Grounded (c : Context) (nodes : List Node) : Use → Prop
  | .reference schema => ∃ f ref, Node.reference f ref ∈ nodes
      ∧ TypeScript.knownName? c.dictionary ref = some schema
  | .mapping schema => ∃ ref, TypeScript.knownName? c.dictionary ref = some schema

theorem Grounded.mono {use : Use} {more : List Node} (grounded : Grounded c nodes use)
    (subset : nodes ⊆ more) : Grounded c more use := by
  cases use with
  | reference schema =>
      obtain ⟨f, ref, mem, known⟩ := grounded
      exact ⟨f, ref, subset mem, known⟩
  | mapping schema => exact grounded

/-- The name that a reference gives is known. -/
theorem name?_eq_some {ref name : String} (h : (c.name? ref).result = .ok (some name)) :
    TypeScript.knownName? c.dictionary ref = some name := by
  unfold Context.name? at h
  split at h
  · next known =>
      cases h
      exact known
  · split at h <;> cases h

/-- A mapping uses known names. -/
theorem grounded_taggedMembers {property : String} {mapping : Entries} {vs : List Validator}
    (h : (taggedMembers c property mapping).result = .ok (some vs)) :
    ∀ use ∈ memberUses vs, Grounded c nodes use := by
  induction mapping generalizing vs with
  | nil =>
      cases h
      exact nofun
  | cons entry rest ih =>
      unfold taggedMembers at h
      split at h
      · cases h
        exact nofun
      · next key ref rest same =>
          cases same
          obtain ⟨name?, named, h⟩ := Traced.result_bind_eq_ok.1 h
          cases name? with
          | none => cases h
          | some name =>
              obtain ⟨literal, -, h⟩ := Traced.result_bind_eq_ok.1 h
              obtain ⟨others?, from_others, h⟩ := Traced.result_bind_eq_ok.1 h
              cases others? with
              | none => cases h
              | some others =>
                  cases h
                  intro use mem
                  -- A mapping of the dictionary's names: the value is no reference of the node.
                  obtain first | later := List.mem_append.1 mem
                  · cases List.mem_singleton.1 first
                    exact ⟨_, name?_eq_some named⟩
                  · exact ih from_others use later
      · cases h

/-- A union has the uses of its members, or those of the mapping that tells them apart. -/
theorem grounded_choice {f : Facts} {k : Combinator} {members : List Node} {v : Validator}
    (choice : k ≠ .allOf)
    (below : ∀ vs, (validatorsOf c members).result = .ok vs →
      ∀ use ∈ memberUses vs, Grounded c (Node.preorderMembers members) use)
    (h : (Validator.ofNode c (.composition f k members)).result = .ok v) :
    ∀ use ∈ v.uses, Grounded c (Node.composition f k members).preorder use := by
  have up {use : Use} (grounded : Grounded c (Node.preorderMembers members) use) :
      Grounded c (Node.composition f k members).preorder use :=
    grounded.mono (List.subset_cons_self _ _)
  rw [Validator.ofNode] at h
  · split at h
    · obtain ⟨vs, inner, h⟩ := Traced.result_bind_eq_ok.1 h
      cases h
      rw [uses_finished, Validator.uses]
      exact fun use mem => up (below vs inner use mem)
    · obtain ⟨vs, inner, h⟩ := Traced.result_bind_eq_ok.1 h
      cases h
      rw [uses_finished]
      intro use mem
      split at mem
      · exact up (below vs inner use mem)
      · exact up (below vs inner use mem)
    · obtain ⟨tagged?, mapped, h⟩ := Traced.result_bind_eq_ok.1 h
      cases tagged? with
      | some vs =>
          cases h
          rw [uses_finished, Validator.uses]
          exact fun use mem => up (grounded_taggedMembers mapped use mem)
      | none =>
          obtain ⟨vs, inner, h⟩ := Traced.result_bind_eq_ok.1 h
          cases h
          rw [uses_finished, Validator.uses]
          exact fun use mem => up (below vs inner use mem)
  · exact choice

mutual

/-- **Where uses come from.**  What the validator of a node uses is the target of a reference
below the node, or known to the dictionary. -/
theorem grounded_ofNode : (node : Node) → {v : Validator} →
    (Validator.ofNode c node).result = .ok v → ∀ use ∈ v.uses, Grounded c node.preorder use
  | .absent, v, h => by
      cases h
      exact nofun
  | .reference f ref, v, h => by
      rw [Validator.ofNode] at h
      obtain ⟨name?, named, h⟩ := Traced.result_bind_eq_ok.1 h
      cases name? with
      | none =>
          cases h
          rw [uses_admitNull, Validator.uses]
          exact nofun
      | some name =>
          cases h
          rw [uses_admitNull, Validator.uses]
          intro use mem
          cases List.mem_singleton.1 mem
          exact ⟨f, ref, List.mem_cons_self, name?_eq_some named⟩
  | .unknown f, v, h => by
      cases h
      rw [uses_finished, Validator.uses]
      exact nofun
  | .empty f, v, h => by
      cases h
      rw [uses_finished, Validator.uses]
      exact nofun
  | .array f none, v, h => by
      cases h
      rw [uses_finished, uses_calls, Validator.uses, Validator.uses]
      exact nofun
  | .array f (some items), v, h => by
      rw [Validator.ofNode] at h
      obtain ⟨item, inner, h⟩ := Traced.result_bind_eq_ok.1 h
      cases h
      rw [uses_finished, uses_calls, Validator.uses]
      intro use mem
      exact (grounded_ofNode items inner use mem).mono (List.subset_cons_self _ _)
  | .object f [] required (.schema node), v, h => by
      rw [Validator.ofNode] at h
      obtain ⟨values, inner, h⟩ := Traced.result_bind_eq_ok.1 h
      cases h
      rw [uses_finished]
      intro use mem
      split at mem
      · cases mem
      · exact (grounded_ofNode node inner use mem).mono (List.subset_cons_self _ _)
  | .object f [] required .unstated, v, h => by
      cases h
      rw [uses_finished, Validator.uses]
      exact nofun
  | .object f [] required (.flag allowed), v, h => by
      cases h
      rw [uses_finished, Validator.uses]
      exact nofun
  | .object f (p :: ps) required additional, v, h => by
      rw [Validator.ofNode] at h
      obtain ⟨fields, from_fields, h⟩ := Traced.result_bind_eq_ok.1 h
      obtain ⟨closed, from_closed, h⟩ := Traced.result_bind_eq_ok.1 h
      cases h
      rw [uses_finished]
      intro use mem
      rw [Node.preorder]
      obtain in_fields | in_others := grounded_closedBy additional from_closed use mem
      · refine (grounded_fieldsOf (p :: ps) from_fields use in_fields).mono ?_
        exact List.Subset.trans (List.subset_append_left _ _) (List.subset_cons_self _ _)
      · refine in_others.mono ?_
        exact List.Subset.trans (List.subset_append_right _ _) (List.subset_cons_self _ _)
  | .enumeration f values, v, h => by
      rw [Validator.ofNode] at h
      obtain ⟨inner, found, h⟩ := Traced.result_bind_eq_ok.1 h
      cases h
      rw [uses_finished, uses_enumeration found]
      exact nofun
  | .composition f .allOf members, v, h => by
      rw [Validator.ofNode] at h
      obtain ⟨vs, inner, h⟩ := Traced.result_bind_eq_ok.1 h
      cases h
      rw [uses_finished, Validator.uses]
      intro use mem
      exact (grounded_validatorsOf members inner use mem).mono (List.subset_cons_self _ _)
  | .composition f .oneOf members, v, h =>
      grounded_choice nofun (fun _ => grounded_validatorsOf members) h
  | .composition f .anyOf members, v, h =>
      grounded_choice nofun (fun _ => grounded_validatorsOf members) h
  | .primitive f, v, h => by
      rw [Validator.ofNode] at h
      obtain ⟨inner, found, h⟩ := Traced.result_bind_eq_ok.1 h
      cases h
      rw [uses_finished, uses_primitiveValidator found]
      exact nofun

theorem grounded_validatorsOf : (members : List Node) → {vs : List Validator} →
    (validatorsOf c members).result = .ok vs →
    ∀ use ∈ memberUses vs, Grounded c (Node.preorderMembers members) use
  | [], vs, h => by
      cases h
      exact nofun
  | node :: rest, vs, h => by
      rw [validatorsOf] at h
      obtain ⟨v, first, h⟩ := Traced.result_bind_eq_ok.1 h
      obtain ⟨others, later, h⟩ := Traced.result_bind_eq_ok.1 h
      cases h
      intro use mem
      obtain at_first | at_later := List.mem_append.1 mem
      · exact (grounded_ofNode node first use at_first).mono (List.subset_append_left _ _)
      · exact (grounded_validatorsOf rest later use at_later).mono (List.subset_append_right _ _)

theorem grounded_fieldsOf {required : List String} :
    (properties : List (String × Node)) → {fields : List Field} →
    (fieldsOf c required properties).result = .ok fields →
    ∀ use ∈ fieldUses fields, Grounded c (Node.preorderFields properties) use
  | [], fields, h => by
      cases h
      exact nofun
  | (name, node) :: rest, fields, h => by
      rw [fieldsOf] at h
      obtain ⟨v, first, h⟩ := Traced.result_bind_eq_ok.1 h
      obtain ⟨others, later, h⟩ := Traced.result_bind_eq_ok.1 h
      cases h
      intro use mem
      obtain at_first | at_later := List.mem_append.1 mem
      · exact (grounded_ofNode node first use at_first).mono (List.subset_append_left _ _)
      · exact (grounded_fieldsOf rest later use at_later).mono (List.subset_append_right _ _)

theorem grounded_closedBy {inner : Validator} : (additional : Additional) → {v : Validator} →
    (closedBy c inner additional).result = .ok v →
    ∀ use ∈ v.uses, use ∈ inner.uses ∨ Grounded c additional.preorder use
  | .unstated, v, h => by
      cases h
      exact fun use mem => .inl mem
  | .flag true, v, h => by
      cases h
      exact fun use mem => .inl mem
  | .flag false, v, h => by
      cases h
      intro use mem
      split at mem
      · exact .inl mem
      · exact .inl mem
  | .schema node, v, h => by
      rw [closedBy] at h
      obtain ⟨others, from_others, h⟩ := Traced.result_bind_eq_ok.1 h
      cases h
      intro use mem
      split at mem
      · exact .inl mem
      · obtain in_inner | in_others := List.mem_append.1 mem
        · exact .inl in_inner
        · exact .inr (grounded_ofNode node from_others use in_others)

end

end SchemaCodegen.Zod
