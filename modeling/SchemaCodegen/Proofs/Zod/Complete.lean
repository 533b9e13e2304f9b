import SchemaCodegen.Proofs.Number.Words
import SchemaCodegen.Proofs.TypeScript.Strict
import SchemaCodegen.Zod.SchemaValidator

/-!
# Validators of JSON schemas

Without strict references a JSON schema has a validator (`exists_validatorOf`).  Only a number that is
not finite, which some readers of JSON let in, cannot be written as a big integer.
-/

namespace SchemaCodegen.Zod

open Traced

variable {c : Context} {node : Node} {v : Value} {key : String} {bigint : Bool}

/-- JSON data whose numbers can be written: as big integers only finite ones can. -/
structure Writable (c : Context) (v : Value) : Prop where
  isJson : v.isJson = true
  finite : c.options.int64AsBigint = true →
    ∀ x, Inside c.anchors v (.float x) → x.isFinite = true

theorem inherited_writable (c : Context) : Inherited c.anchors (Writable c) where
  isJson writable := writable.isJson
  part writable part := ⟨part.isJson writable.isJson, fun as_bigint x inside =>
    writable.finite as_bigint x (.head part inside)⟩
  nothing := by
    refine ⟨rfl, fun _ x inside => ?_⟩
    obtain same | ⟨u, part, -⟩ := Relation.ReflTransGen.cases_head inside
    · cases same
    · obtain ⟨xs, items, -⟩ | ⟨es, k, entries, mem⟩ := part
      · cases items
      · cases entries
        cases mem

/-! ### Numbers -/

theorem isNumber_cases (number : isNumber v = true) : (∃ n, v = .int n) ∨ ∃ x, v = .float x := by
  unfold isNumber at number
  split at number
  · exact .inl ⟨_, rfl⟩
  · exact .inr ⟨_, rfl⟩
  · cases number

theorem exists_numberLiteral (number : isNumber v = true)
    (finite : bigint = true → ∀ x, v = .float x → x.isFinite = true) :
    ∃ text, numberLiteral bigint v = .ok text := by
  obtain ⟨n, rfl⟩ | ⟨x, rfl⟩ := isNumber_cases number
  · cases bigint with
    | true => exact ⟨_, rfl⟩
    | false => exact ⟨_, rfl⟩
  · cases bigint with
    | true =>
        obtain ⟨n, whole⟩ := Binary64.exists_truncate? (finite rfl x rfl)
        refine ⟨toString n ++ "n", ?_⟩
        rw [numberLiteral, if_pos rfl, wholePart, whole]
        rfl
    | false => exact ⟨_, rfl⟩

section Keywords

variable (writable : Writable c (.object node.facts.keywords))

include writable

section Numbers

variable (only : bigint = true → c.options.int64AsBigint = true)

include only

/-- A number under a keyword can be written. -/
theorem exists_literalAt (found : numberAt? node key = some v) :
    ∃ text, numberLiteral bigint v = .ok text := by
  obtain ⟨at_key, number⟩ := Option.filter_eq_some_iff.1 found
  have value_writable := (inherited_writable c).get? writable at_key
  refine exists_numberLiteral number fun as_bigint x same => ?_
  subst same
  exact value_writable.finite (only as_bigint) x .refl

theorem exists_boundCondition (bound exclusiveBound inclusive exclusive : String) :
    ∃ conditions, boundCondition node bigint bound exclusiveBound inclusive exclusive
      = .ok conditions := by
  unfold boundCondition
  cases at_bound : numberAt? node bound with
  | some v =>
      obtain ⟨text, literal⟩ := exists_literalAt writable only at_bound
      exact ⟨_, by dsimp only; rw [literal]; rfl⟩
  | none =>
      cases at_exclusive : numberAt? node exclusiveBound with
      | some v =>
          obtain ⟨text, literal⟩ := exists_literalAt writable only at_exclusive
          exact ⟨_, by dsimp only; rw [literal]; rfl⟩
      | none => exact ⟨_, rfl⟩

theorem exists_stepCondition : ∃ conditions, stepCondition node bigint = .ok conditions := by
  unfold stepCondition
  cases at_key : numberAt? node "multipleOf" with
  | some v =>
      obtain ⟨text, literal⟩ := exists_literalAt writable only at_key
      exact ⟨_, by dsimp only; rw [literal]; rfl⟩
  | none => exact ⟨_, rfl⟩

end Numbers

theorem exists_numberValidator (lead : String) (integer : Bool) :
    ∃ v, numberValidator c node lead integer = .ok v := by
  have only : (node.facts.format == some "int64" && c.options.int64AsBigint) = true →
      c.options.int64AsBigint = true := fun both => (Bool.and_eq_true_iff.1 both).2
  obtain ⟨lower, at_lower⟩ :=
    exists_boundCondition writable only "minimum" "exclusiveMinimum" "min" "gt"
  obtain ⟨upper, at_upper⟩ :=
    exists_boundCondition writable only "maximum" "exclusiveMaximum" "max" "lt"
  obtain ⟨step, at_step⟩ := exists_stepCondition writable only
  unfold numberValidator
  dsimp only
  rw [at_lower, at_upper, at_step]
  exact ⟨_, rfl⟩

theorem exists_primitiveValidator : ∃ v, primitiveValidator c node = .ok v := by
  unfold primitiveValidator
  dsimp only
  split
  · exact ⟨_, rfl⟩
  · exact exists_numberValidator writable _ false
  · exact exists_numberValidator writable _ true
  · exact ⟨_, rfl⟩
  · exact ⟨_, rfl⟩
  · exact ⟨_, rfl⟩

end Keywords

/-! ### Literals and references -/

theorem exists_enumeration (g : Anchors) {values : List Value}
    (json : ∀ v ∈ values, v.isJson = true) : ∃ v, enumeration g values = .ok v := by
  unfold enumeration
  split
  · exact ⟨_, rfl⟩
  · split
    · exact ⟨_, rfl⟩
    · obtain ⟨texts, found⟩ := TypeScript.exists_literalTexts g json
      exact ⟨_, by rw [found]; rfl⟩

/-- The mapping of a discriminator has texts for keys. -/
theorem haveJson_of_discriminator? {node : Node} {property : String} {mapping : Entries}
    (writable : Writable c (.object node.facts.keywords))
    (found : discriminator? c.anchors node = some (property, mapping)) :
    Value.haveJson mapping = true := by
  obtain ⟨es, at_key, found⟩ := Option.bind_eq_some_iff.1 found
  obtain ⟨name, at_name, found⟩ := Option.bind_eq_some_iff.1 found
  split at found
  · cases found
  · cases found
    cases at_mapping : c.anchors.objectAt? es "mapping" with
    | none => rfl
    | some mapping =>
        have discriminator := (inherited_writable c).objectAt? writable at_key
        exact ((inherited_writable c).objectAt? discriminator at_mapping).isJson

section Lenient

variable (lenient : c.strictReferences = false)

include lenient

/-- Without strict references a reference without a name is no failure. -/
theorem gives_name? (ref : String) : (c.name? ref).Gives fun _ => True := by
  unfold Context.name?
  split
  · exact gives_pure trivial
  · rw [lenient, if_neg Bool.false_ne_true]
    exact ⟨none, rfl, trivial⟩

/-- The members by the mapping of a discriminator, whose keys are texts. -/
theorem gives_taggedMembers (property : String) {mapping : Entries}
    (json : Value.haveJson mapping = true) :
    (taggedMembers c property mapping).Gives fun _ => True := by
  induction mapping with
  | nil => exact gives_pure trivial
  | cons e mapping ih =>
      obtain ⟨k, v⟩ := e
      rw [Value.haveJson, Bool.and_eq_true, Bool.and_eq_true] at json
      obtain ⟨⟨key_text, -⟩, rest_json⟩ := json
      have key_json : (Value.scalar k).isJson = true := by
        cases k with
        | string text => rfl
        | _ => cases key_text
      by_cases is_text : ∃ ref, v = .string ref
      · obtain ⟨ref, rfl⟩ := is_text
        rw [taggedMembers]
        refine (gives_name? lenient _).bind fun name _ => ?_
        cases name with
        | none => exact gives_pure trivial
        | some name =>
            obtain ⟨literal, found⟩ := TypeScript.exists_literalText c.anchors key_json
            exact (gives_ofExcept found).bind fun literal _ =>
              (ih rest_json).bind fun _ _ => gives_pure trivial
      · rw [taggedMembers]
        · exact gives_pure trivial
        · rintro k' ref same
          cases same
          exact is_text ⟨ref, rfl⟩

/-- A union has a validator where its members have, also by the mapping of a discriminator. -/
theorem gives_choice {f : Facts} {k : Combinator} {members : List Node} (choice : k ≠ .allOf)
    (writable : Writable c (.object f.keywords))
    (each : (validatorsOf c members).Gives fun _ => True) :
    (Validator.ofNode c (.composition f k members)).Gives fun _ => True := by
  rw [Validator.ofNode]
  · split
    · exact each.bind fun _ _ => gives_pure trivial
    · exact each.bind fun _ _ => gives_pure trivial
    · next property mapping _ found =>
        have whole : Writable c (.object (Node.composition f k []).facts.keywords) := writable
        have json := haveJson_of_discriminator? whole found
        refine (gives_taggedMembers lenient property json).bind fun tagged? _ => ?_
        cases tagged? with
        | some vs => exact gives_pure trivial
        | none => exact each.bind fun _ _ => gives_pure trivial
  · exact choice

end Lenient

/-! ### Nodes -/

mutual

/-- What is JSON data has a validator: a node and what it is composed of. -/
theorem gives_ofNode (lenient : c.strictReferences = false) : (node : Node) →
    node.SayAll (Writable c) → (Validator.ofNode c node).Gives fun _ => True
  | .absent, _ => gives_pure trivial
  | .unknown _, _ => gives_pure trivial
  | .empty _, _ => gives_pure trivial
  | .reference f ref, _ => by
      rw [Validator.ofNode]
      refine (gives_name? lenient ref).bind fun name _ => ?_
      cases name <;> exact gives_pure trivial
  | .array _ none, _ => gives_pure trivial
  | .array f (some items), said => by
      rw [Validator.ofNode]
      rw [Node.SayAll, Node.preorder] at said
      exact (gives_ofNode lenient items (List.forall_mem_cons.1 said).2).bind fun _ _ =>
        gives_pure trivial
  | .object f [] required (.schema node), said => by
      rw [Validator.ofNode]
      rw [Node.SayAll, Node.preorder, Node.preorderFields, List.nil_append,
        Additional.preorder] at said
      exact (gives_ofNode lenient node (List.forall_mem_cons.1 said).2).bind fun _ _ =>
        gives_pure trivial
  | .object _ [] _ .unstated, _ => gives_pure trivial
  | .object _ [] _ (.flag _), _ => gives_pure trivial
  | .object f (p :: ps) required additional, said => by
      rw [Validator.ofNode]
      rw [Node.SayAll, Node.preorder] at said
      obtain ⟨in_fields, in_additional⟩ :=
        List.forall_mem_append.1 (List.forall_mem_cons.1 said).2
      exact (gives_fieldsOf lenient required (p :: ps) in_fields).bind fun fields _ =>
        (gives_closedBy lenient (.object fields) additional in_additional).bind fun _ _ =>
          gives_pure trivial
  | .enumeration f values, said => by
      obtain ⟨v, found⟩ := exists_enumeration c.anchors fun v mem =>
        ((said _ List.mem_cons_self).2 v mem).isJson
      rw [Validator.ofNode]
      exact (gives_ofExcept found).bind fun _ _ => gives_pure trivial
  | .composition f .allOf members, said => by
      rw [Validator.ofNode]
      rw [Node.SayAll, Node.preorder] at said
      exact (gives_validatorsOf lenient members (List.forall_mem_cons.1 said).2).bind fun _ _ =>
        gives_pure trivial
  | .composition f .oneOf members, said => by
      rw [Node.SayAll, Node.preorder] at said
      obtain ⟨here, below⟩ := List.forall_mem_cons.1 said
      exact gives_choice lenient (by decide) here (gives_validatorsOf lenient members below)
  | .composition f .anyOf members, said => by
      rw [Node.SayAll, Node.preorder] at said
      obtain ⟨here, below⟩ := List.forall_mem_cons.1 said
      exact gives_choice lenient (by decide) here (gives_validatorsOf lenient members below)
  | .primitive f, said => by
      obtain ⟨v, found⟩ := exists_primitiveValidator (said _ List.mem_cons_self)
      rw [Validator.ofNode]
      exact (gives_ofExcept found).bind fun _ _ => gives_pure trivial

theorem gives_validatorsOf (lenient : c.strictReferences = false) : (members : List Node) →
    (∀ part ∈ Node.preorderMembers members, part.Says (Writable c)) →
    (validatorsOf c members).Gives fun _ => True
  | [], _ => gives_pure trivial
  | node :: rest, said => by
      rw [Node.preorderMembers] at said
      obtain ⟨here, later⟩ := List.forall_mem_append.1 said
      rw [validatorsOf]
      exact (gives_ofNode lenient node here).bind fun _ _ =>
        (gives_validatorsOf lenient rest later).bind fun _ _ => gives_pure trivial

theorem gives_fieldsOf (lenient : c.strictReferences = false) (required : List String) :
    (properties : List (String × Node)) →
    (∀ part ∈ Node.preorderFields properties, part.Says (Writable c)) →
    (fieldsOf c required properties).Gives fun _ => True
  | [], _ => gives_pure trivial
  | (name, node) :: rest, said => by
      rw [Node.preorderFields] at said
      obtain ⟨here, later⟩ := List.forall_mem_append.1 said
      rw [fieldsOf]
      exact (gives_ofNode lenient node here).bind fun _ _ =>
        (gives_fieldsOf lenient required rest later).bind fun _ _ => gives_pure trivial

theorem gives_closedBy (lenient : c.strictReferences = false) (v : Validator) :
    (additional : Additional) →
    (∀ part ∈ additional.preorder, part.Says (Writable c)) →
    (closedBy c v additional).Gives fun _ => True
  | .unstated, _ => gives_pure trivial
  | .flag true, _ => gives_pure trivial
  | .flag false, _ => gives_pure trivial
  | .schema node, said => by
      rw [closedBy]
      rw [Additional.preorder] at said
      exact (gives_ofNode lenient node said).bind fun _ _ => gives_pure trivial

end

/-- **A JSON schema has a validator** without strict references, if its numbers can be written. -/
theorem exists_validatorOf (lenient : c.strictReferences = false) {schema : Value}
    (writable : Writable c schema) : ∃ v, (validatorOf c schema).result = .ok v := by
  obtain ⟨v, found, -⟩ := (gives_ofSchema (inherited_writable c) writable).bind
    fun node said => gives_ofNode lenient node said
  exact ⟨v, found⟩

end SchemaCodegen.Zod
