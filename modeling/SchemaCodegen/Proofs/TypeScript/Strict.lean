import SchemaCodegen.Proofs.Schema.Json
import SchemaCodegen.TypeScript.SchemaType

/-!
# Strict references

Under strict references the type of a schema is a failure where some reference in the schema
dangles: it is not canonical, or the dictionary lacks its name.  The translation passes over
some parts of a schema and takes the others up in an order of its own, while
`Node.preorder` lists all of them; still the failure names the dangling reference that comes
first in `Node.preorder` (`failsFirst_ofNode`).

The strict and the lenient translation run side by side.  Nothing else can fail on JSON data,
so up to the first dangling reference both have the same result (`FailsFirst.bind`).
-/

namespace SchemaCodegen.TypeScript

variable {α β : Type} {d : Option Entries} {g : Anchors} {options : TypeOptions} {ref : String}
  {first? next? : Option String}

/-! ### Dangling references -/

/-- A reference that is not canonical, or whose name the dictionary lacks.  Without a
dictionary every canonical reference is trusted. -/
def dangles (d : Option Entries) (ref : String) : Bool :=
  match schemaName? ref, d with
  | none, _ => true
  | some _, none => false
  | some name, some entries => !Entries.has entries name

/-- The reference of a node, if it is one that dangles. -/
def dangling? (d : Option Entries) : Node → Option String
  | .reference _ ref => if dangles d ref then some ref else none
  | _ => none

/-- The first reference in a node that dangles, parts of the node in preorder. -/
def firstDangling? (d : Option Entries) (nodes : List Node) : Option String :=
  nodes.findSome? (dangling? d)

theorem isNone_knownName? : (knownName? d ref).isNone = dangles d ref := by
  unfold knownName? dangles
  cases schemaName? ref with
  | none => rfl
  | some name =>
      cases d with
      | none => rfl
      | some entries =>
          cases has : Entries.has entries name <;> simp [has]

theorem firstDangling?_isSome {nodes : List Node} : (firstDangling? d nodes).isSome = true
    ↔ ∃ f ref, Node.reference f ref ∈ nodes ∧ dangles d ref = true := by
  rw [firstDangling?, List.findSome?_isSome_iff]
  constructor
  · rintro ⟨node, mem, dangling⟩
    cases node with
    | reference f ref =>
        refine ⟨f, ref, mem, ?_⟩
        by_contra not
        simp [dangling?, not] at dangling
    | _ => cases dangling
  · rintro ⟨f, ref, mem, dangling⟩
    exact ⟨_, mem, by simp [dangling?, dangling]⟩

/-! ### Side by side -/

/-- The strict computation fails with the reference, if there is one, and otherwise has the
result that the lenient computation has anyway. -/
def FailsFirst (first? : Option String) (strict lenient : Traced α) : Prop :=
  ∃ a, lenient.result = .ok a ∧
    strict.result = first?.elim (.ok a) fun ref => .error (.reference ref)

theorem failsFirst_of_ok {a : α} {x : Traced α} (found : x.result = .ok a) :
    FailsFirst none x x := ⟨a, found, found⟩

theorem failsFirst_pure (a : α) : FailsFirst none (pure a) (pure a) := failsFirst_of_ok rfl

/-- The first failure of a sequence is that of its first part, or else that of its second
part. -/
theorem FailsFirst.bind {strict lenient : Traced α} {f h : α → Traced β}
    (first : FailsFirst first? strict lenient)
    (next : ∀ a, lenient.result = .ok a → FailsFirst next? (f a) (h a)) :
    FailsFirst (first?.or next?) (strict >>= f) (lenient >>= h) := by
  obtain ⟨a, found, strict_found⟩ := first
  obtain ⟨b, then_found, then_strict⟩ := next a found
  refine ⟨b, Traced.result_bind_eq_ok.2 ⟨a, found, then_found⟩, ?_⟩
  rw [Traced.result_bind, strict_found]
  cases first? with
  | none => exact then_strict
  | some ref => rfl

/-- What is made of a result does not fail. -/
theorem FailsFirst.map {strict lenient : Traced α} (h : FailsFirst first? strict lenient)
    (f : α → β) :
    FailsFirst first? (strict >>= fun a => pure (f a)) (lenient >>= fun a => pure (f a)) := by
  have both := h.bind fun a _ => failsFirst_pure (f a)
  rwa [Option.or_none] at both

/-! ### Literals -/

theorem exists_literalText (g : Anchors) {v : Value} (json : v.isJson = true) :
    ∃ text, literalText g v = .ok text := by
  obtain ⟨text, written⟩ := exists_write .oneLine g json
  unfold literalText
  split
  · exact ⟨_, rfl⟩
  · exact ⟨text, by rw [written]; rfl⟩

theorem exists_literalTexts (g : Anchors) {values : List Value}
    (json : ∀ v ∈ values, v.isJson = true) :
    ∃ texts, values.mapM (literalText g) = .ok texts := by
  induction values with
  | nil => exact ⟨[], rfl⟩
  | cons v values ih =>
      obtain ⟨here, rest⟩ := List.forall_mem_cons.1 json
      obtain ⟨text, first⟩ := exists_literalText g here
      obtain ⟨texts, later⟩ := ih rest
      exact ⟨text :: texts, by rw [List.mapM_cons, first, later]; rfl⟩

theorem exists_enumeration (g : Anchors) {values : List Value}
    (json : ∀ v ∈ values, v.isJson = true) : ∃ e, enumeration g values = .ok e := by
  obtain ⟨texts, found⟩ := exists_literalTexts g json
  exact ⟨.literals texts, by rw [enumeration, found]; rfl⟩

/-! ### Nodes -/

theorem failsFirst_reference (f : Facts) (ref : String) :
    FailsFirst (dangling? d (.reference f ref)) (Context.reference ⟨g, d, options, true⟩ ref)
      (Context.reference ⟨g, d, options, false⟩ ref) := by
  unfold dangling? Context.reference
  simp only [← isNone_knownName?]
  cases knownName? d ref with
  | none => exact ⟨.any, rfl, rfl⟩
  | some name => exact failsFirst_pure _

section Append

variable {nodes more : List Node}

theorem firstDangling?_append : firstDangling? d (nodes ++ more)
    = (firstDangling? d nodes).or (firstDangling? d more) := List.findSome?_append

/-- A node that is no reference does not dangle itself. -/
theorem firstDangling?_cons {node : Node} (no_reference : dangling? d node = none) :
    firstDangling? d (node :: nodes) = firstDangling? d nodes := by
  rw [firstDangling?, List.findSome?_cons, no_reference]
  rfl

end Append

mutual

/-- **The failure is the first in preorder**, for the type of a node. -/
theorem failsFirst_ofNode : (node : Node) → (∀ part ∈ node.preorder, part.Says (·.isJson = true)) →
    FailsFirst (firstDangling? d node.preorder)
      (TypeExpr.ofNode ⟨g, d, options, true⟩ node) (TypeExpr.ofNode ⟨g, d, options, false⟩ node)
  | .absent, _ => failsFirst_pure _
  | .unknown _, _ => failsFirst_pure _
  | .empty _, _ => failsFirst_pure _
  | .reference f ref, _ => by
      rw [TypeExpr.ofNode, TypeExpr.ofNode, Node.preorder, firstDangling?,
        List.findSome?_singleton]
      exact (failsFirst_reference f ref).map _
  | .array _ none, _ => failsFirst_pure _
  | .array f (some items), json => by
      rw [TypeExpr.ofNode, TypeExpr.ofNode, Node.preorder, firstDangling?_cons rfl]
      rw [Node.preorder] at json
      exact (failsFirst_ofNode items (List.forall_mem_cons.1 json).2).map _
  | .object f [] required (.schema node), json => by
      rw [TypeExpr.ofNode, TypeExpr.ofNode, Node.preorder, firstDangling?_cons rfl,
        Node.preorderFields, List.nil_append, Additional.preorder]
      rw [Node.preorder, Node.preorderFields, List.nil_append, Additional.preorder] at json
      exact (failsFirst_ofNode node (List.forall_mem_cons.1 json).2).map _
  | .object _ [] _ .unstated, _ => failsFirst_pure _
  | .object _ [] _ (.flag _), _ => failsFirst_pure _
  | .object f (p :: ps) required additional, json => by
      rw [TypeExpr.ofNode, TypeExpr.ofNode, Node.preorder, firstDangling?_cons rfl,
        firstDangling?_append]
      rw [Node.preorder] at json
      obtain ⟨in_fields, in_additional⟩ :=
        List.forall_mem_append.1 (List.forall_mem_cons.1 json).2
      exact (failsFirst_fieldsOf f required (p :: ps) in_fields).bind fun fields _ =>
        (failsFirst_indexOf additional in_additional).map _
  | .enumeration f values, json => by
      obtain ⟨e, found⟩ := exists_enumeration g (json _ List.mem_cons_self).2
      rw [TypeExpr.ofNode, TypeExpr.ofNode]
      exact (failsFirst_of_ok found).map _
  | .composition f .allOf members, json => by
      rw [TypeExpr.ofNode, TypeExpr.ofNode, Node.preorder, firstDangling?_cons rfl]
      rw [Node.preorder] at json
      exact (failsFirst_typesOf members (List.forall_mem_cons.1 json).2).map _
  | .composition f .oneOf members, json => by
      rw [TypeExpr.ofNode, TypeExpr.ofNode, Node.preorder, firstDangling?_cons rfl]
      · rw [Node.preorder] at json
        exact (failsFirst_typesOf members (List.forall_mem_cons.1 json).2).map _
      all_goals nofun
  | .composition f .anyOf members, json => by
      rw [TypeExpr.ofNode, TypeExpr.ofNode, Node.preorder, firstDangling?_cons rfl]
      · rw [Node.preorder] at json
        exact (failsFirst_typesOf members (List.forall_mem_cons.1 json).2).map _
      all_goals nofun
  | .primitive _, _ => failsFirst_pure _

theorem failsFirst_typesOf : (members : List Node) →
    (∀ part ∈ Node.preorderMembers members, part.Says (·.isJson = true)) →
    FailsFirst (firstDangling? d (Node.preorderMembers members))
      (typesOf ⟨g, d, options, true⟩ members) (typesOf ⟨g, d, options, false⟩ members)
  | [], _ => failsFirst_pure _
  | node :: rest, json => by
      rw [Node.preorderMembers] at json
      obtain ⟨here, later⟩ := List.forall_mem_append.1 json
      rw [typesOf, typesOf, Node.preorderMembers, firstDangling?_append]
      exact (failsFirst_ofNode node here).bind fun e _ => (failsFirst_typesOf rest later).map _

theorem failsFirst_fieldsOf (facts : Facts) (required : List String) :
    (properties : List (String × Node)) →
    (∀ part ∈ Node.preorderFields properties, part.Says (·.isJson = true)) →
    FailsFirst (firstDangling? d (Node.preorderFields properties))
      (fieldsOf ⟨g, d, options, true⟩ facts required properties)
      (fieldsOf ⟨g, d, options, false⟩ facts required properties)
  | [], _ => failsFirst_pure _
  | (name, node) :: rest, json => by
      rw [Node.preorderFields] at json
      obtain ⟨here, later⟩ := List.forall_mem_append.1 json
      rw [fieldsOf, fieldsOf, Node.preorderFields, firstDangling?_append]
      exact (failsFirst_ofNode node here).bind fun e _ =>
        (failsFirst_fieldsOf facts required rest later).map _

theorem failsFirst_indexOf : (additional : Additional) →
    (∀ part ∈ additional.preorder, part.Says (·.isJson = true)) →
    FailsFirst (firstDangling? d additional.preorder)
      (indexOf ⟨g, d, options, true⟩ additional) (indexOf ⟨g, d, options, false⟩ additional)
  | .unstated, _ => failsFirst_pure _
  | .flag _, _ => failsFirst_pure _
  | .schema node, json => by
      rw [indexOf, indexOf, Additional.preorder]
      rw [Additional.preorder] at json
      exact (failsFirst_ofNode node json).map _

end

/-! ### Schemas -/

/-- The type of a schema, strict beside lenient. -/
theorem failsFirst_typeOf (d : Option Entries) (options : TypeOptions) {schema : Value} {node : Node}
    (found : (Node.ofSchema g schema).result = .ok node) (json : node.SayAll (·.isJson = true)) :
    FailsFirst (firstDangling? d node.preorder) (typeOf ⟨g, d, options, true⟩ schema)
      (typeOf ⟨g, d, options, false⟩ schema) := by
  have typed : FailsFirst (none.or (firstDangling? d node.preorder))
      (typeOf ⟨g, d, options, true⟩ schema) (typeOf ⟨g, d, options, false⟩ schema) := by
    refine (failsFirst_of_ok found).bind fun same is_same => ?_
    cases found.symm.trans is_same
    exact failsFirst_ofNode node json
  rwa [Option.none_or] at typed

/-- Without strict references, a JSON schema has a type. -/
theorem exists_typeOf (g : Anchors) (d : Option Entries) (options : TypeOptions) {schema : Value}
    (json : schema.isJson = true) :
    ∃ e, (typeOf ⟨g, d, options, false⟩ schema).result = .ok e := by
  obtain ⟨node, found, node_json⟩ := gives_ofSchema (inherited_isJson g) json
  obtain ⟨e, lenient, -⟩ := failsFirst_typeOf d options found node_json
  exact ⟨e, lenient⟩

/-- The text of a schema, strict beside lenient. -/
theorem failsFirst_typeText (d : Option Entries) (options : TypeOptions) {schema : Value}
    {node : Node}
    (found : (Node.ofSchema g schema).result = .ok node) (json : node.SayAll (·.isJson = true)) :
    FailsFirst (firstDangling? d node.preorder) (typeText ⟨g, d, options, true⟩ schema)
      (typeText ⟨g, d, options, false⟩ schema) :=
  (failsFirst_typeOf d options found json).map _

/-- **Strict references** of a JSON schema.  The translation raises exactly where a reference in
the schema dangles, it names the first one that does, and where it does not raise it has the
text that it has without strict references. -/
theorem strict_typeText_raises_iff (g : Anchors) (d : Option Entries) (options : TypeOptions)
    {schema : Value} (json : schema.isJson = true) :
    ∃ node, (Node.ofSchema g schema).result = .ok node
      ∧ ((∃ ref, (typeText ⟨g, d, options, true⟩ schema).result = .error (.reference ref))
          ↔ ∃ f ref, Node.reference f ref ∈ node.preorder ∧ dangles d ref = true)
      ∧ (∀ ref, (typeText ⟨g, d, options, true⟩ schema).result = .error (.reference ref) →
          firstDangling? d node.preorder = some ref)
      ∧ ((∀ ref, (typeText ⟨g, d, options, true⟩ schema).result ≠ .error (.reference ref)) →
          ∃ text, (typeText ⟨g, d, options, true⟩ schema).result = .ok text
            ∧ (typeText ⟨g, d, options, false⟩ schema).result = .ok text) := by
  obtain ⟨node, found, node_json⟩ := gives_ofSchema (inherited_isJson g) json
  obtain ⟨text, lenient, strict⟩ := failsFirst_typeText d options found node_json
  refine ⟨node, found, ?_, ?_, ?_⟩
  · rw [strict, ← firstDangling?_isSome]
    cases firstDangling? d node.preorder with
    | none => simp
    | some ref => simp
  · intro ref raised
    rw [strict] at raised
    cases first : firstDangling? d node.preorder with
    | none =>
        rw [first] at raised
        cases raised
    | some other =>
        rw [first] at raised
        cases raised
        rfl
  · intro silent
    rw [strict] at silent ⊢
    cases first : firstDangling? d node.preorder with
    | none => exact ⟨text, rfl, lenient⟩
    | some ref =>
        rw [first] at silent
        exact absurd rfl (silent ref)

/-- A visit of a pet to a vet.  The vet is read behind the pet, whose own reference is known. -/
def visitSchema : Value := .object
  [(.string "properties", .object
    [(.string "pet", .object [(.string "$ref", .string "#/components/schemas/Pet")]),
      (.string "vet", .object [(.string "items",
        .object [(.string "$ref", .string "#/components/schemas/Vet")])])]),
   (.string "additionalProperties", .object [(.string "$ref", .string "#/visits")])]

/-- A dictionary that knows pets only. -/
def petsOnly : Entries := [(.string "Pet", .object [(.string "type", .string "object")])]

theorem strict_typeText_raises_iff_visit : visitSchema.isJson = true ∧
    ∃ node, (Node.ofSchema {} visitSchema).result = .ok node
      ∧ ((∃ ref, (typeText ⟨{}, some petsOnly, {}, true⟩ visitSchema).result
            = .error (.reference ref))
          ↔ ∃ f ref, Node.reference f ref ∈ node.preorder ∧ dangles (some petsOnly) ref = true)
      ∧ (∀ ref, (typeText ⟨{}, some petsOnly, {}, true⟩ visitSchema).result
            = .error (.reference ref) → firstDangling? (some petsOnly) node.preorder = some ref)
      ∧ ((∀ ref, (typeText ⟨{}, some petsOnly, {}, true⟩ visitSchema).result
            ≠ .error (.reference ref)) →
          ∃ text, (typeText ⟨{}, some petsOnly, {}, true⟩ visitSchema).result = .ok text
            ∧ (typeText ⟨{}, some petsOnly, {}, false⟩ visitSchema).result = .ok text) :=
  ⟨rfl, strict_typeText_raises_iff {} (some petsOnly) {} rfl⟩

end SchemaCodegen.TypeScript
