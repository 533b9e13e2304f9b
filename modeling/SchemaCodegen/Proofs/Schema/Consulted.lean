import SchemaCodegen.Zod.SchemaValidator

/-!
# The keywords that are consulted

The shape of a schema is recognised once, and what a type or a validator needs of it stands in
the node.  Only a few keywords are looked up again, in the facts of the node:
`consultedKeywords`.  So a node may forget all others (`Node.consulted`), and it still has the
same type (`TypeScript.ofNode_consulted`) and the same validator
(`Zod.ofNode_consulted`).

Two schemas are therefore rendered alike as soon as their nodes agree after forgetting.
-/

namespace SchemaCodegen

/-- The keywords that are looked up in a node once its shape is known. -/
def consultedKeywords : List String :=
  ["description", "readOnly", "minLength", "maxLength", "pattern", "minimum",
   "exclusiveMinimum", "maximum", "exclusiveMaximum", "multipleOf", "minItems", "maxItems",
   "uniqueItems", "discriminator"]

/-- A key is one of the keywords that are looked up. -/
def Scalar.isConsulted : Scalar → Bool
  | .string key => consultedKeywords.contains key
  | _ => false

/-- The entries that are looked up. -/
def Entries.consulted (es : Entries) : Entries := es.filter fun e => e.1.isConsulted

/-- The facts without the keywords that are never looked up. -/
def Facts.consulted (f : Facts) : Facts := { f with keywords := f.keywords.consulted }

mutual

/-- A node that has forgotten, with all nodes below it, the keywords that are never looked
up. -/
def Node.consulted : Node → Node
  | .absent => .absent
  | .unknown f => .unknown f.consulted
  | .empty f => .empty f.consulted
  | .reference f ref => .reference f.consulted ref
  | .array f none => .array f.consulted none
  | .array f (some items) => .array f.consulted (some items.consulted)
  | .object f ps required additional =>
    .object f.consulted (Node.consultedFields ps) required additional.consulted
  | .enumeration f values => .enumeration f.consulted values
  | .composition f c members => .composition f.consulted c (Node.consultedMembers members)
  | .primitive f => .primitive f.consulted

/-- Properties whose nodes have forgotten. -/
def Node.consultedFields : List (String × Node) → List (String × Node)
  | [] => []
  | (name, node) :: rest => (name, node.consulted) :: Node.consultedFields rest

/-- Members that have forgotten. -/
def Node.consultedMembers : List Node → List Node
  | [] => []
  | node :: rest => node.consulted :: Node.consultedMembers rest

/-- What an object allows besides its properties, having forgotten. -/
def Additional.consulted : Additional → Additional
  | .unstated => .unstated
  | .flag allowed => .flag allowed
  | .schema node => .schema node.consulted

end

/-! ### What is not forgotten -/

variable {key : String} (node : Node) (f : Facts)

/-- A value that is looked up is still there. -/
theorem get?_consulted (consulted : key ∈ consultedKeywords) (es : Entries) :
    Entries.get? es.consulted key = Entries.get? es key := by
  have at_key : (Scalar.string key).isConsulted = true := List.contains_iff_mem.2 consulted
  unfold Entries.consulted
  induction es with
  | nil => rfl
  | cons e es ih =>
      obtain ⟨k, v⟩ := e
      rw [List.filter_cons, Entries.get?_cons]
      by_cases here : k = .string key
      · subst here
        rw [if_pos at_key, Entries.get?_cons, if_pos rfl, if_pos rfl]
      · rw [if_neg here]
        split
        · rw [Entries.get?_cons, if_neg here, ih]
        · exact ih

theorem facts_consulted : node.consulted.facts = node.facts.consulted := by
  cases node with
  | array f items => cases items <;> rfl
  | _ => rfl

@[simp] theorem kind_consulted : node.consulted.kind = node.kind := by
  cases node with
  | array f items => cases items <;> rfl
  | _ => rfl

/-- `SameLookups node node'`: the nodes agree in their type and format and in all that is
looked up in them.  The checks of a renderer go by no more than that. -/
structure SameLookups (node node' : Node) : Prop where
  get? : ∀ key ∈ consultedKeywords, node.get? key = node'.get? key
  type : node.facts.type = node'.facts.type
  format : node.facts.format = node'.facts.format
  nullable : node.facts.nullable = node'.facts.nullable

variable {node} {node' : Node}

theorem SameLookups.of_facts (same : node.facts = node'.facts.consulted) :
    SameLookups node node' where
  get? key consulted := by
    unfold Node.get?
    rw [same]
    exact get?_consulted consulted _
  type := by rw [same]; rfl
  format := by rw [same]; rfl
  nullable := by rw [same]; rfl

theorem sameLookups_consulted (node : Node) : SameLookups node.consulted node :=
  .of_facts (facts_consulted node)

namespace SameLookups

variable (same : SameLookups node node')

include same

theorem isSet (key : String) (consulted : key ∈ consultedKeywords) :
    node.isSet key = node'.isSet key := by
  unfold Node.isSet
  rw [same.get? key consulted]

theorem description? : node.description? = node'.description? := by
  unfold Node.description?
  rw [same.get? "description" (by decide)]

end SameLookups

/-! ### Types -/

namespace TypeScript

variable (c : Context)

theorem spokenDescription?_consulted (node : Node) :
    spokenDescription? node.consulted = spokenDescription? node := by
  unfold spokenDescription?
  rw [(sameLookups_consulted node).description?]

mutual

/-- A node that has forgotten has the type that it had. -/
theorem ofNode_consulted : (node : Node) →
    TypeExpr.ofNode c node.consulted = TypeExpr.ofNode c node
  | .absent | .unknown _ | .empty _ | .reference _ _ | .array _ none | .enumeration _ _
  | .primitive _ => rfl
  | .array f (some items) => by
      rw [Node.consulted, TypeExpr.ofNode, ofNode_consulted items]
      rfl
  | .object f [] required (.schema node) => by
      rw [Node.consulted, Node.consultedFields, Additional.consulted, TypeExpr.ofNode,
        ofNode_consulted node, kind_consulted]
      rfl
  | .object f [] required .unstated | .object f [] required (.flag _) => rfl
  | .object f ((name, node) :: ps) required additional => by
      have fields := fieldsOf_consulted f required ((name, node) :: ps)
      rw [Node.consultedFields] at fields
      rw [Node.consulted, Node.consultedFields, TypeExpr.ofNode, fields,
        indexOf_consulted additional]
      rfl
  | .composition f k members => by
      have members := typesOf_consulted members
      rw [Node.consulted]
      cases k with
      | allOf =>
          rw [TypeExpr.ofNode, members]
          rfl
      | _ =>
          rw [TypeExpr.ofNode, members]
          · rfl
          · nofun

theorem typesOf_consulted : (members : List Node) →
    typesOf c (Node.consultedMembers members) = typesOf c members
  | [] => rfl
  | node :: rest => by
      rw [Node.consultedMembers, typesOf, ofNode_consulted node, typesOf_consulted rest]
      rfl

theorem fieldsOf_consulted (f : Facts) (required : List String) :
    (properties : List (String × Node)) →
    fieldsOf c f.consulted required (Node.consultedFields properties)
      = fieldsOf c f required properties
  | [] => rfl
  | (name, node) :: rest => by
      have read_only := (sameLookups_consulted node).isSet "readOnly" (by decide)
      rw [Node.consultedFields, fieldsOf, ofNode_consulted node,
        fieldsOf_consulted f required rest, spokenDescription?_consulted, read_only]
      rfl

theorem indexOf_consulted : (additional : Additional) →
    indexOf c additional.consulted = indexOf c additional
  | .unstated | .flag _ => rfl
  | .schema node => by
      rw [Additional.consulted, indexOf, ofNode_consulted node, kind_consulted]
      rfl

end

end TypeScript

/-! ### Validators -/

namespace Zod

variable (c : Context)

section Checks

variable {node node' : Node} (same : SameLookups node node')

include same

theorem countCondition_of_same {method : String} (consulted : key ∈ consultedKeywords) :
    countCondition node key method = countCondition node' key method := by
  unfold countCondition
  rw [same.get? key consulted]

theorem textConditions_of_same : textConditions node = textConditions node' := by
  unfold textConditions
  rw [countCondition_of_same same (by decide), countCondition_of_same same (by decide),
    same.get? "pattern" (by decide)]

theorem itemConditions_of_same : itemConditions node = itemConditions node' := by
  unfold itemConditions
  rw [countCondition_of_same same (by decide), countCondition_of_same same (by decide),
    same.isSet "uniqueItems" (by decide)]

theorem numberAt?_of_same (key : String) (consulted : key ∈ consultedKeywords) :
    numberAt? node key = numberAt? node' key := by
  unfold numberAt?
  rw [same.get? key consulted]

theorem boundCondition_of_same {bigint : Bool} {inclusive exclusive : String}
    (bound exclusiveBound : String) (at_bound : bound ∈ consultedKeywords)
    (at_exclusive : exclusiveBound ∈ consultedKeywords) :
    boundCondition node bigint bound exclusiveBound inclusive exclusive
      = boundCondition node' bigint bound exclusiveBound inclusive exclusive := by
  unfold boundCondition
  rw [numberAt?_of_same same bound at_bound, numberAt?_of_same same exclusiveBound at_exclusive,
    same.isSet exclusiveBound at_exclusive]

theorem numberValidator_of_same (lead : String) (integer : Bool) :
    numberValidator c node lead integer = numberValidator c node' lead integer := by
  unfold numberValidator stepCondition
  rw [same.format]
  simp only [
    boundCondition_of_same same "minimum" "exclusiveMinimum" (by decide) (by decide),
    boundCondition_of_same same "maximum" "exclusiveMaximum" (by decide) (by decide),
    numberAt?_of_same same "multipleOf" (by decide)]

theorem stringValidator_of_same (lead : String) :
    stringValidator c node lead = stringValidator c node' lead := by
  unfold stringValidator
  rw [same.format, textConditions_of_same same]

theorem primitiveValidator_of_same : primitiveValidator c node = primitiveValidator c node' := by
  have validated : validatedType? c node.facts = validatedType? c node'.facts := by
    unfold validatedType?
    rw [same.type, same.format]
  unfold primitiveValidator
  simp only [validated, stringValidator_of_same c same, numberValidator_of_same c same]

theorem finished_of_same (v : Validator) : finished c node v = finished c node' v := by
  unfold finished admitNull described
  rw [same.nullable, same.description?]

theorem discriminator?_of_same (g : Anchors) : discriminator? g node = discriminator? g node' := by
  unfold discriminator? Anchors.objectAt?
  have at_keyword := same.get? "discriminator" (by decide)
  unfold Node.get? at at_keyword
  rw [at_keyword]

end Checks

theorem finished_consulted (node : Node) (v : Validator) :
    finished c node.consulted v = finished c node v :=
  finished_of_same c (sameLookups_consulted node) v

mutual

/-- A node that has forgotten has the validator that it had. -/
theorem ofNode_consulted : (node : Node) →
    Validator.ofNode c node.consulted = Validator.ofNode c node
  | .absent | .reference _ _ => rfl
  | .unknown f => congrArg pure (finished_consulted c (.unknown f) _)
  | .empty f => congrArg pure (finished_consulted c (.empty f) _)
  | .array f none => by
      have same := sameLookups_consulted (.array f none)
      rw [Node.consulted] at same ⊢
      rw [Validator.ofNode, Validator.ofNode, finished_of_same c same, itemConditions_of_same same]
  | .array f (some items) => by
      have same := sameLookups_consulted (.array f (some items))
      rw [Node.consulted] at same ⊢
      rw [Validator.ofNode, Validator.ofNode, ofNode_consulted items]
      refine bind_congr fun item => ?_
      dsimp only
      rw [finished_of_same c same, itemConditions_of_same same]
  | .object f [] required (.schema node) => by
      have whole := finished_consulted c (.object f [] required .unstated)
      rw [Node.consulted, Node.consultedFields, Additional.consulted, Validator.ofNode,
        Validator.ofNode, ofNode_consulted node, kind_consulted]
      exact bind_congr fun values => congrArg pure (whole _)
  | .object f [] required .unstated | .object f [] required (.flag _) =>
      congrArg pure (finished_consulted c (.object f [] required .unstated) _)
  | .object f ((name, node) :: ps) required additional => by
      have whole := finished_consulted c (.object f [] required .unstated)
      have fields := fieldsOf_consulted required ((name, node) :: ps)
      rw [Node.consultedFields] at fields
      rw [Node.consulted, Node.consultedFields, Validator.ofNode, Validator.ofNode, fields]
      refine bind_congr fun fields => ?_
      rw [closedBy_consulted _ additional]
      exact bind_congr fun v => congrArg pure (whole v)
  | .enumeration f values => by
      rw [Node.consulted, Validator.ofNode, Validator.ofNode]
      exact bind_congr fun v => congrArg pure (finished_consulted c (.enumeration f values) v)
  | .composition f k members => by
      have same := sameLookups_consulted (.composition f k [])
      rw [Node.consulted, Node.consultedMembers] at same
      have members := validatorsOf_consulted members
      rw [Node.consulted]
      cases k with
      | allOf =>
          rw [Validator.ofNode, Validator.ofNode, members]
          exact bind_congr fun vs => congrArg pure (finished_of_same c same _)
      | _ =>
          rw [Validator.ofNode, Validator.ofNode, discriminator?_of_same same, members]
          · simp only [finished_of_same c same]
          · nofun
          · nofun
  | .primitive f => by
      rw [Node.consulted, Validator.ofNode, Validator.ofNode]
      have same := sameLookups_consulted (.primitive f)
      rw [Node.consulted] at same
      rw [primitiveValidator_of_same c same]
      exact bind_congr fun v => congrArg pure (finished_of_same c same v)

theorem validatorsOf_consulted : (members : List Node) →
    validatorsOf c (Node.consultedMembers members) = validatorsOf c members
  | [] => rfl
  | node :: rest => by
      rw [Node.consultedMembers, validatorsOf, ofNode_consulted node, validatorsOf_consulted rest]
      rfl

theorem fieldsOf_consulted (required : List String) : (properties : List (String × Node)) →
    fieldsOf c required (Node.consultedFields properties) = fieldsOf c required properties
  | [] => rfl
  | (name, node) :: rest => by
      rw [Node.consultedFields, fieldsOf, ofNode_consulted node, fieldsOf_consulted required rest]
      rfl

theorem closedBy_consulted (v : Validator) : (additional : Additional) →
    closedBy c v additional.consulted = closedBy c v additional
  | .unstated | .flag _ => rfl
  | .schema node => by
      rw [Additional.consulted, closedBy, ofNode_consulted node, kind_consulted]
      rfl

end

end Zod

end SchemaCodegen
