import SchemaCodegen.Data.Anchors

/-!
# Schema nodes

Every schema has one of a closed set of shapes.  A `Node` is a schema whose shape has been
recognised, with the parts that belong to that shape, themselves nodes; what each schema may
say besides its shape (its type, its format, whether it admits `null`, and all its keywords)
stands in its `Facts`.

References are leaves: a node never holds what a reference points to.

* `Node.kind` — the name of the shape.
* `Node.preorder` — the node and every node below it.
* `Node.depth`, `Node.propertyCount` — how deep a node nests and how many properties it
  names.
-/

namespace SchemaCodegen

/-- The keywords that join schemas. -/
inductive Combinator where
  | allOf
  | oneOf
  | anyOf
deriving DecidableEq, Repr

/-- The keyword of a combinator. -/
def Combinator.keyword : Combinator → String
  | .allOf => "allOf"
  | .oneOf => "oneOf"
  | .anyOf => "anyOf"

/-- The combinators in the order in which a schema is searched for them. -/
def Combinator.all : List Combinator := [.allOf, .oneOf, .anyOf]

/-- What a schema says besides its shape. -/
structure Facts where
  keywords : Entries := []
  type : Option String := none
  format : Option String := none
  nullable : Bool := false
deriving Inhabited, Repr

mutual

/-- A schema of a recognised shape. -/
inductive Node where
  | absent
  | unknown (facts : Facts)
  | empty (facts : Facts)
  | reference (facts : Facts) (ref : String)
  | array (facts : Facts) (items : Option Node)
  | object (facts : Facts) (properties : List (String × Node)) (required : List String)
      (additional : Additional)
  | enumeration (facts : Facts) (values : List Value)
  | composition (facts : Facts) (combinator : Combinator) (members : List Node)
  | primitive (facts : Facts)

/-- What an object allows besides its properties: nothing is said, a plain yes or no, or
a schema for the values. -/
inductive Additional where
  | unstated
  | flag (allowed : Bool)
  | schema (node : Node)

end

instance : Inhabited Node := ⟨.absent⟩
instance : Inhabited Additional := ⟨.unstated⟩

namespace Node

/-- The facts of a node; an absent schema says nothing. -/
def facts : Node → Facts
  | .absent => {}
  | .unknown f => f
  | .empty f => f
  | .reference f _ => f
  | .array f _ => f
  | .object f _ _ _ => f
  | .enumeration f _ => f
  | .composition f _ _ => f
  | .primitive f => f

/-- A keyword of the schema. -/
def get? (node : Node) (key : String) : Option Value := Entries.get? node.facts.keywords key

/-- The description, if it is a text. -/
def description? (node : Node) : Option String := (node.get? "description").bind Value.string?

/-- A keyword is given as `true`. -/
def isSet (node : Node) (key : String) : Bool := ((node.get? key).map Value.isTrue).getD false

/-- The shapes by name. -/
inductive Kind where
  | absent
  | empty
  | reference
  | array
  | object
  | enumeration
  | composition (combinator : Combinator)
  | primitive
  | unknown
deriving DecidableEq, Repr

/-- The name of a shape. -/
def Kind.name : Kind → String
  | .absent => "absent"
  | .empty => "empty"
  | .reference => "reference"
  | .array => "array"
  | .object => "object"
  | .enumeration => "enum"
  | .composition c => c.keyword
  | .primitive => "primitive"
  | .unknown => "unknown"

/-- The shape of a node. -/
def kind : Node → Kind
  | .absent => .absent
  | .unknown _ => .unknown
  | .empty _ => .empty
  | .reference _ _ => .reference
  | .array _ _ => .array
  | .object _ _ _ _ => .object
  | .enumeration _ _ => .enumeration
  | .composition _ c _ => .composition c
  | .primitive _ => .primitive

/-- The node joins other schemas. -/
def isComposition : Node → Bool
  | .composition _ _ _ => true
  | _ => false

end Node

/-! ### Walks -/

mutual

/-- The node and every node below it, each before the nodes below it. -/
def Node.preorder : Node → List Node
  | .absent => [.absent]
  | .unknown f => [.unknown f]
  | .empty f => [.empty f]
  | .reference f r => [.reference f r]
  | .array f none => [.array f none]
  | .array f (some items) => .array f (some items) :: items.preorder
  | .object f ps r a => .object f ps r a :: (Node.preorderFields ps ++ a.preorder)
  | .enumeration f vs => [.enumeration f vs]
  | .composition f c ms => .composition f c ms :: Node.preorderMembers ms
  | .primitive f => [.primitive f]

/-- The nodes of properties, in order. -/
def Node.preorderFields : List (String × Node) → List Node
  | [] => []
  | (_, node) :: rest => node.preorder ++ Node.preorderFields rest

/-- The nodes of members, in order. -/
def Node.preorderMembers : List Node → List Node
  | [] => []
  | node :: rest => node.preorder ++ Node.preorderMembers rest

/-- The nodes of what an object allows besides its properties. -/
def Additional.preorder : Additional → List Node
  | .unstated => []
  | .flag _ => []
  | .schema node => node.preorder

end

mutual

/-- How deep objects and arrays nest in a node; scalars and references nest nothing. -/
def Node.depth : Node → Nat
  | .array _ none => 1
  | .array _ (some items) => items.depth + 1
  | .object _ ps _ a => max (Node.fieldsDepth ps) a.depth + 1
  | .composition _ _ ms => Node.membersDepth ms
  | _ => 0

/-- The greatest depth of properties. -/
def Node.fieldsDepth : List (String × Node) → Nat
  | [] => 0
  | (_, node) :: rest => max node.depth (Node.fieldsDepth rest)

/-- The greatest depth of members. -/
def Node.membersDepth : List Node → Nat
  | [] => 0
  | node :: rest => max node.depth (Node.membersDepth rest)

/-- The depth of what an object allows besides its properties. -/
def Additional.depth : Additional → Nat
  | .schema node => node.depth
  | _ => 0

end

namespace Node

/-- The number of properties a node names itself. -/
def ownPropertyCount : Node → Nat
  | .object _ ps _ _ => ps.length
  | _ => 0

/-- The number of properties named at any depth. -/
def propertyCount (node : Node) : Nat :=
  (node.preorder.map ownPropertyCount).foldr (· + ·) 0

/-- The number of nodes that join other schemas. -/
def compositionCount (node : Node) : Nat := node.preorder.countP isComposition

/-- A node comes first in its own walk. -/
theorem head?_preorder (node : Node) : node.preorder.head? = some node := by
  cases node with
  | array f items => cases items <;> simp [preorder]
  | _ => simp [preorder]

end Node

end SchemaCodegen
