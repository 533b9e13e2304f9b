import SchemaCodegen.Proofs.Schema.Classify

/-!
# Schemas read alike

What is recognised in a schema depends on little of it: on its facts, its shape, and the schemas
inside.  Two schemas that agree in these (`SchemasBeside`) have one node, up to the data that nodes
keep, their keywords and the values of enumerations (`SchemasBeside.node_eq`).  Which part of that
data counts is left open: a `Reading` says what becomes of it.

The schemas inside need not have equal nodes.  It is enough that their nodes are in a relation that
goes through the nodes around them (`Compatible`), such as that of nodes that are rendered alike;
then the whole nodes are in it (`SchemasBeside.beside_node`).

The theorems are about one schema and the schemas directly inside; they are the step of an induction
along the recognition.
-/

namespace SchemaCodegen

/-! ### Facts and shape -/

/-- The keywords that the facts of a schema are read from, besides keeping all keywords. -/
def factKeywords : List String := ["type", "format", "nullable", "x-nullable"]

/-- Schemas with the same values under these keywords say the same. -/
theorem factsOf_congr {g : Anchors} {es es' : Entries}
    (same : ∀ key ∈ factKeywords, Entries.get? es' key = Entries.get? es key) :
    factsOf g es' = { factsOf g es with keywords := es' } := by
  unfold factsOf statedType Entries.string? Entries.isSet
  rw [same "type" (by decide), same "format" (by decide), same "nullable" (by decide),
    same "x-nullable" (by decide)]

/-- Schemas that say the same have the same shape when the same keywords bear on it, and the same
of them have an object or a list; only a reference and an enumeration have their value in it. -/
theorem formOf_congr {g : Anchors} {es es' : Entries}
    (facts : factsOf g es' = { factsOf g es with keywords := es' })
    (has : ∀ key ∈ shapeKeywords, Entries.has es' key = Entries.has es key)
    (reference : Entries.string? es' "$ref" = Entries.string? es "$ref")
    (values : g.listAt? es' "enum" = g.listAt? es "enum")
    (properties : (g.objectAt? es' "properties").isSome = (g.objectAt? es "properties").isSome)
    (members : ∀ c : Combinator,
      (g.listAt? es' c.keyword).isSome = (g.listAt? es c.keyword).isSome) :
    formOf g es' = formOf g es := by
  have bearing : shapeKeywords.any (Entries.has es') = shapeKeywords.any (Entries.has es) := by
    rw [Bool.eq_iff_iff, List.any_eq_true, List.any_eq_true]
    exact exists_congr fun key => and_congr_right fun mem => by rw [has key mem]
  have joined : compositionOf? g es' = compositionOf? g es := by
    unfold compositionOf?
    simp only [members]
  have intersected := members .allOf
  rw [Combinator.keyword] at intersected
  unfold formOf
  simp only [bearing, facts, reference, values, properties, joined, intersected,
    has "items" (by decide), has "additionalProperties" (by decide)]

/-! ### The data that a node keeps -/

section Recast

variable (keywords : Entries → Entries) (listed : Value → Value)

/-- The facts with other keywords. -/
def Facts.recast (f : Facts) : Facts := { f with keywords := keywords f.keywords }

/-- The shape with other values in an enumeration. -/
def Form.recast : Form → Form
  | .enumeration values => .enumeration (values.map listed)
  | form => form

mutual

/-- The node with other data: other keywords, and other values in enumerations. -/
def Node.recast : Node → Node
  | .absent => .absent
  | .unknown f => .unknown (f.recast keywords)
  | .empty f => .empty (f.recast keywords)
  | .reference f ref => .reference (f.recast keywords) ref
  | .array f none => .array (f.recast keywords) none
  | .array f (some items) => .array (f.recast keywords) (some items.recast)
  | .object f ps required additional =>
    .object (f.recast keywords) (Node.recastFields ps) required additional.recast
  | .enumeration f values => .enumeration (f.recast keywords) (values.map listed)
  | .composition f c members => .composition (f.recast keywords) c (Node.recastMembers members)
  | .primitive f => .primitive (f.recast keywords)

/-- Properties with other data in their nodes. -/
def Node.recastFields : List (String × Node) → List (String × Node)
  | [] => []
  | (name, node) :: rest => (name, node.recast) :: Node.recastFields rest

/-- Members with other data. -/
def Node.recastMembers : List Node → List Node
  | [] => []
  | node :: rest => node.recast :: Node.recastMembers rest

/-- What an object allows besides its properties, with other data. -/
def Additional.recast : Additional → Additional
  | .unstated => .unstated
  | .flag allowed => .flag allowed
  | .schema node => .schema node.recast

end

theorem recastFields_eq (fields : List (String × Node)) :
    Node.recastFields keywords listed fields
      = fields.map fun field => (field.1, field.2.recast keywords listed) := by
  induction fields with
  | nil => rfl
  | cons field fields ih => rw [Node.recastFields, ih, List.map_cons]

theorem recastMembers_eq (members : List Node) :
    Node.recastMembers keywords listed members = members.map (Node.recast keywords listed) := by
  induction members with
  | nil => rfl
  | cons member members ih => rw [Node.recastMembers, ih, List.map_cons]

end Recast

theorem Form.recast_id (form : Form) : form.recast (fun v => v) = form := by
  cases form with
  | enumeration values => rw [Form.recast, List.map_id']
  | _ => rfl

mutual

/-- A node whose data stays is the same. -/
theorem Node.recast_id : (node : Node) → node.recast (fun es => es) (fun v => v) = node
  | .absent | .unknown _ | .empty _ | .reference _ _ | .array _ none | .primitive _ => rfl
  | .array f (some items) => by
      rw [Node.recast, Node.recast_id items]
      rfl
  | .object f ps required additional => by
      rw [Node.recast, Node.recastFields_id ps, Additional.recast_id additional]
      rfl
  | .enumeration f values => by
      rw [Node.recast, List.map_id']
      rfl
  | .composition f c members => by
      rw [Node.recast, Node.recastMembers_id members]
      rfl

theorem Node.recastFields_id : (fields : List (String × Node)) →
    Node.recastFields (fun es => es) (fun v => v) fields = fields
  | [] => rfl
  | (name, node) :: rest => by
      rw [Node.recastFields, Node.recast_id node, Node.recastFields_id rest]

theorem Node.recastMembers_id : (members : List Node) →
    Node.recastMembers (fun es => es) (fun v => v) members = members
  | [] => rfl
  | node :: rest => by
      rw [Node.recastMembers, Node.recast_id node, Node.recastMembers_id rest]

theorem Additional.recast_id : (additional : Additional) →
    additional.recast (fun es => es) (fun v => v) = additional
  | .unstated | .flag _ => rfl
  | .schema node => by rw [Additional.recast, Node.recast_id node]

end

/-! ### Readings -/

/-- A reading of schemas: below the active anchors of a document, and with what becomes of the
data that nodes keep. -/
structure Reading where
  anchors : Anchors
  active : List Nat := []
  keywords : Entries → Entries := fun es => es
  listed : Value → Value := fun v => v

namespace Reading

variable (r : Reading) (es : Entries)

/-- A node as it is read. -/
def recast (node : Node) : Node := node.recast r.keywords r.listed

/-- The node of a schema as it is read. -/
def node (v : Value) : Traced Node := r.recast <$> Node.classify r.anchors r.active v

/-- The node of the items as it is read. -/
def items : Traced (Option Node) :=
  Option.map r.recast <$> Node.itemsOf r.anchors r.active es

/-- The nodes of members as they are read. -/
def members (c : Combinator) : Traced (List Node) :=
  List.map r.recast <$> Node.membersOf r.anchors r.active es c.keyword

/-- The nodes of properties as they are read. -/
def properties : Traced (List (String × Node)) :=
  List.map (fun field => (field.1, r.recast field.2)) <$> Node.propertiesOf r.anchors r.active es

/-- What is allowed besides properties as it is read. -/
def additional : Traced Additional :=
  Additional.recast r.keywords r.listed <$> Node.additionalOf r.anchors r.active es

/-- The facts as they are read. -/
def facts : Facts := (factsOf r.anchors es).recast r.keywords

/-- The shape as it is read. -/
def form : Form := (formOf r.anchors es).recast r.listed

/-- An object as it is read, with the given facts. -/
def object (facts : Facts) : Traced Node := do
  let properties ← r.properties es
  let additional ← r.additional es
  pure (.object { facts with type := some "object" } properties (requiredNames r.anchors es)
    additional)

/-- A schema as it is read, put together from what is read of it. -/
def schema : Traced Node :=
  match r.form es with
  | .empty => pure (.empty (r.facts es))
  | .reference ref => pure (.reference (r.facts es) ref)
  | .array => .array (r.facts es) <$> r.items es
  | .object => r.object es (r.facts es)
  | .intersection => do
    let own ← r.object es { r.facts es with nullable := false }
    pure (.composition (r.facts es) .allOf ((← r.members es .allOf) ++ [own]))
  | .enumeration values => pure (.enumeration (r.facts es) values)
  | .composition c => .composition (r.facts es) c <$> r.members es c
  | .primitive => pure (.primitive (r.facts es))
  | .unknown => pure (.unknown (r.facts es))

/-- The object node of a schema is read as the parts are. -/
theorem recast_ofFields (facts : Facts) :
    r.recast <$> Node.ofFields r.anchors r.active es facts
      = r.object es (facts.recast r.keywords) := by
  rw [Node.ofFields, object, properties, additional]
  simp only [map_bind, map_pure, bind_map_left, recast, Node.recast, recastFields_eq, Facts.recast]

/-- The node of a schema is read as its parts are. -/
theorem recast_ofEntries_eq :
    r.recast <$> Node.ofEntries r.anchors r.active es = r.schema es := by
  rw [Node.ofEntries, schema, form, facts]
  cases formOf r.anchors es with
  | array =>
      dsimp only [Form.recast]
      rw [items, map_bind, Functor.map_map, map_eq_pure_bind]
      refine bind_congr fun items => ?_
      cases items <;> rfl
  | object => exact r.recast_ofFields es _
  | intersection =>
      have own := r.recast_ofFields es { factsOf r.anchors es with nullable := false }
      dsimp only [Form.recast, Facts.recast] at own ⊢
      rw [← own, members]
      simp only [map_bind, map_pure, bind_map_left, recast, Node.recast, recastMembers_eq,
        List.map_append, List.map_cons, List.map_nil, Facts.recast]
      rfl
  | composition c =>
      dsimp only [Form.recast]
      rw [members, map_bind, Functor.map_map, map_eq_pure_bind]
      refine bind_congr fun members => ?_
      rw [map_pure, recast, Node.recast, recastMembers_eq]
      rfl
  | _ => rfl

end Reading

/-! ### Computations side by side -/

namespace Traced

variable {α β γ δ : Type} {R : α → β → Prop} {S : γ → δ → Prop}

/-- The computations give the same notices, and have results side by side or the same failure. -/
inductive Beside (R : α → β → Prop) : Traced α → Traced β → Prop
  | ok {a : α} {b : β} {notices : List Notice} (here : R a b) :
      Beside R ⟨.ok a, notices⟩ ⟨.ok b, notices⟩
  | error {failure : Failure} {notices : List Notice} :
      Beside R ⟨.error failure, notices⟩ ⟨.error failure, notices⟩

theorem beside_pure {a : α} {b : β} (here : R a b) : Beside R (pure a) (pure b) := .ok here

theorem beside_refl {R : α → α → Prop} (refl : ∀ a, R a a) (x : Traced α) : Beside R x x := by
  obtain ⟨result, notices⟩ := x
  cases result with
  | error failure => exact .error
  | ok a => exact .ok (refl a)

theorem beside_of_eq {x y : Traced α} (same : y = x) : Beside (· = ·) x y := by
  rw [same]
  exact beside_refl (fun _ => rfl) x

theorem Beside.eq {x y : Traced α} (beside : Beside (· = ·) x y) : x = y := by
  cases beside with
  | ok here => rw [here]
  | error => rfl

/-- What results there are stand side by side. -/
theorem Beside.related {x : Traced α} {y : Traced β} {a : α} {b : β} (beside : Beside R x y)
    (left : x.result = .ok a) (right : y.result = .ok b) : R a b := by
  cases beside with
  | error => cases left
  | ok here =>
      cases left
      cases right
      exact here

/-- One step after another, side by side. -/
theorem Beside.bind {x : Traced α} {y : Traced β} {f : α → Traced γ} {h : β → Traced δ}
    (first : Beside R x y) (next : ∀ a b, R a b → Beside S (f a) (h b)) :
    Beside S (x >>= f) (y >>= h) := by
  cases first with
  | error => exact .error
  | @ok a b notices here =>
      show Beside S ⟨(f a).result, notices ++ (f a).notices⟩
        ⟨(h b).result, notices ++ (h b).notices⟩
      have after := next a b here
      generalize f a = x, h b = y at after
      cases after with
      | ok there => exact .ok there
      | error => exact .error

theorem Beside.map {x : Traced α} {y : Traced β} {f : α → γ} {h : β → δ} (first : Beside R x y)
    (next : ∀ a b, R a b → S (f a) (h b)) : Beside S (f <$> x) (h <$> y) := by
  rw [map_eq_pure_bind, map_eq_pure_bind]
  exact first.bind fun a b here => beside_pure (next a b here)

/-- Lists of computations that are side by side. -/
theorem beside_mapM {f : α → Traced γ} {h : β → Traced δ} {xs : List α} {ys : List β}
    (each : List.Forall₂ (fun x y => Beside S (f x) (h y)) xs ys) :
    Beside (List.Forall₂ S) (xs.mapM f) (ys.mapM h) := by
  induction each with
  | nil => exact beside_pure .nil
  | cons here _ ih =>
      rw [List.mapM_cons, List.mapM_cons]
      exact here.bind fun _ _ first => ih.bind fun _ _ rest => beside_pure (.cons first rest)

/-- Results are mapped one by one or all at the end. -/
theorem map_mapM {f : α → Traced β} {k : β → γ} (xs : List α) :
    List.map k <$> xs.mapM f = xs.mapM fun x => k <$> f x := by
  induction xs with
  | nil => rfl
  | cons x xs ih =>
      rw [List.mapM_cons, List.mapM_cons, ← ih]
      simp only [map_bind, map_pure, List.map_cons, bind_map_left]

end Traced

open Traced (Beside beside_pure beside_mapM)

/-! ### Relations of nodes -/

section Compatible

variable (R : Node → Node → Prop)

/-- Properties side by side: they have the same names, and nodes side by side. -/
def FieldsBeside : List (String × Node) → List (String × Node) → Prop :=
  List.Forall₂ fun p p' => p'.1 = p.1 ∧ R p.2 p'.2

/-- What objects allow besides their properties, side by side. -/
inductive AdditionalBeside : Additional → Additional → Prop
  | unstated : AdditionalBeside .unstated .unstated
  | flag (allowed : Bool) : AdditionalBeside (.flag allowed) (.flag allowed)
  | schema {node node' : Node} (here : R node node') :
      AdditionalBeside (.schema node) (.schema node')

/-- A relation that nodes with the same facts are in when the nodes directly inside are. -/
structure Compatible : Prop where
  refl : ∀ node, R node node
  array : ∀ {f : Facts} {items items' : Option Node}, Option.Rel R items items' →
    R (.array f items) (.array f items')
  object : ∀ {f : Facts} {ps ps' : List (String × Node)} {required : List String}
    {additional additional' : Additional}, FieldsBeside R ps ps' →
    AdditionalBeside R additional additional' →
    R (.object f ps required additional) (.object f ps' required additional')
  composition : ∀ {f : Facts} {c : Combinator} {members members' : List Node},
    List.Forall₂ R members members' → R (.composition f c members) (.composition f c members')

end Compatible

theorem compatible_eq : Compatible (· = ·) where
  refl _ := rfl
  array items := by
    cases items with
    | none => rfl
    | some same => rw [same]
  object fields additional := by
    have same_fields := fields.imp fun p p' both => Prod.ext both.1.symm both.2
    rw [List.forall₂_eq_eq_eq] at same_fields
    cases additional with
    | unstated => rw [same_fields]
    | flag allowed => rw [same_fields]
    | schema same => rw [same_fields, same]
  composition members := by
    rw [List.forall₂_eq_eq_eq] at members
    rw [members]

/-! ### Two readings -/

variable {R : Node → Node → Prop} {r r' : Reading} {es es' : Entries} {v v' : Value}

/-- `ValuesBeside R r r' v v'`: one value as it is read, and another, where a schema may stand;
their nodes are in the relation. -/
structure ValuesBeside (R : Node → Node → Prop) (r r' : Reading) (v v' : Value) : Prop where
  null : v'.isNull = v.isNull
  flag : v'.bool? = v.bool?
  object : r'.anchors.isObject v' = r.anchors.isObject v
  node : Beside R (r.node v) (r'.node v')

/-- `SchemasBeside R r r' es es'`: two schemas agree in all that is recognised in them, each in its
reading, up to the relation for the nodes directly inside. -/
structure SchemasBeside (R : Node → Node → Prop) (r r' : Reading) (es es' : Entries) : Prop where
  facts : r'.facts es' = r.facts es
  form : r'.form es' = r.form es
  required : requiredNames r'.anchors es' = requiredNames r.anchors es
  items : Option.Rel (ValuesBeside R r r') (Entries.get? es "items") (Entries.get? es' "items")
  additional : Option.Rel (ValuesBeside R r r') (Entries.get? es "additionalProperties")
    (Entries.get? es' "additionalProperties")
  properties : Option.Rel
    (List.Forall₂ fun p p' => p'.1 = p.1 ∧ ValuesBeside R r r' p.2 p'.2)
    (r.anchors.objectAt? es "properties") (r'.anchors.objectAt? es' "properties")
  members : ∀ c : Combinator, Option.Rel (List.Forall₂ (ValuesBeside R r r'))
    (r.anchors.listAt? es c.keyword) (r'.anchors.listAt? es' c.keyword)

namespace SchemasBeside

variable (beside : SchemasBeside R r r' es es')

include beside

theorem beside_items : Beside (Option.Rel R) (r.items es) (r'.items es') := by
  have opened (r : Reading) (u : Value) : Option.map r.recast <$>
        (if u.isNull then pure none else some <$> Node.classify r.anchors r.active u)
      = if u.isNull then pure none else some <$> r.node u := by
    split
    · rfl
    · rw [Reading.node, Functor.map_map, Functor.map_map]
      rfl
  unfold Reading.items
  obtain ⟨none, none'⟩ | ⟨v, v', found, found', here⟩ := cases_of_rel beside.items
  · rw [itemsOf_of_none none, itemsOf_of_none none']
    exact beside_pure .none
  · rw [itemsOf_of_found found, itemsOf_of_found found', opened, opened, here.null]
    split
    · exact beside_pure .none
    · exact here.node.map fun _ _ => .some

theorem beside_members (c : Combinator) :
    Beside (List.Forall₂ R) (r.members es c) (r'.members es' c) := by
  unfold Reading.members
  obtain ⟨none, none'⟩ | ⟨vs, vs', found, found', here⟩ := cases_of_rel (beside.members c)
  · rw [membersOf_of_none none, membersOf_of_none none']
    exact beside_pure .nil
  · rw [membersOf_of_listAt? found, membersOf_of_listAt? found', Traced.map_mapM, Traced.map_mapM]
    exact beside_mapM (here.imp fun _ _ both => both.node)

theorem beside_properties : Beside (FieldsBeside R) (r.properties es) (r'.properties es') := by
  have opened (r : Reading) (p : Scalar × Value) :
      (fun field : String × Node => (field.1, r.recast field.2))
        <$> (do pure (p.1.shown, ← Node.classify r.anchors r.active p.2))
      = (p.1.shown, ·) <$> r.node p.2 := by
    rw [Reading.node, Functor.map_map, map_bind]
    rfl
  unfold Reading.properties
  obtain ⟨none, none'⟩ | ⟨ps, ps', found, found', here⟩ := cases_of_rel beside.properties
  · rw [propertiesOf_of_none none, propertiesOf_of_none none']
    exact beside_pure .nil
  · rw [propertiesOf_of_objectAt? found, propertiesOf_of_objectAt? found', Traced.map_mapM,
      Traced.map_mapM]
    refine beside_mapM (here.imp ?_)
    rintro p p' ⟨same_name, both⟩
    rw [opened, opened, same_name]
    exact both.node.map fun _ _ related => ⟨rfl, related⟩

theorem beside_additional :
    Beside (AdditionalBeside R) (r.additional es) (r'.additional es') := by
  have opened (r : Reading) (u : Value) :
      Additional.recast r.keywords r.listed
        <$> (Additional.schema <$> Node.classify r.anchors r.active u)
      = Additional.schema <$> r.node u := by
    rw [Reading.node, Functor.map_map, Functor.map_map]
    rfl
  unfold Reading.additional
  obtain ⟨none, none'⟩ | ⟨v, v', found, found', here⟩ := cases_of_rel beside.additional
  · rw [additionalOf_of_none none, additionalOf_of_none none']
    exact beside_pure .unstated
  · rw [additionalOf_of_found found, additionalOf_of_found found', here.flag, here.object]
    cases v.bool? with
    | some b => exact beside_pure (.flag b)
    | none =>
        cases r.anchors.isObject v with
        | true =>
            dsimp only
            rw [if_pos rfl, if_pos rfl, opened, opened]
            exact here.node.map fun _ _ => .schema
        | false => exact beside_pure .unstated

/-- Objects with the same facts are in a relation when what is inside them is. -/
theorem beside_object (compatible : Compatible R) (facts : Facts) :
    Beside R (r.object es facts) (r'.object es' facts) := by
  rw [Reading.object, Reading.object, beside.required]
  refine beside.beside_properties.bind fun _ _ fields => ?_
  exact beside.beside_additional.bind fun _ _ additional =>
    beside_pure (compatible.object fields additional)

/-- **Schemas that agree in what is recognised in them**, up to a relation for the nodes directly
inside, have nodes in this relation. -/
theorem beside_node (compatible : Compatible R) :
    Beside R (r.recast <$> Node.ofEntries r.anchors r.active es)
      (r'.recast <$> Node.ofEntries r'.anchors r'.active es') := by
  rw [r.recast_ofEntries_eq, r'.recast_ofEntries_eq, Reading.schema, Reading.schema, beside.form,
    beside.facts]
  cases r.form es with
  | array => exact beside.beside_items.map fun _ _ => compatible.array
  | object => exact beside.beside_object compatible _
  | intersection =>
      refine (beside.beside_object compatible _).bind fun _ _ own => ?_
      refine (beside.beside_members .allOf).bind fun _ _ members => beside_pure ?_
      exact compatible.composition (List.rel_append members (.cons own .nil))
  | composition c => exact (beside.beside_members c).map fun _ _ => compatible.composition
  | _ => exact beside_pure (compatible.refl _)

end SchemasBeside

/-! ### Equal nodes -/

/-- Schemas that agree in what is recognised in them have the same node, as it is read, when the
schemas directly inside have. -/
theorem SchemasBeside.node_eq (beside : SchemasBeside (· = ·) r r' es es') :
    r'.recast <$> Node.ofEntries r'.anchors r'.active es'
      = r.recast <$> Node.ofEntries r.anchors r.active es :=
  (beside.beside_node compatible_eq).eq.symm

end SchemaCodegen
