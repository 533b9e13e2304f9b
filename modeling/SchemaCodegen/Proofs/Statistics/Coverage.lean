import Mathlib
import SchemaCodegen.Proofs.Cycle.Circular
import SchemaCodegen.Proofs.Schema.Classify
import SchemaCodegen.Proofs.TypeScript.Named
import SchemaCodegen.Statistics.Measure

/-!
# The dependency graph covers the types

The edges of the dependency graph come from a scan for references in the data, the identifiers in
a declaration from the node of the schema.  The two walks end in different places: the node is
cut where a schema is met inside itself, and looks into keywords that hold schemas only; the
scan looks into everything and ends where any container is met inside itself.  Still each
identifier has its edge (`dependencyGraph_covers_types`), since a reference that the node has
as a leaf is one in the data (`mem_references_of_mem_preorder`).
-/

namespace SchemaCodegen

open TypeScript

variable {g : Anchors} {d : Entries} {c : Context}

/-! ### The graph -/

/-- `Describes g d e node`: the node of the graph has the name and the dependencies of an entry. -/
def Describes (g : Anchors) (d : Entries) (e : Scalar × Value) (node : DependencyNode) : Prop :=
  e.1 = .string node.name ∧ node.dependencies = dependencies g e.2 d

/-- A schema under a text has a node in the graph, at which no edge is noted yet. -/
theorem gives_dependencyNode (circular : List String) {e : Scalar × Value} {name : String}
    (key : e.1 = .string name) : (dependencyNode g d circular e).Gives fun node =>
      Describes g d e node ∧ node.dependents = [] := by
  obtain ⟨shape, found⟩ := exists_classify g [] e.2
  have measured : (complexity g e.2).Gives (· = complexityOf g e.2 shape) :=
    ⟨_, Traced.result_bind_eq_ok.2 ⟨shape, found, rfl⟩, rfl⟩
  rw [dependencyNode]
  refine measured.bind fun size _ => ?_
  rw [key]
  exact Traced.gives_pure ⟨⟨key, rfl⟩, rfl⟩

/-- Noting edges changes neither the names nor the dependencies. -/
theorem forall₂_foldl_noteDependent (edges : List (String × String))
    {nodes : List DependencyNode} (aligned : List.Forall₂ (Describes g d) d nodes) :
    List.Forall₂ (Describes g d) d (edges.foldl noteDependent nodes) := by
  induction edges generalizing nodes with
  | nil => exact aligned
  | cons edge edges ih =>
      refine ih (List.forall₂_map_right_iff.2 (aligned.imp fun e node describes => ?_))
      split
      · exact describes
      · exact describes

/-- A dictionary of texts has a graph: nodes beside the schemas, with their dependents. -/
theorem gives_withDependents (texts : ∀ key ∈ Entries.keys d, ∃ name, key = .string name) :
    (dependencyGraph g d).Gives fun nodes => ∃ bare, nodes = withDependents bare ∧
      List.Forall₂ (Describes g d) d bare ∧ ∀ node ∈ bare, node.dependents = [] := by
  obtain ⟨circular, reported⟩ := circularNames_isOk (g := g) texts
  have given : (circularNames g d).Gives (· = circular) := ⟨circular, reported, rfl⟩
  rw [dependencyGraph]
  refine given.bind fun circular _ => ?_
  have each : (d.mapM (dependencyNode g d circular)).Gives
      (List.Forall₂ (fun e node => Describes g d e node ∧ node.dependents = []) d) :=
    Traced.gives_forall₂ fun e mem => by
      obtain ⟨name, key⟩ := texts e.1 (List.mem_map_of_mem mem)
      exact gives_dependencyNode circular key
  refine each.map fun bare aligned => ⟨bare, rfl, aligned.imp fun _ _ both => both.1, ?_⟩
  intro node mem
  obtain ⟨e, -, -, none_noted⟩ := exists_of_mem_left aligned.flip mem
  exact none_noted

/-- A dictionary of texts has a graph, whose nodes stand beside the schemas. -/
theorem gives_dependencyGraph (texts : ∀ key ∈ Entries.keys d, ∃ name, key = .string name) :
    (dependencyGraph g d).Gives (List.Forall₂ (Describes g d) d) := by
  refine (gives_withDependents texts).imp ?_
  rintro _ ⟨bare, rfl, aligned, -⟩
  exact forall₂_foldl_noteDependent _ aligned

/-! ### Declarations -/

/-- The target of a reference below the node of a schema is a dependency. -/
theorem mem_dependencies_of_targets {schema : Value} {shape : Node} {n : String}
    (found : (Node.ofSchema g schema).result = .ok shape) (knows : c.dictionary = some d)
    (targets : Targets c shape.preorder n) : n ∈ dependencies g schema d := by
  obtain ⟨f, ref, leaf, known⟩ := targets
  rw [knows] at known
  obtain ⟨named, has⟩ := Option.filter_eq_some_iff.1 known
  exact mem_dependencies.2
    ⟨Entries.has_iff.1 has, ref, mem_references_of_mem_preorder found leaf, named⟩

/-- **The dependency graph covers the generated types.**  A dictionary of texts has a graph, with
a node beside each schema.  In the declaration of the schema the identifiers that stand for
references are those of the references below its node that the dictionary knows; each is written
there, and is that of a dependency. -/
theorem dependencyGraph_covers_types (g : Anchors) (d : Entries) (options : TypeOptions)
    (strict : Bool) (texts : ∀ key ∈ Entries.keys d, ∃ name, key = .string name) :
    ∃ nodes, (dependencyGraph g d).result = .ok nodes ∧
      List.Forall₂ (fun e node => e.1 = .string node.name ∧
        ∀ decl, (declarationOf ⟨g, some d, options, strict⟩ e.1 e.2).result = .ok decl →
          ∃ shape, (Node.ofSchema g e.2).result = .ok shape ∧
            ∀ n, ((Placed.mk 0 decl.type).Names n ↔ ∃ f ref, Node.reference f ref ∈ shape.preorder
                ∧ knownName? (some d) ref = some n) ∧
              ((Placed.mk 0 decl.type).Names n →
                (typeName n).toList <:+: decl.text.toList ∧ n ∈ node.dependencies)) d nodes := by
  obtain ⟨nodes, found, aligned⟩ := gives_dependencyGraph (g := g) texts
  refine ⟨nodes, found, aligned.imp ?_⟩
  rintro e node ⟨key, depends⟩
  refine ⟨key, fun decl declared => ?_⟩
  obtain ⟨-, shape, recognised, rendered⟩ := declarationOf_eq_ok declared
  refine ⟨shape, recognised, fun n => ?_⟩
  have exactly := names_ofNode (n := n) shape rendered 0
  refine ⟨exactly, fun names => ⟨?_, ?_⟩⟩
  · exact decl.written.named n names
  · rw [depends]
    exact mem_dependencies_of_targets recognised rfl (exactly.1 names)

/-- An order that contains itself, and a reference to its customer beside that. -/
def orderAnchors : Anchors where
  containers :=
    [.object [(.string "type", .scalar (.string "object")), (.string "properties", .anchor 1)],
     .object [(.string "origin", .anchor 0), (.string "customer", .anchor 2)],
     .object [(.string "$ref", .scalar (.string "#/components/schemas/Customer"))]]

/-- Orders and customers. -/
def orderSchemas : Entries :=
  [(.string "Order", .aliasTo 0), (.string "Customer", .record [("type", .string "string")])]

/-- The declaration of orders: the order inside is cut, and the customer is named. -/
def orderDeclaration : Declaration where
  name := "Order"
  comment := none
  type := .structure
    [.mk none false "origin" true .any, .mk none false "customer" true (.named "Customer")] none

theorem declarationOf_order :
    (declarationOf ⟨orderAnchors, some orderSchemas, {}, false⟩ (.string "Order")
      (.aliasTo 0)).result = .ok orderDeclaration := by
  cbv

/-- Orders depend on customers in the graph, as their declaration names them. -/
theorem dependencyGraph_covers_orders :
    (∀ key ∈ Entries.keys orderSchemas, ∃ name, key = .string name) ∧
      ∃ nodes, (dependencyGraph orderAnchors orderSchemas).result = .ok nodes ∧
        ∃ node ∈ nodes, node.name = "Order" ∧ "Customer" ∈ node.dependencies := by
  have texts : ∀ key ∈ Entries.keys orderSchemas, ∃ name, key = .string name := by
    simp [orderSchemas, Entries.keys]
  obtain ⟨nodes, found, aligned⟩ :=
    dependencyGraph_covers_types orderAnchors orderSchemas {} false texts
  obtain ⟨node, mem, key, covers⟩ := exists_of_mem_left aligned (List.mem_cons_self)
  obtain ⟨shape, -, exactly⟩ := covers orderDeclaration declarationOf_order
  have names : (Placed.mk 0 orderDeclaration.type).Names "Customer" :=
    ⟨1, .single (List.mem_cons_of_mem _ List.mem_cons_self)⟩
  exact ⟨texts, nodes, found, node, mem, (Scalar.string.inj key).symm,
    ((exactly "Customer").2 names).2⟩

end SchemaCodegen
