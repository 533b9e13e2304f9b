import SchemaCodegen.Proofs.Cycle.Emission
import SchemaCodegen.Proofs.Statistics.Coverage

/-!
# The dependency graph can be read both ways

The edges of the dependency graph stand in it twice: at the schema that refers, among its
dependencies, and at the schema that is referred to, among its dependents.  A dictionary of
different names has a graph in which the two agree (`dependencyGraph_twoWay`), whatever its schemas
refer to: themselves, each other, one name several times or under both roots, or names that the
dictionary does not have.

### What is load-bearing

* `dependencies` keeps a name where a reference gives it first, so the places of first mention
  increase along it (`pairwise_dependencies`), and no name can stand in it twice.
* The dependents of a node are a part of all names, in their order (`TwoWay.dependents_in_order`).
  That the names differ is needed for the edges alone: a node is found again by its name.
* `withDependents` takes the edges one after the other, and notes each at the node it leads to.
  That comes to gathering the dependents of each node at once (`withDependents_eq_map`).
-/

namespace SchemaCodegen

variable {g : Anchors} {d : Entries} {schema : Value} {nodes : List DependencyNode}

/-! ### First mentions -/

/-- The place among the references of a schema at which a name is first given. -/
def firstMention (g : Anchors) (schema : Value) (name : String) : Nat :=
  (g.references schema).findIdx fun ref => schemaName? ref == some name

/-- A further entry is kept at the end, unless it is there already. -/
theorem keepFirst_concat {α : Type} [DecidableEq α] (xs : List α) (x : α) :
    keepFirst (xs ++ [x]) = if x ∈ keepFirst xs then keepFirst xs else keepFirst xs ++ [x] := by
  rw [keepFirst, List.foldl_append]
  rfl

/-- What a list gives is kept in the order in which it is first given. -/
theorem pairwise_keepFirst {α β : Type} [DecidableEq β] (f : α → Option β) (xs : List α) :
    (keepFirst (xs.filterMap f)).Pairwise fun b c =>
      xs.findIdx (f · == some b) < xs.findIdx (f · == some c) := by
  induction xs using List.reverseRecOn with
  | nil => exact List.Pairwise.nil
  | append_singleton xs x ih =>
      -- What is given already is given at the same place in the longer list.
      have given {b : β} (mem : b ∈ keepFirst (xs.filterMap f)) :
          xs.findIdx (f · == some b) < xs.length
            ∧ (xs ++ [x]).findIdx (f · == some b) = xs.findIdx (f · == some b) := by
        obtain ⟨a, at_a, gives⟩ := List.mem_filterMap.1 (mem_keepFirst.1 mem)
        have found : xs.findIdx (f · == some b) < xs.length :=
          List.findIdx_lt_length_of_exists ⟨a, at_a, by simp [gives]⟩
        exact ⟨found, by rw [List.findIdx_append, if_pos found]⟩
      have still : (keepFirst (xs.filterMap f)).Pairwise fun b c =>
          (xs ++ [x]).findIdx (f · == some b) < (xs ++ [x]).findIdx (f · == some c) := by
        refine ih.imp_of_mem fun {b c} at_b at_c before => ?_
        rw [(given at_b).2, (given at_c).2]
        exact before
      rw [List.filterMap_append, List.filterMap_cons, List.filterMap_nil]
      cases gives : f x with
      | none =>
          rw [List.append_nil]
          exact still
      | some b =>
          rw [keepFirst_concat]
          split
          · exact still
          · next new =>
              refine List.pairwise_append.2 ⟨still, List.pairwise_singleton _ _, ?_⟩
              intro a at_a c at_c
              obtain rfl := List.mem_singleton.1 at_c
              have later : xs.findIdx (f · == some c) = xs.length := by
                refine List.findIdx_eq_length.2 fun a mem => ?_
                rw [beq_eq_false_iff_ne]
                intro gives
                exact new (mem_keepFirst.2 (List.mem_filterMap.2 ⟨a, mem, gives⟩))
              rw [(given at_a).2, List.findIdx_append, later, if_neg (Nat.lt_irrefl _)]
              exact (given at_a).1.trans_le (Nat.le_add_left _ _)

/-- The dependencies of a schema stand in the order in which it first mentions them. -/
theorem pairwise_dependencies (g : Anchors) (schema : Value) (d : Entries) :
    (dependencies g schema d).Pairwise fun a b =>
      firstMention g schema a < firstMention g schema b := by
  have ordered := pairwise_keepFirst
    (fun ref => (schemaName? ref).filter (Entries.has d)) (g.references schema)
  refine List.Pairwise.imp_of_mem (fun {a b} at_a at_b before => ?_) ordered
  -- A name of the dictionary is given by the same references with the filter as without.
  have same {name : String} (mem : name ∈ dependencies g schema d) :
      (g.references schema).findIdx
          (fun ref => (schemaName? ref).filter (Entries.has d) == some name)
        = firstMention g schema name := by
    have known : Entries.has d name = true := Entries.has_iff.2 (mem_dependencies.1 mem).1
    refine congrArg (fun p => List.findIdx p _) (funext fun ref => ?_)
    rw [Bool.eq_iff_iff, beq_iff_eq, beq_iff_eq, Option.filter_eq_some_iff]
    exact and_iff_left known
  rw [same at_a, same at_b] at before
  exact before

theorem nodup_dependencies : (dependencies g schema d).Nodup :=
  (pairwise_dependencies g schema d).imp fun before => by
    rintro rfl
    exact Nat.lt_irrefl _ before

/-! ### Edges noted one after the other -/

/-- The names from which edges lead to a name. -/
def sourcesOf (edges : List (String × String)) (name : String) : List String :=
  (edges.filter fun edge => edge.2 = name).map (·.1)

/-- Noting edges one after the other appends to each node the names they come from. -/
theorem foldl_noteDependent_eq_map (edges : List (String × String)) (nodes : List DependencyNode) :
    edges.foldl noteDependent nodes = nodes.map fun node =>
      { node with dependents := node.dependents ++ sourcesOf edges node.name } := by
  induction edges generalizing nodes with
  | nil =>
      refine (List.map_id'' (fun node => ?_) nodes).symm
      rw [sourcesOf, List.filter_nil, List.map_nil, List.append_nil]
  | cons edge edges ih =>
      rw [List.foldl_cons, ih, noteDependent, List.map_map]
      refine List.map_congr_left fun node _ => ?_
      rw [Function.comp_apply, sourcesOf, sourcesOf, List.filter_cons]
      by_cases leads : edge.2 = node.name
      · rw [if_pos leads.symm, if_pos (decide_eq_true leads), List.map_cons, List.append_assoc]
        rfl
      · rw [if_neg (Ne.symm leads), if_neg (by simpa using leads)]

/-- The names from which a graph leads to a name are those of the nodes that depend on it. -/
theorem sourcesOf_forwardEdges (once : ∀ node ∈ nodes, node.dependencies.Nodup) (name : String) :
    sourcesOf (forwardEdges nodes) name
      = (nodes.filter (·.dependencies.contains name)).map (·.name) := by
  induction nodes with
  | nil => rfl
  | cons node nodes ih =>
      obtain ⟨here, later⟩ := List.forall_mem_cons.1 once
      have rest := ih later
      unfold sourcesOf forwardEdges at rest ⊢
      rw [List.flatMap_cons, List.filter_append, List.map_append, rest, List.filter_map,
        List.map_map, List.filter_cons]
      show (node.dependencies.filter (· = name)).map (fun _ => node.name) ++ _ = _
      by_cases depends : name ∈ node.dependencies
      · have only : node.dependencies.filter (· = name) = [name] := by
          rw [List.filter_eq, here.count, if_pos depends]
          rfl
        rw [only, if_pos (List.contains_iff_mem.2 depends)]
        rfl
      · have nothing : node.dependencies.filter (· = name) = [] := by
          refine List.filter_eq_nil_iff.2 fun target mem same => depends ?_
          exact of_decide_eq_true same ▸ mem
        rw [nothing, if_neg (mt List.contains_iff_mem.1 depends)]
        rfl

/-- **Noting the edges one after the other** gathers at each node the names of those that depend on
it, in order. -/
theorem withDependents_eq_map (once : ∀ node ∈ nodes, node.dependencies.Nodup)
    (unnoted : ∀ node ∈ nodes, node.dependents = []) :
    withDependents nodes = nodes.map fun node => { node with
      dependents := (nodes.filter (·.dependencies.contains node.name)).map (·.name) } := by
  rw [withDependents, foldl_noteDependent_eq_map]
  refine List.map_congr_left fun node mem => ?_
  rw [sourcesOf_forwardEdges once, unnoted node mem, List.nil_append]

/-! ### Both ways -/

/-- `TwoWay g d nodes`: the nodes are a graph of the dictionary that can be read both ways. -/
structure TwoWay (g : Anchors) (d : Entries) (nodes : List DependencyNode) : Prop where
  one_each : nodes.map (fun node => Scalar.string node.name) = Entries.keys d
  dependency_is_node : ∀ node ∈ nodes, ∀ name ∈ node.dependencies,
    ∃ other ∈ nodes, other.name = name
  dependent_is_node : ∀ node ∈ nodes, ∀ name ∈ node.dependents, ∃ other ∈ nodes, other.name = name
  reversed : ∀ a ∈ nodes, ∀ b ∈ nodes, b.name ∈ a.dependencies ↔ a.name ∈ b.dependents
  nodup_dependencies : ∀ node ∈ nodes, node.dependencies.Nodup
  nodup_dependents : ∀ node ∈ nodes, node.dependents.Nodup
  dependents_in_order : ∀ node ∈ nodes, node.dependents.Sublist (nodes.map (·.name))
  mentioned : List.Forall₂ (fun e node => ∀ name, name ∈ node.dependencies ↔
    .string name ∈ Entries.keys d ∧ ∃ ref ∈ g.references e.2, schemaName? ref = some name) d nodes
  mentioned_in_order : List.Forall₂ (fun e node => node.dependencies.Pairwise fun a b =>
    firstMention g e.2 a < firstMention g e.2 b) d nodes

/-- Nodes beside the schemas have their names. -/
theorem names_of_describes (aligned : List.Forall₂ (Describes g d) d nodes) :
    nodes.map (fun node => Scalar.string node.name) = Entries.keys d :=
  map_eq_of_forall₂ (List.forall₂_map_left_iff.2 (aligned.imp fun _ _ here => here.1.symm))

/-- A node beside the schemas describes one of them. -/
theorem exists_described (aligned : List.Forall₂ (Describes g d) d nodes) {node : DependencyNode}
    (mem : node ∈ nodes) : ∃ e ∈ d, Describes g d e node :=
  exists_of_mem_left aligned.flip mem

/-- A node beside the schemas has each of its dependencies once. -/
theorem nodup_of_describes (aligned : List.Forall₂ (Describes g d) d nodes) :
    ∀ node ∈ nodes, node.dependencies.Nodup := by
  intro node mem
  obtain ⟨e, -, -, described⟩ := exists_described aligned mem
  exact described ▸ nodup_dependencies

/-- The dependents of a node are the names of the nodes that depend on it. -/
theorem dependents_of_mem_withDependents {bare : List DependencyNode} {node : DependencyNode}
    (once : ∀ node ∈ bare, node.dependencies.Nodup) (unnoted : ∀ node ∈ bare, node.dependents = [])
    (mem : node ∈ withDependents bare) : node.dependents
      = ((withDependents bare).filter (·.dependencies.contains node.name)).map (·.name) := by
  rw [withDependents_eq_map once unnoted] at mem ⊢
  obtain ⟨_, -, rfl⟩ := List.mem_map.1 mem
  rw [List.filter_map, List.map_map]
  rfl

/-- Nodes beside the schemas of different names, with their dependents, can be read both ways. -/
theorem twoWay_withDependents {bare : List DependencyNode} (nodup : (Entries.keys d).Nodup)
    (bare_aligned : List.Forall₂ (Describes g d) d bare)
    (unnoted : ∀ node ∈ bare, node.dependents = []) : TwoWay g d (withDependents bare) := by
  have aligned : List.Forall₂ (Describes g d) d (withDependents bare) :=
    forall₂_foldl_noteDependent (forwardEdges bare) bare_aligned
  have gathered {node : DependencyNode} (mem : node ∈ withDependents bare) :=
    dependents_of_mem_withDependents (nodup_of_describes bare_aligned) unnoted mem
  have names := names_of_describes aligned
  have named_once : ((withDependents bare).map (·.name)).Nodup := by
    rw [← names] at nodup
    exact List.Nodup.of_map Scalar.string (by rwa [List.map_map])
  have is_node {name : String} (known : .string name ∈ Entries.keys d) :
      ∃ other ∈ withDependents bare, other.name = name := by
    rw [← names] at known
    obtain ⟨other, mem, same⟩ := List.mem_map.1 known
    exact ⟨other, mem, Scalar.string.inj same⟩
  have in_order : ∀ node ∈ withDependents bare,
      node.dependents.Sublist ((withDependents bare).map (·.name)) := by
    intro node mem
    rw [gathered mem]
    exact List.filter_sublist.map _
  refine {
    one_each := names
    dependency_is_node := ?dependency
    dependent_is_node := ?dependent
    reversed := ?reversed
    nodup_dependencies := nodup_of_describes aligned
    nodup_dependents := fun node mem => named_once.sublist (in_order node mem)
    dependents_in_order := in_order
    mentioned := ?mentioned
    mentioned_in_order := ?ordered }
  case dependency =>
    intro node mem name depends
    obtain ⟨e, -, -, described⟩ := exists_described aligned mem
    rw [described] at depends
    exact is_node (mem_dependencies.1 depends).1
  case dependent =>
    intro node mem name depends
    obtain ⟨other, at_other, same⟩ := List.mem_map.1 ((in_order node mem).subset depends)
    exact ⟨other, at_other, same⟩
  case reversed =>
    intro a at_a b at_b
    rw [gathered at_b, List.mem_map]
    constructor
    · intro depends
      exact ⟨a, List.mem_filter.2 ⟨at_a, List.contains_iff_mem.2 depends⟩, rfl⟩
    · rintro ⟨other, at_other, same⟩
      obtain ⟨mem, depends⟩ := List.mem_filter.1 at_other
      obtain rfl := List.inj_on_of_nodup_map named_once mem at_a same
      exact List.contains_iff_mem.1 depends
  case mentioned =>
    refine aligned.imp ?_
    rintro e node ⟨-, described⟩ name
    rw [described]
    exact mem_dependencies
  case ordered =>
    refine aligned.imp ?_
    rintro e node ⟨-, described⟩
    exact described ▸ pairwise_dependencies g e.2 d

/-- **The dependency graph can be read both ways.**  A dictionary of different texts has a graph,
with one node for each name.  What stands among dependencies and dependents are nodes, each once;
one schema is a dependency of another exactly when that is a dependent of it; dependents stand in
the order of the dictionary, dependencies in the order in which the schema first mentions them. -/
theorem dependencyGraph_twoWay (g : Anchors) (d : Entries)
    (texts : ∀ key ∈ Entries.keys d, ∃ name, key = .string name)
    (nodup : (Entries.keys d).Nodup) :
    ∃ nodes, (dependencyGraph g d).result = .ok nodes ∧ TwoWay g d nodes := by
  obtain ⟨nodes, found, bare, rfl, aligned, unnoted⟩ := gives_withDependents (g := g) texts
  exact ⟨_, found, twoWay_withDependents nodup aligned unnoted⟩

/-- Books refer to their author twice, to another book, and to a shelf that is not there; authors
refer to books. -/
def bookSchemas : Entries :=
  [(.string "Book", schemaReferringTo ["Author", "Shelf", "Book", "Author"]),
   (.string "Author", schemaReferringTo ["Book"])]

/-- Books depend on themselves, and stand before authors among their own dependents. -/
theorem dependencyGraph_twoWay_books :
    (∀ key ∈ Entries.keys bookSchemas, ∃ name, key = .string name)
      ∧ (Entries.keys bookSchemas).Nodup
      ∧ ∃ nodes, (dependencyGraph {} bookSchemas).result = .ok nodes ∧ TwoWay {} bookSchemas nodes
        ∧ nodes.map (fun node => (node.name, node.dependencies, node.dependents))
          = [("Book", ["Author", "Book"], ["Book", "Author"]), ("Author", ["Book"], ["Book"])] := by
  have texts : ∀ key ∈ Entries.keys bookSchemas, ∃ name, key = .string name := by
    simp [bookSchemas, Entries.keys]
  have nodup : (Entries.keys bookSchemas).Nodup := by decide
  obtain ⟨nodes, found, twoWay⟩ := dependencyGraph_twoWay {} bookSchemas texts nodup
  have computed : (dependencyGraph {} bookSchemas).result
      = .ok [⟨"Book", ["Author", "Book"], ["Book", "Author"], 10, true⟩,
        ⟨"Author", ["Book"], ["Book"], 4, true⟩] := by
    cbv
  obtain rfl := Except.ok.inj (computed.symm.trans found)
  exact ⟨texts, nodup, _, found, twoWay, rfl⟩

end SchemaCodegen
