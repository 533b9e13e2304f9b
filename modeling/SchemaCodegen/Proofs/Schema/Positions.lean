import SchemaCodegen.Proofs.Schema.Classify

/-!
# Schemas inside schemas

The schemas inside a schema are what its array holds, its properties, what it allows besides
them, and the members of a composition.  A position is a way through them, a list of steps, and
it leads through the data (`Anchors.at?`) as through the node (`Node.at?`).

The node at a position is the node of the data there, recognised below the containers that the
way has come through (`exists_at?_of_node`).  An object that is one of these repeats itself, and
is cut there; any other has the shape that its keywords give it (`isCut_iff_repeats`,
`kind_of_not_repeats`).  Behind a cut there are no nodes, and all other schemas inside have one
(`isSome_at?_iff`).
-/

namespace SchemaCodegen

variable {g : Anchors} {active inner : List Nat} {es : Entries} {node m : Node} {u v : Value}
  {step : Step} {path : List Step} {n : Nat}

/-! ### Steps -/

/-- A step from a schema to one inside it.  Properties are told apart by their place, since two
keys may be shown by one text. -/
inductive Step where
  | items
  | property (index : Nat)
  | additional
  | member (index : Nat)
deriving DecidableEq, Repr

/-- The shape that a node has by its keywords. -/
def Form.kind : Form → Node.Kind
  | .empty => .empty
  | .reference _ => .reference
  | .array => .array
  | .object => .object
  | .intersection => .composition .allOf
  | .enumeration _ => .enumeration
  | .composition c => .composition c
  | .primitive => .primitive
  | .unknown => .unknown

/-- The schema that a step leads to from an object with properties. -/
def Entries.field? (g : Anchors) (es : Entries) : Step → Option Value
  | .property i => ((g.objectAt? es "properties").getD [])[i]?.map (·.2)
  | .additional => (Entries.get? es "additionalProperties").filter g.isObject
  | _ => none

/-- The schema that a step leads to from an object. -/
def Entries.below? (g : Anchors) (es : Entries) (step : Step) : Option Value :=
  match formOf g es, step with
  | .array, .items => (Entries.get? es "items").filter fun v => !v.isNull
  | .object, step => es.field? g step
  | .intersection, .member i => ((g.listAt? es "allOf").getD [])[i]?
  | .intersection, step => es.field? g step
  | .composition c, .member i => ((g.listAt? es c.keyword).getD [])[i]?
  | _, _ => none

/-- The schema that a step leads to. -/
def Anchors.below? (g : Anchors) (v : Value) (step : Step) : Option Value :=
  (g.entries? v).bind fun es => es.below? g step

/-- The schema at a position. -/
def Anchors.at? (g : Anchors) : Value → List Step → Option Value
  | v, [] => some v
  | v, step :: path => (g.below? v step).bind fun u => g.at? u path

/-- The node that a step leads to from an object's node. -/
def Node.field? : Node → Step → Option Node
  | .object _ properties _ _, .property i => properties[i]?.map (·.2)
  | .object _ _ _ additional, .additional => additional.node?
  | _, _ => none

/-- The node that a step leads to.  Where properties stand beside `allOf`, the last member is the
schema itself as an object. -/
def Node.below? (g : Anchors) (node : Node) (step : Step) : Option Node :=
  match node, step with
  | .array _ items, .items => items
  | .composition f _ members, step =>
    match formOf g f.keywords, step with
    | .intersection, .member i => members.dropLast[i]?
    | .intersection, step => members.getLast?.bind fun own => own.field? step
    | _, .member i => members[i]?
    | _, _ => none
  | node, step => node.field? step

/-- The node at a position. -/
def Node.at? (g : Anchors) : Node → List Step → Option Node
  | node, [] => some node
  | node, step :: path => (node.below? g step).bind fun m => m.at? g path

theorem Node.at?_append (node : Node) (path rest : List Step) :
    node.at? g (path ++ rest) = (node.at? g path).bind fun m => m.at? g rest := by
  induction path generalizing node with
  | nil => rfl
  | cons step path ih =>
      rw [List.cons_append, Node.at?, Node.at?, Option.bind_assoc]
      exact congrArg _ (funext ih)

theorem Anchors.at?_append (v : Value) (path rest : List Step) :
    g.at? v (path ++ rest) = (g.at? v path).bind fun u => g.at? u rest := by
  induction path generalizing v with
  | nil => rfl
  | cons step path ih =>
      rw [List.cons_append, Anchors.at?, Anchors.at?, Option.bind_assoc]
      exact congrArg _ (funext ih)

/-! ### One step -/

/-- A step leads through an object with properties and through its node alike. -/
theorem rel_field? {facts : Facts} (found : (Node.ofFields g active es facts).result = .ok node)
    (step : Step) : Option.Rel (HasNode g active) (es.field? g step) (node.field? step) := by
  obtain ⟨properties, additional, from_properties, from_additional, rfl⟩ := ofFields_eq_ok found
  cases step with
  | property i =>
      obtain ⟨none, none'⟩ | ⟨p, field, at_p, at_field, -, here⟩ :=
        cases_of_rel (rel_getElem? (forall₂_propertiesOf from_properties) i)
      · rw [Entries.field?, Node.field?, none, none']
        exact .none
      · rw [Entries.field?, Node.field?, at_p, at_field]
        exact .some here
  | additional => exact rel_additionalOf from_additional
  | _ => exact .none

/-- An object keeps its keywords in its node, which has the shape they give. -/
theorem keywords_and_kind_of_ofEntries
    (found : (Node.ofEntries g active es).result = .ok node) :
    node.facts.keywords = es ∧ node.kind = (formOf g es).kind := by
  rw [Node.ofEntries] at found
  cases form : formOf g es with
  | array =>
      rw [form] at found
      obtain ⟨items, -, same⟩ := Traced.result_bind_eq_ok.1 found
      cases same
      exact ⟨rfl, rfl⟩
  | object =>
      rw [form] at found
      obtain ⟨properties, additional, -, -, rfl⟩ := ofFields_eq_ok found
      exact ⟨rfl, rfl⟩
  | intersection =>
      rw [form] at found
      obtain ⟨own, -, found⟩ := Traced.result_bind_eq_ok.1 found
      obtain ⟨members, -, same⟩ := Traced.result_bind_eq_ok.1 found
      cases same
      exact ⟨rfl, rfl⟩
  | composition c =>
      rw [form] at found
      obtain ⟨members, -, same⟩ := Traced.result_bind_eq_ok.1 found
      cases same
      exact ⟨rfl, rfl⟩
  | _ =>
      rw [form] at found
      cases found
      exact ⟨rfl, rfl⟩

/-- The members of an intersection are those of `allOf`; for anything else its last one is
gone into. -/
theorem below?_of_intersection {c : Combinator} {members : List Node} {own : Node}
    (form : formOf g es = .intersection) (step : Step) :
    Node.below? g (.composition (factsOf g es) c (members ++ [own])) step = match step with
      | .member i => members[i]?
      | step => own.field? step := by
  have keywords : (factsOf g es).keywords = es := rfl
  cases step with
  | _ => simp [Node.below?, keywords, form]

/-- A step leads through an object and through its node alike. -/
theorem rel_below? (found : (Node.ofEntries g active es).result = .ok node) (step : Step) :
    Option.Rel (HasNode g active) (es.below? g step) (node.below? g step) := by
  rw [Node.ofEntries] at found
  unfold Entries.below?
  cases form : formOf g es with
  | array =>
      rw [form] at found
      obtain ⟨items, from_items, same⟩ := Traced.result_bind_eq_ok.1 found
      cases same
      cases step with
      | items => exact rel_itemsOf from_items
      | _ => exact .none
  | object =>
      rw [form] at found
      have fields := rel_field? found step
      obtain ⟨properties, additional, -, -, rfl⟩ := ofFields_eq_ok found
      exact fields
  | intersection =>
      rw [form] at found
      obtain ⟨own, from_own, found⟩ := Traced.result_bind_eq_ok.1 found
      obtain ⟨members, from_members, same⟩ := Traced.result_bind_eq_ok.1 found
      cases same
      rw [below?_of_intersection form]
      cases step with
      | member i => exact rel_getElem? (forall₂_membersOf from_members) i
      | _ => exact rel_field? from_own _
  | composition c =>
      rw [form] at found
      obtain ⟨members, from_members, same⟩ := Traced.result_bind_eq_ok.1 found
      cases same
      have keywords : (factsOf g es).keywords = es := rfl
      cases step with
      | member i =>
          simp only [Node.below?, keywords, form]
          exact rel_getElem? (forall₂_membersOf from_members) i
      | _ =>
          simp only [Node.below?, keywords, form]
          exact .none
  | _ =>
      rw [form] at found
      cases found
      cases step with
      | _ => exact .none

/-- A step from a node is one from the data, which is entered. -/
theorem HasNode.of_step (found : HasNode g active v node) (leads : node.below? g step = some m) :
    ∃ inner u, g.enter? active v = some inner ∧ g.below? v step = some u ∧ HasNode g inner u m := by
  unfold HasNode at found
  cases entries : g.entries? v with
  | none =>
      rw [classify_of_no_object entries] at found
      cases found
      split at leads <;> cases leads
  | some es =>
      cases enters : g.enter? active v with
      | some inner =>
          rw [classify_of_enter? enters entries] at found
          obtain ⟨-, none⟩ | ⟨u, m', at_u, at_m, here⟩ := cases_of_rel (rel_below? found step)
          · cases none.symm.trans leads
          · cases at_m.symm.trans leads
            exact ⟨inner, u, rfl, by rw [Anchors.below?, entries, Option.bind_some, at_u], here⟩
      | none =>
          obtain ⟨n, mem, rfl⟩ := exists_active_of_cut entries enters
          rw [classify_of_active mem entries] at found
          cases found
          cases leads

/-- A step from data that is entered is one from its node. -/
theorem HasNode.exists_step (found : HasNode g active v node)
    (enters : g.enter? active v = some inner) (leads : g.below? v step = some u) :
    ∃ m, node.below? g step = some m ∧ HasNode g inner u m := by
  obtain ⟨es, entries, leads⟩ := Option.bind_eq_some_iff.1 leads
  unfold HasNode at found
  rw [classify_of_enter? enters entries] at found
  obtain ⟨none, -⟩ | ⟨u', m, at_u, at_m, here⟩ := cases_of_rel (rel_below? found step)
  · cases none.symm.trans leads
  · cases at_u.symm.trans leads
    exact ⟨m, at_m, here⟩

/-! ### Positions -/

/-- `Passes g v path n`: the way to a position comes through the container `n`, and goes on. -/
def Passes (g : Anchors) (v : Value) (path : List Step) (n : Nat) : Prop :=
  ∃ earlier later, path = earlier ++ later ∧ later ≠ [] ∧ g.at? v earlier = some (.aliasTo n)

/-- `Repeats g v path`: at the position stands a container that the way there has come through
already, so the container is its own ancestor. -/
def Repeats (g : Anchors) (v : Value) (path : List Step) : Prop :=
  ∃ n, g.at? v path = some (.aliasTo n) ∧ Passes g v path n

theorem not_passes_nil : ¬ Passes g v [] n := by
  rintro ⟨earlier, later, same, further, -⟩
  exact further (List.append_eq_nil_iff.1 same.symm).2

/-- A way comes through where it starts, and through what the rest of it comes through. -/
theorem passes_cons (leads : g.below? v step = some u) :
    Passes g v (step :: path) n ↔ v = .aliasTo n ∨ Passes g u path n := by
  have on (rest : List Step) : g.at? v (step :: rest) = g.at? u rest := by
    rw [Anchors.at?, leads, Option.bind_some]
  constructor
  · rintro ⟨earlier, later, same, further, here⟩
    cases earlier with
    | nil => exact .inl (Option.some.inj here)
    | cons first earlier =>
        obtain ⟨rfl, rfl⟩ := List.cons.inj same
        rw [on] at here
        exact .inr ⟨earlier, later, rfl, further, here⟩
  · rintro (rfl | ⟨earlier, later, rfl, further, here⟩)
    · exact ⟨[], step :: path, rfl, List.cons_ne_nil step path, rfl⟩
    · exact ⟨step :: earlier, later, rfl, further, (on earlier).trans here⟩

/-- **The node at a position** is that of the data there, below the containers that the way has
come through. -/
theorem HasNode.exists_at? (found : HasNode g active v node) (leads : node.at? g path = some m) :
    ∃ inner u, g.at? v path = some u ∧ HasNode g inner u m ∧
      ∀ n, n ∈ inner ↔ n ∈ active ∨ Passes g v path n := by
  induction path generalizing active v node with
  | nil =>
      cases leads
      exact ⟨active, v, rfl, found, fun n => by simp [not_passes_nil]⟩
  | cons step path ih =>
      obtain ⟨m', first, rest⟩ := Option.bind_eq_some_iff.1 leads
      obtain ⟨entered, u', enters, at_u', there⟩ := found.of_step first
      obtain ⟨inner, u, at_u, here, mem_inner⟩ := ih there rest
      refine ⟨inner, u, by rw [Anchors.at?, at_u', Option.bind_some, at_u], here, fun n => ?_⟩
      rw [mem_inner, mem_of_enter? enters, passes_cons at_u', or_assoc]

/-- A schema inside has a node as long as the way there comes through no container twice, and
none that is active. -/
theorem HasNode.exists_node (found : HasNode g active v node) (leads : g.at? v path = some u)
    (clear : ∀ earlier later, path = earlier ++ later → later ≠ [] →
      ∀ n, g.at? v earlier = some (.aliasTo n) → n ∉ active ∧ ¬ Passes g v earlier n) :
    ∃ m, node.at? g path = some m := by
  induction path generalizing active v node with
  | nil => exact ⟨node, rfl⟩
  | cons step path ih =>
      obtain ⟨u', first, rest⟩ := Option.bind_eq_some_iff.1 leads
      obtain ⟨es, entries, -⟩ := Option.bind_eq_some_iff.1 first
      have new : ∀ n ∈ active, v ≠ .aliasTo n := by
        rintro n mem rfl
        exact (clear [] _ rfl (List.cons_ne_nil step path) n rfl).1 mem
      obtain ⟨inner, enters⟩ := exists_enter?_of_new entries new
      obtain ⟨m', at_m', there⟩ := found.exists_step enters first
      have behind : ∀ earlier later, path = earlier ++ later → later ≠ [] →
          ∀ n, g.at? u' earlier = some (.aliasTo n) → n ∉ inner ∧ ¬ Passes g u' earlier n := by
        rintro earlier later rfl further n here
        have at_n : g.at? v (step :: earlier) = some (.aliasTo n) := by
          rw [Anchors.at?, first, Option.bind_some, here]
        obtain ⟨not_active, not_passed⟩ := clear (step :: earlier) later rfl further n at_n
        rw [passes_cons first, not_or] at not_passed
        rw [mem_of_enter? enters, not_or]
        exact ⟨⟨not_active, not_passed.1⟩, not_passed.2⟩
      obtain ⟨m, at_m⟩ := ih there rest behind
      exact ⟨m, by rw [Node.at?, at_m', Option.bind_some, at_m]⟩

/-! ### Cuts -/

/-- The node is that of an object that is cut: it has no shape, although its keywords give it
one. -/
def Node.IsCut (g : Anchors) (node : Node) : Prop :=
  node.kind = .unknown ∧ (formOf g node.facts.keywords).kind ≠ .unknown

/-- Keywords that lead on to a schema give a shape. -/
theorem kind_ne_unknown_of_below? (leads : es.below? g step = some u) :
    (formOf g es).kind ≠ .unknown := by
  unfold Entries.below? at leads
  cases form : formOf g es with
  | unknown =>
      rw [form] at leads
      cases leads
  | _ => nofun

/-- A container that the way to a position comes through has a shape. -/
theorem kind_ne_unknown_of_passes (passes : Passes g v path n) (leads : g.at? v path = some u)
    (entries : g.entries? (.aliasTo n) = some es) : (formOf g es).kind ≠ .unknown := by
  obtain ⟨earlier, later, rfl, further, here⟩ := passes
  rw [Anchors.at?_append, here, Option.bind_some] at leads
  cases later with
  | nil => exact absurd rfl further
  | cons step later =>
      obtain ⟨u', first, -⟩ := Option.bind_eq_some_iff.1 leads
      rw [Anchors.below?, entries, Option.bind_some] at first
      exact kind_ne_unknown_of_below? first

section Schema

variable {schema : Value} (found : (Node.ofSchema g schema).result = .ok node)

include found

/-- **The schemas inside that have a node** are those whose position does not go on from a
repetition. -/
theorem isSome_at?_iff (path : List Step) :
    (node.at? g path).isSome ↔ (g.at? schema path).isSome ∧
      ∀ earlier later, path = earlier ++ later → later ≠ [] → ¬ Repeats g schema earlier := by
  have root : HasNode g [] schema node := found
  simp only [Option.isSome_iff_exists]
  constructor
  · rintro ⟨m, leads⟩
    obtain ⟨inner, u, at_u, -, -⟩ := root.exists_at? leads
    refine ⟨⟨u, at_u⟩, ?_⟩
    rintro earlier later rfl further ⟨n, here, passes⟩
    -- The node of the repetition leads on, so the container was entered there.
    rw [Node.at?_append] at leads
    obtain ⟨m', at_m', rest⟩ := Option.bind_eq_some_iff.1 leads
    obtain ⟨active, u', at_u', there, mem_active⟩ := root.exists_at? at_m'
    cases here.symm.trans at_u'
    cases later with
    | nil => exact further rfl
    | cons step later =>
        obtain ⟨m'', first, -⟩ := Option.bind_eq_some_iff.1 rest
        obtain ⟨inner, -, enters, -, -⟩ := there.of_step first
        rw [Anchors.enter?, Option.ite_none_right_eq_some] at enters
        exact enters.1.2 ((mem_active n).2 (.inr passes))
  · rintro ⟨⟨u, leads⟩, clear⟩
    refine root.exists_node leads fun earlier later same further n here => ?_
    exact ⟨List.not_mem_nil, fun passes => clear earlier later same further ⟨n, here, passes⟩⟩

section Object

variable (leads : node.at? g path = some m) (at_path : g.at? schema path = some v)
  (entries : g.entries? v = some es)

include leads at_path entries

/-- An object that repeats itself has a node with its keywords alone. -/
theorem node_of_repeats (repeats : Repeats g schema path) :
    m = .unknown { keywords := es } ∧ (formOf g es).kind ≠ .unknown := by
  have root : HasNode g [] schema node := found
  obtain ⟨inner, u, at_u, here, mem_inner⟩ := root.exists_at? leads
  cases at_u.symm.trans at_path
  obtain ⟨n, at_n, passes⟩ := repeats
  cases at_n.symm.trans at_path
  unfold HasNode at here
  rw [classify_of_active ((mem_inner n).2 (.inr passes)) entries] at here
  cases here
  exact ⟨rfl, kind_ne_unknown_of_passes passes at_path entries⟩

/-- Any other object has a node with its keywords and the shape they give. -/
theorem node_of_not_repeats (new : ¬ Repeats g schema path) :
    m.facts.keywords = es ∧ m.kind = (formOf g es).kind := by
  have root : HasNode g [] schema node := found
  obtain ⟨inner, u, at_u, here, mem_inner⟩ := root.exists_at? leads
  cases at_u.symm.trans at_path
  have fresh : ∀ n ∈ inner, v ≠ .aliasTo n := by
    rintro n mem rfl
    obtain none | passes := (mem_inner n).1 mem
    · cases none
    · exact new ⟨n, at_path, passes⟩
  obtain ⟨active, same, -⟩ := exists_classify_eq entries fresh
  unfold HasNode at here
  rw [same] at here
  exact keywords_and_kind_of_ofEntries here

/-- **An object is cut** where it is its own ancestor, and nowhere else. -/
theorem isCut_iff_repeats : m.IsCut g ↔ Repeats g schema path := by
  by_cases repeats : Repeats g schema path
  · obtain ⟨rfl, shaped⟩ := node_of_repeats found leads at_path entries repeats
    exact iff_of_true ⟨rfl, shaped⟩ repeats
  · obtain ⟨keywords, kind⟩ := node_of_not_repeats found leads at_path entries repeats
    refine iff_of_false ?_ repeats
    rintro ⟨unknown, shaped⟩
    rw [keywords] at shaped
    exact shaped (kind.symm.trans unknown)

end Object

end Schema

end SchemaCodegen
