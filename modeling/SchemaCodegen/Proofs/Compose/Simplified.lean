import Mathlib.Data.Option.Defs
import SchemaCodegen.Compose.Simplify
import SchemaCodegen.Proofs.Data.Tree
import SchemaCodegen.Proofs.Schema.Alike
import SchemaCodegen.Proofs.Schema.Consulted

/-!
# Simplified schemas mean the same

`simplified` drops the keywords that only document, at every place where a schema stands.  On
a tree it has a result, on which it does nothing more (`normalizes_simplified`), and the result is
rendered as the schema itself is (`simplifySchema_preserves_rendering`).

What is load-bearing:

* Entries stand beside what the pass makes of them (`Simplifies`).  A keyword that is neither
  dropped nor gone into keeps its value (`Simplifies.get?_eq`), every keyword that is not
  dropped stays (`Simplifies.has_eq`), and what is gone into stays a list or an object if it
  was one (`rel_listAt?`, `rel_objectAt?`).  Hence the shape stays (`Simplifies.formOf_eq`).
* A property called `example` is no keyword: the names of properties are passed over
  (`forall₂_simplifiedFields`).
* The nodes differ in keywords that no renderer looks up (`readAlike_of_simplified`).
-/

namespace SchemaCodegen

variable {g : Anchors} {active : List Nat} {key : String} {v v' : Value} {es es' : Entries}

/-! ### A tree has a simplified form -/

/-- `Normalizes f trees x`: the pass `f` has a result for `x`, which is a tree and on which it
does nothing more. -/
def Normalizes {α : Type} (f : α → Except Failure α) (trees : α → Bool) (x : α) : Prop :=
  ∃ x', f x = .ok x' ∧ trees x' = true ∧ f x' = .ok x'

namespace Normalizes

variable {α β γ : Type} {f : α → Except Failure α} {h : β → Except Failure β}
  {k : γ → Except Failure γ} {trees : α → Bool} {treesLeft : β → Bool} {treesRight : γ → Bool}

/-- What is a tree and stays as it is has settled. -/
theorem of_fixed {x : α} (fixed : f x = .ok x) (tree : trees x = true) : Normalizes f trees x :=
  ⟨x, fixed, tree, fixed⟩

/-- A pass that works on what is wrapped. -/
theorem wrap (wrap : β → α) {x : β} (step : ∀ x, f (wrap x) = wrap <$> h x)
    (shape : ∀ x, trees (wrap x) = treesLeft x) (inner : Normalizes h treesLeft x) :
    Normalizes f trees (wrap x) := by
  obtain ⟨x', done, tree, again⟩ := inner
  refine ⟨wrap x', ?_, (shape x').trans tree, ?_⟩
  · rw [step, done]
    rfl
  · rw [step, again]
    rfl

/-- A pass that works on two parts. -/
theorem join (join : β → γ → α) {x : β} {y : γ}
    (step : ∀ x y, f (join x y) = do pure (join (← h x) (← k y)))
    (shape : ∀ x y, trees (join x y) = (treesLeft x && treesRight y))
    (left : Normalizes h treesLeft x) (right : Normalizes k treesRight y) :
    Normalizes f trees (join x y) := by
  obtain ⟨x', done_left, tree_left, again_left⟩ := left
  obtain ⟨y', done_right, tree_right, again_right⟩ := right
  refine ⟨join x' y', ?_, ?_, ?_⟩
  · rw [step, done_left, done_right]
    rfl
  · rw [shape, tree_left, tree_right]
    rfl
  · rw [step, again_left, again_right]
    rfl

end Normalizes

theorem haveTrees_cons (k : Scalar) (v : Value) (es : Entries) :
    Value.haveTrees ((k, v) :: es) = (v.isTree && Value.haveTrees es) := rfl

mutual

/-- **Simplifying a tree** gives a tree that has nothing left to drop. -/
theorem normalizes_simplified : (v : Value) → v.isTree = true → Normalizes simplified Value.isTree v
  | .object es, tree =>
      .wrap Value.object (fun _ => rfl) (fun _ => rfl) (normalizes_simplifiedEntries es tree)
  | .scalar _, tree | .set _, tree | .pair _ _, tree | .list _, tree => .of_fixed rfl tree

theorem normalizes_simplifiedEntries : (es : List (Scalar × Value)) → Value.haveTrees es = true →
    Normalizes simplifiedEntries Value.haveTrees es
  | [], _ => .of_fixed rfl rfl
  | (k, v) :: es, trees => by
      rw [Value.haveTrees, Bool.and_eq_true] at trees
      have later := normalizes_simplifiedEntries es trees.2
      cases k with
      | string key =>
          by_cases documenting : documentingKeywords.contains key = true
          · obtain ⟨es', done, es_trees, again⟩ := later
            refine ⟨es', ?_, es_trees, again⟩
            rw [simplifiedEntries, if_pos documenting, done]
          · have here := normalizes_simplifiedUnder key v trees.1
            refine .join (fun v es => (.string key, v) :: es) (fun v es => ?_)
              (haveTrees_cons _) here later
            rw [simplifiedEntries, if_neg documenting]
      | _ =>
          refine .wrap (fun es => (_, v) :: es) (fun _ => rfl) (fun es => ?_) later
          rw [Value.haveTrees, trees.1]
          rfl

theorem normalizes_simplifiedUnder (key : String) : (v : Value) → v.isTree = true →
    Normalizes (simplifiedUnder key) Value.isTree v
  | .object es, tree => by
      by_cases properties : key = "properties"
      · have fields := normalizes_simplifiedFields es tree
        refine .wrap Value.object (fun es => ?_) (fun _ => rfl) fields
        rw [simplifiedUnder, if_pos properties]
        rfl
      · by_cases nesting : nestingKeywords.contains key = true
        · refine .wrap Value.object (fun es => ?_) (fun _ => rfl)
            (normalizes_simplifiedEntries es tree)
          rw [simplifiedUnder, if_neg properties, if_pos nesting]
          rfl
        · refine .of_fixed ?_ tree
          rw [simplifiedUnder, if_neg properties, if_neg nesting]
  | .list xs, tree => by
      by_cases joining : joiningKeywords.contains key = true
      · refine .wrap Value.list (fun xs => ?_) (fun _ => rfl) (normalizes_simplifiedMembers xs tree)
        rw [simplifiedUnder, if_pos joining]
        rfl
      · refine .of_fixed ?_ tree
        rw [simplifiedUnder, if_neg joining]
  | .scalar _, tree | .set _, tree | .pair _ _, tree => .of_fixed rfl tree

theorem normalizes_simplifiedFields : (es : List (Scalar × Value)) → Value.haveTrees es = true →
    Normalizes simplifiedFields Value.haveTrees es
  | [], _ => .of_fixed rfl rfl
  | (k, v) :: es, trees => by
      rw [Value.haveTrees, Bool.and_eq_true] at trees
      exact .join (fun v es => (k, v) :: es) (fun _ _ => rfl) (fun _ _ => rfl)
        (normalizes_simplified v trees.1) (normalizes_simplifiedFields es trees.2)

theorem normalizes_simplifiedMembers : (xs : List Value) → Value.areTrees xs = true →
    Normalizes simplifiedMembers Value.areTrees xs
  | [], _ => .of_fixed rfl rfl
  | x :: xs, trees => by
      rw [Value.areTrees, Bool.and_eq_true] at trees
      exact .join List.cons (fun _ _ => rfl) (fun _ _ => rfl)
        (normalizes_simplified x trees.1) (normalizes_simplifiedMembers xs trees.2)

end

/-! ### What stands under a keyword afterwards -/

/-- The keywords whose values the pass goes into. -/
def schemaKeywords : List String := "properties" :: nestingKeywords ++ joiningKeywords

/-- A value that the pass does not go into stays. -/
theorem simplifiedUnder_of_plain (plain : key ∉ schemaKeywords) :
    simplifiedUnder key v = .ok v := by
  have properties : key ≠ "properties" := fun eq => plain (by simp [schemaKeywords, eq])
  have nesting : ¬ nestingKeywords.contains key = true := fun mem =>
    plain (by simp [schemaKeywords, List.contains_iff_mem.1 mem])
  have joining : ¬ joiningKeywords.contains key = true := fun mem =>
    plain (by simp [schemaKeywords, List.contains_iff_mem.1 mem])
  cases v with
  | object es => rw [simplifiedUnder, if_neg properties, if_neg nesting]
  | list xs => rw [simplifiedUnder, if_neg joining]
  | aliasTo n => rw [simplifiedUnder, if_neg (by tauto)]
  | _ => rfl

/-- A single schema under a keyword is simplified. -/
theorem simplifiedUnder_of_nesting (nesting : key ∈ nestingKeywords) :
    simplifiedUnder key v = simplified v := by
  have contains : nestingKeywords.contains key = true := List.contains_iff_mem.2 nesting
  have apart : ∀ key ∈ nestingKeywords, key ≠ "properties" ∧ key ∉ joiningKeywords := by decide
  obtain ⟨properties, joins⟩ := apart key nesting
  have joining : ¬ joiningKeywords.contains key = true := mt List.contains_iff_mem.1 joins
  cases v with
  | object es =>
      rw [simplifiedUnder, if_neg properties, if_pos contains]
      rfl
  | list xs =>
      rw [simplifiedUnder, if_neg joining]
      rfl
  | aliasTo n =>
      rw [simplifiedUnder, if_pos (.inr (.inl contains))]
      rfl
  | _ => rfl

/-- A list of schemas under a keyword that joins them is simplified; anything else there is
no list afterwards either. -/
theorem rel_items? (g : Anchors) (joining : key ∈ joiningKeywords)
    (here : simplifiedUnder key v = .ok v') :
    Option.Rel (fun xs xs' => simplifiedMembers xs = .ok xs') (g.items? v) (g.items? v') := by
  have contains : joiningKeywords.contains key = true := List.contains_iff_mem.2 joining
  have apart : ∀ key ∈ joiningKeywords, key ≠ "properties" ∧ key ∉ nestingKeywords := by decide
  obtain ⟨properties, nests⟩ := apart key joining
  cases v with
  | list xs =>
      rw [simplifiedUnder, if_pos contains] at here
      obtain ⟨xs', done, same⟩ := bind_eq_ok.1 here
      cases same
      exact .some done
  | object es =>
      rw [simplifiedUnder, if_neg properties, if_neg (mt List.contains_iff_mem.1 nests)] at here
      cases here
      exact .none
  | aliasTo n =>
      rw [simplifiedUnder, if_pos (.inr (.inr contains))] at here
      cases here
  | _ =>
      cases here
      exact .none

/-- The properties of a schema are simplified; anything else is no object afterwards
either. -/
theorem rel_entries? (g : Anchors) (here : simplifiedUnder "properties" v = .ok v') :
    Option.Rel (fun ps ps' => simplifiedFields ps = .ok ps') (g.entries? v) (g.entries? v') := by
  cases v with
  | list xs =>
      rw [simplifiedUnder, if_neg (by decide)] at here
      cases here
      exact .none
  | object es =>
      rw [simplifiedUnder, if_pos rfl] at here
      obtain ⟨ps', done, same⟩ := bind_eq_ok.1 here
      cases same
      exact .some done
  | aliasTo n =>
      rw [simplifiedUnder, if_pos (.inl rfl)] at here
      cases here
  | _ =>
      cases here
      exact .none

/-- The two sides of a pass over a list of schemas. -/
theorem forall₂_simplifiedMembers {xs xs' : List Value} (done : simplifiedMembers xs = .ok xs') :
    List.Forall₂ (fun x x' => simplified x = .ok x') xs xs' := by
  induction xs generalizing xs' with
  | nil =>
      cases done
      exact .nil
  | cons x xs ih =>
      rw [simplifiedMembers] at done
      obtain ⟨x', here, done⟩ := bind_eq_ok.1 done
      obtain ⟨rest, later, same⟩ := bind_eq_ok.1 done
      cases same
      exact .cons here (ih later)

/-- The two sides of a pass over properties. -/
theorem forall₂_simplifiedFields {ps ps' : Entries} (done : simplifiedFields ps = .ok ps') :
    List.Forall₂ (fun p p' => p'.1 = p.1 ∧ simplified p.2 = .ok p'.2) ps ps' := by
  induction ps generalizing ps' with
  | nil =>
      cases done
      exact .nil
  | cons p ps ih =>
      obtain ⟨k, v⟩ := p
      rw [simplifiedFields] at done
      obtain ⟨v', here, done⟩ := bind_eq_ok.1 done
      obtain ⟨rest, later, same⟩ := bind_eq_ok.1 done
      cases same
      exact .cons ⟨rfl, here⟩ (ih later)

/-- `Simplifies es es'`: the entries of a schema side by side with what the pass makes of
them. -/
inductive Simplifies : Entries → Entries → Prop
  | nil : Simplifies [] []
  | documenting {key : String} {v : Value} {es es' : Entries} : key ∈ documentingKeywords →
    Simplifies es es' → Simplifies ((.string key, v) :: es) es'
  | keyword {key : String} {v v' : Value} {es es' : Entries} : key ∉ documentingKeywords →
    simplifiedUnder key v = .ok v' → Simplifies es es' →
    Simplifies ((.string key, v) :: es) ((.string key, v') :: es')
  | other {k : Scalar} {v : Value} {es es' : Entries} : (∀ key, k ≠ .string key) →
    Simplifies es es' → Simplifies ((k, v) :: es) ((k, v) :: es')

theorem simplifies_of_eq_ok (done : simplifiedEntries es = .ok es') : Simplifies es es' := by
  induction es generalizing es' with
  | nil =>
      cases done
      exact .nil
  | cons e es ih =>
      obtain ⟨k, v⟩ := e
      rw [simplifiedEntries.eq_def] at done
      dsimp only at done
      split at done
      · split at done
        · next documenting => exact .documenting (List.contains_iff_mem.1 documenting) (ih done)
        · next kept =>
            obtain ⟨v', here, done⟩ := bind_eq_ok.1 done
            obtain ⟨rest, later, same⟩ := bind_eq_ok.1 done
            cases same
            exact .keyword (mt List.contains_iff_mem.2 kept) here (ih later)
      · next other =>
          obtain ⟨rest, later, same⟩ := bind_eq_ok.1 done
          cases same
          exact .other other (ih later)

namespace Simplifies

variable (pass : Simplifies es es')

include pass

/-- What stands under a keyword that is not dropped is what stood there, simplified. -/
theorem rel_get? (key : String) (kept : key ∉ documentingKeywords) :
    Option.Rel (fun v v' => simplifiedUnder key v = .ok v')
      (Entries.get? es key) (Entries.get? es' key) := by
  induction pass with
  | nil => exact .none
  | @documenting at_key v _ _ documenting _ ih =>
      have other : Scalar.string at_key ≠ .string key := by
        rintro ⟨⟩
        exact kept documenting
      rw [Entries.get?_cons, if_neg other]
      exact ih
  | @keyword at_key _ _ _ _ _ here _ ih =>
      rw [Entries.get?_cons, Entries.get?_cons]
      by_cases same : at_key = key
      · subst same
        rw [if_pos rfl, if_pos rfl]
        exact .some here
      · have other : Scalar.string at_key ≠ .string key := fun eq => same (Scalar.string.inj eq)
        rw [if_neg other, if_neg other]
        exact ih
  | other no_keyword _ ih =>
      rw [Entries.get?_cons, Entries.get?_cons, if_neg (no_keyword key), if_neg (no_keyword key)]
      exact ih

/-- A value that the pass neither drops nor goes into stands where it stood. -/
theorem get?_eq (key : String) (kept : key ∉ documentingKeywords) (plain : key ∉ schemaKeywords) :
    Entries.get? es' key = Entries.get? es key := by
  obtain ⟨none, none'⟩ | ⟨v, v', found, found', here⟩ := cases_of_rel (pass.rel_get? key kept)
  · rw [none, none']
  · rw [simplifiedUnder_of_plain plain] at here
    cases here
    rw [found, found']

/-- A keyword that is not dropped is still there, and no other has come in. -/
theorem has_eq (key : String) (kept : key ∉ documentingKeywords) :
    Entries.has es' key = Entries.has es key := isSome_eq_of_rel (pass.rel_get? key kept)

/-- The list of schemas that a keyword joins. -/
theorem rel_listAt? (g : Anchors) (key : String) (joining : key ∈ joiningKeywords) :
    Option.Rel (fun xs xs' => simplifiedMembers xs = .ok xs')
      (g.listAt? es key) (g.listAt? es' key) := by
  have apart : ∀ key ∈ joiningKeywords, key ∉ documentingKeywords := by decide
  unfold Anchors.listAt?
  obtain ⟨none, none'⟩ | ⟨v, v', found, found', here⟩ :=
    cases_of_rel (pass.rel_get? key (apart key joining))
  · rw [none, none']
    exact .none
  · rw [found, found']
    exact rel_items? g joining here

/-- The object of schemas under `properties`. -/
theorem rel_objectAt? (g : Anchors) :
    Option.Rel (fun ps ps' => simplifiedFields ps = .ok ps')
      (g.objectAt? es "properties") (g.objectAt? es' "properties") := by
  have kept : "properties" ∉ documentingKeywords := by decide
  unfold Anchors.objectAt?
  obtain ⟨none, none'⟩ | ⟨v, v', found, found', here⟩ := cases_of_rel (pass.rel_get? _ kept)
  · rw [none, none']
    exact .none
  · rw [found, found']
    exact rel_entries? g here

/-- The entries that are looked up stay. -/
theorem consulted_eq : Entries.consulted es' = Entries.consulted es := by
  have plain : ∀ key ∈ consultedKeywords, key ∉ documentingKeywords ∧ key ∉ schemaKeywords := by
    decide
  unfold Entries.consulted
  induction pass with
  | nil => rfl
  | @documenting key v es es' documenting _ ih =>
      have forgotten : ¬ (Scalar.string key).isConsulted = true := fun consulted =>
        (plain key (List.contains_iff_mem.1 consulted)).1 documenting
      rw [List.filter_cons, if_neg forgotten, ih]
  | @keyword key v v' es es' kept here _ ih =>
      rw [List.filter_cons, List.filter_cons, ih]
      split
      · next consulted =>
          rw [simplifiedUnder_of_plain (plain key (List.contains_iff_mem.1 consulted)).2] at here
          cases here
          rfl
      · rfl
  | other _ _ ih =>
      rw [List.filter_cons, List.filter_cons, ih]

/-! ### The shape stays -/

theorem listAt?_eq (g : Anchors) (key : String) (kept : key ∉ documentingKeywords)
    (plain : key ∉ schemaKeywords) : g.listAt? es' key = g.listAt? es key := by
  unfold Anchors.listAt?
  rw [pass.get?_eq key kept plain]

theorem requiredNames_eq (g : Anchors) : requiredNames g es' = requiredNames g es := by
  unfold requiredNames
  rw [pass.listAt?_eq g "required" (by decide) (by decide)]

/-- The facts say the same, except for keywords that are never looked up. -/
theorem factsOf_eq (g : Anchors) :
    factsOf g es' = { factsOf g es with keywords := es' } := by
  have plain : ∀ key ∈ factKeywords, key ∉ documentingKeywords ∧ key ∉ schemaKeywords := by decide
  refine factsOf_congr fun key mem => ?_
  exact pass.get?_eq key (plain key mem).1 (plain key mem).2

theorem consulted_factsOf (g : Anchors) :
    (factsOf g es').consulted = (factsOf g es).consulted := by
  rw [pass.factsOf_eq g]
  unfold Facts.consulted
  dsimp only
  rw [pass.consulted_eq]
  rfl

theorem formOf_eq (g : Anchors) : formOf g es' = formOf g es := by
  have kept : ∀ key ∈ shapeKeywords, key ∉ documentingKeywords := by decide
  have joining (c : Combinator) : c.keyword ∈ joiningKeywords := by cases c <;> decide
  have reference : Entries.string? es' "$ref" = Entries.string? es "$ref" := by
    unfold Entries.string?
    rw [pass.get?_eq "$ref" (by decide) (by decide)]
  exact formOf_congr (pass.factsOf_eq g) (fun key mem => pass.has_eq key (kept key mem)) reference
    (pass.listAt?_eq g "enum" (by decide) (by decide)) (isSome_eq_of_rel (pass.rel_objectAt? g))
    fun c => isSome_eq_of_rel (pass.rel_listAt? g c.keyword (joining c))

end Simplifies

/-! ### Nodes agree -/

mutual

/-- Forgetting keywords is one way to keep other data. -/
theorem recast_consulted : (node : Node) →
    node.recast Entries.consulted (fun v => v) = node.consulted
  | .absent | .unknown _ | .empty _ | .reference _ _ | .array _ none | .primitive _ => rfl
  | .array f (some items) => by
      rw [Node.recast, Node.consulted, recast_consulted items]
      rfl
  | .object f ps required additional => by
      rw [Node.recast, Node.consulted, recastFields_consulted ps, recast_consultedAdditional]
      rfl
  | .enumeration f values => by
      rw [Node.recast, Node.consulted, List.map_id']
      rfl
  | .composition f c members => by
      rw [Node.recast, Node.consulted, recastMembers_consulted members]
      rfl

theorem recastFields_consulted : (fields : List (String × Node)) →
    Node.recastFields Entries.consulted (fun v => v) fields = Node.consultedFields fields
  | [] => rfl
  | (name, node) :: rest => by
      rw [Node.recastFields, Node.consultedFields, recast_consulted node,
        recastFields_consulted rest]

theorem recastMembers_consulted : (members : List Node) →
    Node.recastMembers Entries.consulted (fun v => v) members = Node.consultedMembers members
  | [] => rfl
  | node :: rest => by
      rw [Node.recastMembers, Node.consultedMembers, recast_consulted node,
        recastMembers_consulted rest]

theorem recast_consultedAdditional : (additional : Additional) →
    additional.recast Entries.consulted (fun v => v) = additional.consulted
  | .unstated | .flag _ => rfl
  | .schema node => by rw [Additional.recast, Additional.consulted, recast_consulted node]

end

/-- `ReadAlike g active v v'`: the nodes of two values differ only in keywords that are never
looked up. -/
def ReadAlike (g : Anchors) (active : List Nat) (v v' : Value) : Prop :=
  Node.consulted <$> Node.classify g active v' = Node.consulted <$> Node.classify g active v

/-- Schemas are read without the keywords that are never looked up. -/
def consultedReading (g : Anchors) (active : List Nat) : Reading where
  anchors := g
  active := active
  keywords := Entries.consulted

theorem consultedReading_recast (g : Anchors) (active : List Nat) :
    (consultedReading g active).recast = Node.consulted :=
  funext recast_consulted

/-- Simplifying a value keeps what it is. -/
theorem valuesBeside_of_simplified (done : simplified v = .ok v')
    (alike : ReadAlike g active v v') :
    ValuesBeside (· = ·) (consultedReading g active) (consultedReading g active) v v' := by
  have node : (consultedReading g active).node v' = (consultedReading g active).node v := by
    rw [Reading.node, Reading.node, consultedReading_recast]
    exact alike
  cases v with
  | object es =>
      obtain ⟨es', -, same⟩ := bind_eq_ok.1 done
      cases same
      exact ⟨rfl, rfl, rfl, Traced.beside_of_eq node⟩
  | aliasTo n => cases done
  | _ =>
      cases done
      exact ⟨rfl, rfl, rfl, Traced.beside_of_eq rfl⟩

/-- A schema and its simplified form agree in what is recognised in them. -/
theorem schemasBeside_of_simplifies (pass : Simplifies es es')
    (below : ∀ v v', v.weight ≤ Value.entryWeights es → simplified v = .ok v' →
      ReadAlike g active v v') :
    SchemasBeside (· = ·) (consultedReading g active) (consultedReading g active) es es' := by
  have alike (v v' : Value) (light : v.weight ≤ Value.entryWeights es)
      (done : simplified v = .ok v') :=
    valuesBeside_of_simplified done (below v v' light done)
  have nested (key : String) (kept : key ∉ documentingKeywords) (nests : key ∈ nestingKeywords) :
      Option.Rel
        (ValuesBeside (· = ·) (consultedReading g active) (consultedReading g active))
        (Entries.get? es key) (Entries.get? es' key) := by
    refine rel_imp (pass.rel_get? key kept) fun v v' found _ here => ?_
    rw [simplifiedUnder_of_nesting nests] at here
    exact alike v v' (Entries.weight_le_of_get? found) here
  refine {
    facts := pass.consulted_factsOf g
    form := congrArg (Form.recast fun v => v) (pass.formOf_eq g)
    required := pass.requiredNames_eq g
    items := nested "items" (by decide) (by decide)
    additional := nested "additionalProperties" (by decide) (by decide)
    properties := rel_imp (pass.rel_objectAt? g) fun ps ps' found _ here => ?_
    members := fun c => rel_imp (pass.rel_listAt? g c.keyword ?_) fun vs vs' found _ here => ?_ }
  · have light : ∀ p ∈ ps, p.2.weight ≤ Value.entryWeights es := fun p mem =>
      Anchors.weight_le_of_objectAt? found mem
    refine ((List.forall₂_and_left _ _).2 ⟨light, forall₂_simplifiedFields here⟩).imp ?_
    rintro p p' ⟨small, same_name, done⟩
    exact ⟨same_name, alike p.2 p'.2 small done⟩
  · cases c <;> decide
  · have light : ∀ v ∈ vs, v.weight ≤ Value.entryWeights es := fun v mem =>
      Anchors.weight_le_of_listAt? found mem
    refine ((List.forall₂_and_left _ _).2 ⟨light, forall₂_simplifiedMembers here⟩).imp ?_
    exact fun v v' both => alike v v' both.1 both.2

/-- **The node of a schema and of its simplified form** differ only in keywords that are never
looked up. -/
theorem readAlike_of_simplified (g : Anchors) (active : List Nat) (done : simplified v = .ok v') :
    ReadAlike g active v v' := by
  -- Every schema inside weighs less, and the pass enters no alias, so `active` stays as it is.
  induction weight : v.weight using Nat.strongRecOn generalizing v v' with
  | _ weight lighter =>
      subst weight
      cases v with
      | object es =>
          obtain ⟨es', entries, same⟩ := bind_eq_ok.1 done
          cases same
          have pass := simplifies_of_eq_ok entries
          unfold ReadAlike
          rw [Node.classify, Node.classify, ← consultedReading_recast g active]
          refine (schemasBeside_of_simplifies pass fun u u' small simple => ?_).node_eq
          refine lighter u.weight ?_ simple rfl
          rw [Value.weight]
          exact Nat.lt_succ_of_le small
      | aliasTo n => cases done
      | _ =>
          cases done
          rfl

/-! ### What is rendered -/

/-- A type depends on the node without the keywords that are never looked up. -/
theorem TypeScript.typeOf_eq_bind (c : TypeScript.Context) (u : Value) :
    TypeScript.typeOf c u
      = (consultedReading c.anchors []).node u >>= TypeScript.TypeExpr.ofNode c := by
  rw [Reading.node, consultedReading_recast, bind_map_left]
  exact bind_congr fun node => (TypeScript.ofNode_consulted c node).symm

/-- A validator depends on the node without the keywords that are never looked up. -/
theorem Zod.validatorOf_eq_bind (c : Zod.Context) (u : Value) :
    Zod.validatorOf c u = (consultedReading c.anchors []).node u >>= Zod.Validator.ofNode c := by
  rw [Reading.node, consultedReading_recast, bind_map_left]
  exact bind_congr fun node => (Zod.ofNode_consulted c node).symm

theorem node_simplified (done : simplified v = .ok v') :
    (consultedReading g active).node v' = (consultedReading g active).node v := by
  rw [Reading.node, Reading.node, consultedReading_recast]
  exact readAlike_of_simplified g active done

theorem typeOf_simplified (c : TypeScript.Context) (done : simplified v = .ok v') :
    TypeScript.typeOf c v' = TypeScript.typeOf c v := by
  rw [TypeScript.typeOf_eq_bind, TypeScript.typeOf_eq_bind, node_simplified done]

theorem validatorOf_simplified (c : Zod.Context) (done : simplified v = .ok v') :
    Zod.validatorOf c v' = Zod.validatorOf c v := by
  rw [Zod.validatorOf_eq_bind, Zod.validatorOf_eq_bind, node_simplified done]

/-- **Simplifying preserves meaning**: a tree has a simplified form, which is rendered as the
tree itself, by every dictionary and all options, also where that fails and with the same
notices, and which stays as it is when it is simplified again. -/
theorem simplifySchema_preserves_rendering (g : Anchors) {schema : Value}
    (tree : schema.isTree = true) : ∃ simple, simplifySchema g schema = .ok simple ∧
      (∀ c : TypeScript.Context,
        TypeScript.typeText c simple = TypeScript.typeText c schema) ∧
      (∀ c : Zod.Context, Zod.validatorText c simple = Zod.validatorText c schema) ∧
      simplifySchema g simple = .ok simple := by
  obtain ⟨simple, done, simple_tree, again⟩ := normalizes_simplified schema tree
  refine ⟨simple, ?_, fun c => ?_, fun c => ?_, ?_⟩
  · rw [simplifySchema, unshare_of_isTree tree, done]
  · rw [TypeScript.typeText, typeOf_simplified c done]
    rfl
  · rw [Zod.validatorText, validatorOf_simplified c done]
    rfl
  · rw [simplifySchema, unshare_of_isTree simple_tree, again]

/-- A schema with documentation around a property that is itself called `example`. -/
def documentedPet : Value := .record
  [("type", .string "object"), ("xml", .record [("name", .string "pet")]),
    ("properties", .record
      [("example", .record [("type", .string "string"), ("example", .string "Rex")])])]

example : simplified documentedPet = .ok (.record
    [("type", .string "object"),
      ("properties", .record [("example", .record [("type", .string "string")])])]) := rfl

theorem simplifySchema_preserves_rendering_pet : documentedPet.isTree = true ∧
    ∃ simple, simplifySchema {} documentedPet = .ok simple ∧
      (∀ c : TypeScript.Context,
        TypeScript.typeText c simple = TypeScript.typeText c documentedPet) ∧
      (∀ c : Zod.Context, Zod.validatorText c simple = Zod.validatorText c documentedPet) ∧
      simplifySchema {} simple = .ok simple :=
  ⟨rfl, simplifySchema_preserves_rendering {} rfl⟩

end SchemaCodegen
