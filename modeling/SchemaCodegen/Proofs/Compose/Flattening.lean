import Mathlib
import SchemaCodegen.Compose.Flatten
import SchemaCodegen.Proofs.Compose.Collapsed

/-!
# Where flattening ends

Flattening descends from a schema and the references seen on the way to it to the properties
and array items of what the schema is expanded to (`Descends`).  A reference that was seen
before is a leaf.  Those of `allOf` members are followed by collapsing, which keeps no record of
them on the way down; so a descent may come back to where it was.

Without a limit, flattening trees ends if no descent comes back to itself
(`settles_of_not_loops`), and gives no result otherwise (`Loops.not_returns`).  It always ends
when no member of `allOf` is a reference (`not_loops_of_plainMembers`).

### Why it ends

All schemas on the way down have their values from within the schema and its dictionary, which
are finitely many, and the references seen only grow.  So an endless descent has to come back
to one of its states (`acc_of_acyclic`).
-/

namespace SchemaCodegen

open Relation Traced

variable {g : Anchors} {d : Option Entries} {P S : Value → Prop} {es fs ps : Entries}
  {schema u v : Value} {seen seen' : List String} {ref : String} {limit : Nat}
  {segments : List String} {required : Bool}

/-! ### Expanding -/

/-- A schema that is no reference, with `allOf` collapsed. -/
def opened (g : Anchors) (d : Option Entries) (v : Value) : Traced (Option Entries) :=
  match g.entries? v with
  | none => pure none
  | some es => if (g.listAt? es "allOf").isSome then some <$> mergeAllOf g v d else pure (some es)

theorem expandSchema_of_plain (plain : reference? g v = none) :
    expandSchema g d seen v = (do pure (← opened g d v, seen)) := by
  unfold expandSchema
  rw [plain]
  rfl

/-- A reference that was seen before is not expanded. -/
theorem expandSchema_of_mem (refers : reference? g v = some ref) (mem : ref ∈ seen) :
    expandSchema g d seen v = pure (none, seen) := by
  unfold expandSchema
  rw [refers]
  cases d with
  | none => rfl
  | some es => exact if_pos mem

theorem expandSchema_of_not_mem (refers : reference? g v = some ref) (new : ref ∉ seen) :
    expandSchema g (some ps) seen v = (do
      match ← followInto g (some ps) v with
      | some target => pure (← opened g (some ps) target, ref :: seen)
      | none => pure (none, ref :: seen)) := by
  unfold expandSchema
  rw [refers]
  exact if_neg new

/-- Opening a schema that is gathered ends, in a collapsed schema. -/
theorem Gathers.endsIn_opened (gathers : Gathers g d S P)
    (visited : g.isObject v = true → S v) :
    (opened g d v).EndsIn fun expanded => ∀ es ∈ expanded, IsCollapsed g P es := by
  unfold opened
  cases entries : g.entries? v with
  | none => exact endsIn_pure nofun
  | some es =>
      have visited : S v := visited (by rw [Anchors.isObject, entries]; rfl)
      have collapsed : (mergeAllOf g v d).EndsIn (IsCollapsed g P) :=
        gathers.endsIn_collapse visited
      dsimp only
      cases at_key : g.listAt? es "allOf" with
      | none =>
          have same : mergeAllOf g v d = pure es := collapse_of_noMembers entries at_key
          rw [same] at collapsed
          exact endsIn_pure fun fs mem => collapsed.2 fs (by rw [Option.some.inj mem]; rfl)
      | some members =>
          exact collapsed.bind fun fs has => endsIn_pure fun fs' same => Option.some.inj same ▸ has

/-- `Takes g v seen seen'`: the references seen after expanding a schema, its own among them. -/
inductive Takes (g : Anchors) (v : Value) (seen : List String) : List String → Prop
  | nothing (plain : reference? g v = none) : Takes g v seen seen
  | own (ref : String) (refers : reference? g v = some ref) (new : ref ∉ seen) :
      Takes g v seen (ref :: seen)

/-- Expanding ends.  What a schema is expanded to is collapsed, from the schema itself or from
what it refers to. -/
theorem Gathers.endsIn_expandSchema (gathers : Gathers g d S P) (seen : List String)
    (own : g.isObject v = true → reference? g v = none → S v)
    (target : ∀ ref t, reference? g v = some ref → (followInto g d v).result = .ok (some t) → S t) :
    (expandSchema g d seen v).EndsIn fun r =>
      ∀ es ∈ r.1, IsCollapsed g P es ∧ Takes g v seen r.2 := by
  cases refers : reference? g v with
  | none =>
      rw [expandSchema_of_plain refers]
      refine (gathers.endsIn_opened fun object => own object refers).bind fun _ collapsed => ?_
      exact endsIn_pure fun es mem => ⟨collapsed es mem, .nothing refers⟩
  | some ref =>
      by_cases mem : ref ∈ seen
      · rw [expandSchema_of_mem refers mem]
        exact endsIn_pure nofun
      · cases d with
        | none =>
            unfold expandSchema
            rw [refers]
            exact endsIn_pure nofun
        | some ps =>
            rw [expandSchema_of_not_mem refers mem]
            refine (ends_followInto _ v).endsIn.bind fun found ok => ?_
            cases found with
            | none => exact endsIn_pure nofun
            | some t =>
                refine (gathers.endsIn_opened fun _ => target ref t refers ok).bind fun _ has => ?_
                exact endsIn_pure fun es mem_es => ⟨has es mem_es, .own ref refers mem⟩

/-! ### Descending -/

/-- `Descends g d s t`: from a schema and the references seen on the way to it, flattening goes
on to a property, or to array items that are an object. -/
inductive Descends (g : Anchors) (d : Option Entries) :
    List String × Value → List String × Value → Prop
  | property {seen seen' : List String} {v : Value} {es ps : Entries} {p : Scalar × Value}
      (expanded : (expandSchema g d seen v).result = .ok (some es, seen'))
      (properties : g.objectAt? es "properties" = some ps) (mem : p ∈ ps) :
      Descends g d (seen, v) (seen', p.2)
  | items {seen seen' seen'' : List String} {v u : Value} {es fs ps : Entries}
      (expanded : (expandSchema g d seen v).result = .ok (some es, seen'))
      (no_properties : g.objectAt? es "properties" = none) (array : hasType es "array" = true)
      (at_items : Entries.get? es "items" = some u)
      (inner : (expandSchema g d seen' u).result = .ok (some fs, seen''))
      (properties : g.objectAt? fs "properties" = some ps) :
      Descends g d (seen, v) (seen', u)

/-- A descent leads to what was gathered, and takes a reference on the way if the schema is
one. -/
theorem Gathers.of_descends (gathers : Gathers g d S P)
    (own : g.isObject v = true → reference? g v = none → S v)
    (target : ∀ ref t, reference? g v = some ref → (followInto g d v).result = .ok (some t) → S t)
    (step : Descends g d (seen, v) (seen', u)) : P u ∧ Takes g v seen seen' := by
  have spec := (gathers.endsIn_expandSchema seen own target).2
  cases step with
  | property expanded properties mem =>
      obtain ⟨collapsed, takes⟩ := spec _ expanded _ rfl
      exact ⟨collapsed.composed.of_properties gathers.passes properties _ mem, takes⟩
  | items expanded no_properties array at_items inner properties =>
      obtain ⟨collapsed, takes⟩ := spec _ expanded _ rfl
      exact ⟨collapsed.composed.of_get? at_items (by simp), takes⟩

section Trees

variable (trees : ∀ root ∈ rootsOf schema d, root.isTree = true)

include trees

theorem endsIn_expandSchema_within (seen : List String)
    (within : g.isObject v = true → Within g (rootsOf schema d) v) :
    (expandSchema g d seen v).EndsIn fun r =>
      ∀ es ∈ r.1, IsCollapsed g (Within g (rootsOf schema d)) es ∧ Takes g v seen r.2 :=
  (gathers_within trees).endsIn_expandSchema seen (fun object _ => within object)
    fun _ _ refers found => (of_followInto refers found).1

/-- A descent stays within the roots. -/
theorem Descends.within (within : Within g (rootsOf schema d) v)
    (step : Descends g d (seen, v) (seen', u)) :
    Within g (rootsOf schema d) u ∧ Takes g v seen seen' :=
  (gathers_within trees).of_descends (fun _ _ => within)
    (fun _ _ refers found => (of_followInto refers found).1) step

theorem Takes.untaken_lt (within : Within g (rootsOf schema d) v) (takes : Takes g v seen seen') :
    (reference? g v = none ∧ seen' = seen)
      ∨ untaken (rootsOf schema d) seen' < untaken (rootsOf schema d) seen := by
  cases takes with
  | nothing plain => exact .inl ⟨plain, rfl⟩
  | own ref refers new =>
      obtain ⟨es, entries, found⟩ := reference?_eq_some.1 refers
      have text := (within.composed entries).of_string? found (by simp)
      exact .inr (untaken_cons_lt trees text new)

theorem within_of_reflTransGen {s : List String × Value}
    (way : ReflTransGen (Descends g d) ([], schema) s) : Within g (rootsOf schema d) s.2 := by
  induction way with
  | refl => exact .of_mem List.mem_cons_self
  | tail _ step ih => exact (Descends.within trees ih step).1

/-- Without references among the members of `allOf`, a descent takes a reference or leads to a
lighter schema. -/
theorem Descends.untaken_or_weight_lt (plain : PlainMembers g (rootsOf schema d))
    (within : Within g (rootsOf schema d) v) (step : Descends g d (seen, v) (seen', u)) :
    untaken (rootsOf schema d) seen' < untaken (rootsOf schema d) seen
      ∨ seen' = seen ∧ u.weight < v.weight := by
  obtain ⟨no_reference, same⟩ | fewer := (step.within trees within).2.untaken_lt trees within
  · have light := (gathers_lighter trees plain v.weight).of_descends
      (fun _ _ => ⟨within, Nat.le_refl _⟩)
      (fun _ _ refers _ => nomatch no_reference.symm.trans refers) step
    exact .inr ⟨same, light.1.2⟩
  · exact .inl fewer

end Trees

/-! ### What follows the expansion -/

/-- The leaves of a schema that has been expanded. -/
def flattenExpanded (g : Anchors) (d : Option Entries) (segments : List String) (required : Bool)
    (schema : Value) (limit : Nat) (r : Option Entries × List String) : Traced (List FlatField) :=
  match r.1.bind fun es => (g.objectAt? es "properties").map fun ps => (es, ps) with
  | some (es, properties) => do
    let parts ← properties.mapM fun p =>
      flattenWithin g d limit (segments ++ [p.1.shown])
        ((requiredNames g es).any (Scalar.string · == p.1)) r.2 p.2
    pure parts.flatten
  | none =>
    let leaf := leafAt segments required (r.1.getD ((g.entries? schema).getD []))
    match r.1.filter (hasType · "array") with
    | none => pure leaf
    | some es => do
      let items := (Entries.get? es "items").getD .null
      let (inner, _) ← expandSchema g d r.2 items
      if (inner.bind (g.objectAt? · "properties")).isSome then
        flattenWithin g d limit (segments ++ ["[]"]) required r.2 items
      else pure leaf

theorem flattenWithin_succ : flattenWithin g d (limit + 1) segments required seen v
    = expandSchema g d seen v >>= flattenExpanded g d segments required v limit := rfl

theorem flattenExpanded_of_properties (properties : g.objectAt? es "properties" = some ps) :
    flattenExpanded g d segments required v limit (some es, seen) = (do
      let parts ← ps.mapM fun p =>
        flattenWithin g d limit (segments ++ [p.1.shown])
          ((requiredNames g es).any (Scalar.string · == p.1)) seen p.2
      pure parts.flatten) := by
  unfold flattenExpanded
  dsimp only [Option.bind_some]
  rw [properties]
  rfl

theorem flattenExpanded_of_array (none : g.objectAt? es "properties" = none)
    (array : hasType es "array" = true) :
    flattenExpanded g d segments required v limit (some es, seen) = (do
      let items := (Entries.get? es "items").getD .null
      let (inner, _) ← expandSchema g d seen items
      if (inner.bind (g.objectAt? · "properties")).isSome then
        flattenWithin g d limit (segments ++ ["[]"]) required seen items
      else pure (leafAt segments required es)) := by
  unfold flattenExpanded
  dsimp only [Option.bind_some, Option.filter_some]
  rw [none, array]
  rfl

theorem flattenExpanded_of_leaf (none : g.objectAt? es "properties" = none)
    (no_array : hasType es "array" = false) :
    flattenExpanded g d segments required v limit (some es, seen)
      = pure (leafAt segments required es) := by
  unfold flattenExpanded
  dsimp only [Option.bind_some, Option.filter_some]
  rw [none, no_array]
  rfl

/-- The schema is expanded to an object without any property. -/
def IsHollow (g : Anchors) (d : Option Entries) (s : List String × Value) : Prop :=
  ∃ es seen', (expandSchema g d s.1 s.2).result = .ok (some es, seen')
    ∧ g.objectAt? es "properties" = some []

/-- `FlattensTo g d limit segments required seen v leaves`: one step of flattening.  A schema is a
leaf itself where nothing is descended to and it is not hollow; otherwise its leaves are those of
its properties, or of its items. -/
inductive FlattensTo (g : Anchors) (d : Option Entries) (limit : Nat) (segments : List String)
    (required : Bool) (seen : List String) (v : Value) : List FlatField → Prop
  | leaf (es : Entries) (ends : ∀ t, ¬ Descends g d (seen, v) t) (solid : ¬ IsHollow g d (seen, v)) :
      FlattensTo g d limit segments required seen v (leafAt segments required es)
  | properties {es ps : Entries} {seen' : List String} {parts : List (List FlatField)}
      (expanded : (expandSchema g d seen v).result = .ok (some es, seen'))
      (properties : g.objectAt? es "properties" = some ps)
      (each : List.Forall₂ (fun p part => (flattenWithin g d limit (segments ++ [p.1.shown])
        ((requiredNames g es).any (Scalar.string · == p.1)) seen' p.2).result = .ok part) ps parts) :
      FlattensTo g d limit segments required seen v parts.flatten
  | items {es fs ps : Entries} {seen' seen'' : List String} {items : Value}
      {leaves : List FlatField}
      (expanded : (expandSchema g d seen v).result = .ok (some es, seen'))
      (no_properties : g.objectAt? es "properties" = none) (array : hasType es "array" = true)
      (at_items : Entries.get? es "items" = some items)
      (inner : (expandSchema g d seen' items).result = .ok (some fs, seen''))
      (properties : g.objectAt? fs "properties" = some ps)
      (below : (flattenWithin g d limit (segments ++ ["[]"]) required seen' items).result
        = .ok leaves) :
      FlattensTo g d limit segments required seen v leaves

/-- What is expanded to nothing is a leaf. -/
theorem flattensTo_of_none {leaf : Entries}
    (expanded : (expandSchema g d seen v).result = .ok (none, seen')) :
    FlattensTo g d limit segments required seen v (leafAt segments required leaf) := by
  refine .leaf leaf (fun t step => ?_) ?_
  · cases step with
    | property expanded' => cases expanded.symm.trans expanded'
    | items expanded' => cases expanded.symm.trans expanded'
  · rintro ⟨es, seen'', expanded', -⟩
    cases expanded.symm.trans expanded'

/-- What has no properties is a leaf, unless its items are descended to. -/
theorem flattensTo_of_noProperties {leaf : Entries}
    (expanded : (expandSchema g d seen v).result = .ok (some es, seen'))
    (no_properties : g.objectAt? es "properties" = none)
    (no_items : ∀ items fs seen'' ps, hasType es "array" = true →
      Entries.get? es "items" = some items →
      (expandSchema g d seen' items).result = .ok (some fs, seen'') →
      g.objectAt? fs "properties" ≠ some ps) :
    FlattensTo g d limit segments required seen v (leafAt segments required leaf) := by
  refine .leaf leaf (fun t step => ?_) ?_
  · cases step with
    | property expanded' properties =>
        cases expanded.symm.trans expanded'
        cases no_properties.symm.trans properties
    | items expanded' _ array at_items inner properties =>
        cases expanded.symm.trans expanded'
        exact no_items _ _ _ _ array at_items inner properties
  · rintro ⟨fs, seen'', expanded', properties⟩
    cases expanded.symm.trans expanded'
    cases no_properties.symm.trans properties

/-- **One step of flattening.** -/
theorem flattensTo_of_flattenWithin {leaves : List FlatField}
    (found : (flattenWithin g d (limit + 1) segments required seen v).result = .ok leaves) :
    FlattensTo g d limit segments required seen v leaves := by
  rw [flattenWithin_succ] at found
  obtain ⟨⟨expansion, seen'⟩, expanded, found⟩ := result_bind_eq_ok.1 found
  cases expansion with
  | none =>
      cases found
      exact flattensTo_of_none expanded
  | some es =>
      cases properties : g.objectAt? es "properties" with
      | some ps =>
          rw [flattenExpanded_of_properties properties] at found
          obtain ⟨parts, each, same⟩ := result_bind_eq_ok.1 found
          cases same
          exact .properties expanded properties (result_mapM_eq_ok.1 each)
      | none =>
          cases array : hasType es "array" with
          | false =>
              rw [flattenExpanded_of_leaf properties array] at found
              cases found
              refine flattensTo_of_noProperties expanded properties fun _ _ _ _ is_array => ?_
              cases array.symm.trans is_array
          | true =>
              rw [flattenExpanded_of_array properties array] at found
              obtain ⟨⟨inner, seen''⟩, expands_items, found⟩ := result_bind_eq_ok.1 found
              dsimp only at expands_items found
              split at found
              · next has_properties =>
                  obtain ⟨ps, at_inner⟩ := Option.isSome_iff_exists.1 has_properties
                  obtain ⟨fs, rfl, at_fs⟩ := Option.bind_eq_some_iff.1 at_inner
                  cases at_items : Entries.get? es "items" with
                  | none =>
                      -- Where there are no items, nothing is expanded.
                      have plain : reference? g .null = none := rfl
                      rw [at_items, Option.getD_none, expandSchema_of_plain plain] at expands_items
                      cases expands_items
                  | some items =>
                      rw [at_items] at expands_items found
                      exact .items expanded properties array at_items expands_items at_fs found
              · next no_object =>
                  cases found
                  refine flattensTo_of_noProperties expanded properties fun items fs _ ps _ at_items
                    expands_items' at_fs => no_object ?_
                  rw [at_items, Option.getD_some] at expands_items
                  cases expands_items.symm.trans expands_items'
                  exact Option.isSome_of_eq_some at_fs

section Settling

variable (trees : ∀ root ∈ rootsOf schema d, root.isTree = true)
  (below : ∀ t, Descends g d (seen, v) t → ∀ segments required,
    Settles fun n => flattenWithin g d n segments required t.1 t.2)

include trees below

/-- The items of an array are descended into or the array is a leaf. -/
theorem settles_of_array (expanded : (expandSchema g d seen v).result = .ok (some es, seen'))
    (composed : Composed (Within g (rootsOf schema d)) es)
    (no_properties : g.objectAt? es "properties" = none) (array : hasType es "array" = true) :
    Settles fun n => flattenExpanded g d segments required v n (some es, seen') := by
  simp only [flattenExpanded_of_array no_properties array]
  cases at_items : Entries.get? es "items" with
  | none =>
      have plain : reference? g .null = none := rfl
      simp only [Option.getD_none, expandSchema_of_plain plain]
      exact settles_const (ends_pure _)
  | some items =>
      have within : Within g (rootsOf schema d) items := composed.of_get? at_items (by simp)
      have ends := (endsIn_expandSchema_within trees seen' fun _ => within).1
      refine settles_bind ends fun r inner => ?_
      obtain ⟨inner_es, seen''⟩ := r
      dsimp only
      split
      · next has_properties =>
          obtain ⟨ps, found⟩ := Option.isSome_iff_exists.1 has_properties
          obtain ⟨fs, rfl, properties⟩ := Option.bind_eq_some_iff.1 found
          exact below _ (.items expanded no_properties array at_items inner properties) _ _
      · exact settles_const (ends_pure _)

/-- Flattening settles when it does below each step of the descent. -/
theorem settles_of_descends (within : Within g (rootsOf schema d) v) :
    Settles fun n => flattenWithin g d n segments required seen v := by
  obtain ⟨ends, collapsed⟩ := endsIn_expandSchema_within trees seen fun _ => within
  refine settles_of_succ ?_
  simp only [flattenWithin_succ]
  refine settles_bind ends fun r expanded => ?_
  obtain ⟨expansion, seen'⟩ := r
  cases expansion with
  | none => exact settles_const (ends_pure _)
  | some es =>
      cases properties : g.objectAt? es "properties" with
      | some ps =>
          simp only [flattenExpanded_of_properties properties]
          refine (settles_mapM fun p mem => ?_).bind fun _ _ _ => settles_const (ends_pure _)
          exact below _ (.property expanded properties mem) _ _
      | none =>
          cases array : hasType es "array" with
          | true =>
              have composed := (collapsed _ expanded es rfl).1.composed
              exact settles_of_array trees below expanded composed properties array
          | false =>
              simp only [flattenExpanded_of_leaf properties array]
              exact settles_const (ends_pure _)

end Settling

/-! ### Descents that come back -/

/-- Flattening gives a result at a limit. -/
def Returns (g : Anchors) (d : Option Entries) (limit : Nat) (s : List String × Value) : Prop :=
  ∃ segments required fields,
    (flattenWithin g d limit segments required s.1 s.2).result = .ok fields

/-- A result is based on results with a lower limit below each step of the descent. -/
theorem Returns.of_descends (limit : Nat) (s t : List String × Value)
    (returns : Returns g d limit s) (step : Descends g d s t) :
    ∃ lower < limit, Returns g d lower t := by
  obtain ⟨segments, required, fields, ok⟩ := returns
  cases limit with
  | zero => cases ok
  | succ lower =>
      refine ⟨lower, Nat.lt_succ_self lower, ?_⟩
      cases flattensTo_of_flattenWithin ok with
      | leaf es ends => exact absurd step (ends t)
      | properties expanded properties each =>
          cases step with
          | property expanded' properties' mem =>
              cases expanded.symm.trans expanded'
              cases properties.symm.trans properties'
              obtain ⟨fields, -, found⟩ := exists_of_mem_left each mem
              exact ⟨_, _, fields, found⟩
          | items expanded' no_properties =>
              cases expanded.symm.trans expanded'
              cases properties.symm.trans no_properties
      | items expanded no_properties array at_items inner properties below =>
          cases step with
          | property expanded' properties' =>
              cases expanded.symm.trans expanded'
              cases no_properties.symm.trans properties'
          | items expanded' _ _ at_items' =>
              cases expanded.symm.trans expanded'
              cases at_items.symm.trans at_items'
              exact ⟨_, _, fields, below⟩

/-- `Loops g d schema`: a descent from the schema comes back to where it was. -/
def Loops (g : Anchors) (d : Option Entries) (schema : Value) : Prop :=
  ∃ s, ReflTransGen (Descends g d) ([], schema) s ∧ TransGen (Descends g d) s s

/-- Where a descent comes back there is no result, however high the limit is. -/
theorem Loops.not_returns (loops : Loops g d schema) : ¬ Returns g d limit ([], schema) := by
  obtain ⟨s, way, loop⟩ := loops
  intro returns
  exact not_transGen_of_way Returns.of_descends returns way loop

section Trees

variable (trees : ∀ root ∈ rootsOf schema d, root.isTree = true)

include trees

/-- Without a descent that comes back, flattening settles. -/
theorem settles_of_not_loops (ends : ¬ Loops g d schema) (segments : List String)
    (required : Bool) : Settles fun n => flattenWithin g d n segments required [] schema := by
  have acc : Acc (fun t s => Descends g d s t) ([], schema) := by
    refine acc_of_acyclic (untaken (rootsOf schema d)) (finite_within trees)
      (fun t way => within_of_reflTransGen trees way) (fun t u way step => ?_)
      fun t way loop => ends ⟨t, way, loop⟩
    have within := within_of_reflTransGen trees way
    exact ((step.within trees within).2.untaken_lt trees within).imp_left And.right
  have within : Within g (rootsOf schema d) schema := .of_mem List.mem_cons_self
  suffices all : ∀ s, Acc (fun t s => Descends g d s t) s → Within g (rootsOf schema d) s.2 →
      ∀ segments required, Settles fun n => flattenWithin g d n segments required s.1 s.2 from
    all _ acc within segments required
  intro s acc
  induction acc with
  | intro s _ ih =>
      intro within segments required
      refine settles_of_descends trees (fun t step => ?_) within
      exact ih t step (step.within trees within).1

/-- Without references among the members of `allOf`, no descent comes back. -/
theorem not_loops_of_plainMembers (plain : PlainMembers g (rootsOf schema d)) :
    ¬ Loops g d schema := by
  rintro ⟨s, way, loop⟩
  -- On the way round no reference is taken, so the schema would get lighter than itself.
  have lighter : TransGen (fun v u => u.weight < v.weight) s.2 s.2 := by
    refine transGen_of_loop (untaken (rootsOf schema d)) (fun t u on step => ?_) loop
    exact step.untaken_or_weight_lt trees plain (within_of_reflTransGen trees (way.trans on))
  exact not_transGen_self (P := fun n v => v.weight = n)
    (fun n v u same less => ⟨u.weight, same ▸ less, rfl⟩) rfl lighter

end Trees

/-- Of trees flattening ends, whatever its limit, or a descent comes back to where it was and
there is no result; a reference that was seen before is a leaf. -/
theorem flattenWithin_settles_or_loops (g : Anchors) {schema : Value} {d : Option Entries}
    (tree : schema.isTree = true) (trees : ∀ es ∈ d, Value.haveTrees es = true) :
    (¬ Loops g d schema → ∀ segments required,
        Settles fun n => flattenWithin g d n segments required [] schema)
      ∧ (Loops g d schema → ∀ limit segments required fields,
        (flattenWithin g d limit segments required [] schema).result ≠ .ok fields)
      ∧ (PlainMembers g (rootsOf schema d) → ¬ Loops g d schema)
      ∧ ∀ limit segments required seen v ref, reference? g v = some ref → ref ∈ seen →
        flattenWithin g d (limit + 1) segments required seen v
          = pure (leafAt segments required ((g.entries? v).getD [])) := by
  have roots_trees := forall_rootsOf tree trees
  refine ⟨settles_of_not_loops roots_trees, ?_, not_loops_of_plainMembers roots_trees, ?_⟩
  · intro loops limit segments required fields ok
    exact loops.not_returns ⟨segments, required, fields, ok⟩
  · intro limit segments required seen v ref refers mem
    rw [flattenWithin_succ, expandSchema_of_mem refers mem]
    rfl

/-! ### A property that refers through `allOf` -/

/-- A reference to persons. -/
def personReference : Value := .object [(.string "$ref", .string "#/components/schemas/Person")]

/-- A manager is a person. -/
def managerSchema : Value := .object [(.string "allOf", .list [personReference])]

/-- A person has a manager. -/
def personSchema : Entries :=
  [(.string "type", .string "object"),
    (.string "properties", .object [(.string "manager", managerSchema)])]

/-- The dictionary of persons. -/
def people : Entries := [(.string "Person", .object personSchema)]

theorem forall_haveTrees_people : ∀ es ∈ some people, Value.haveTrees es = true := by
  rintro es ⟨⟩
  decide

/-- The premises hold of persons. -/
theorem flattenWithin_people :
    personReference.isTree = true ∧ (∀ es ∈ some people, Value.haveTrees es = true)
      ∧ (¬ Loops {} (some people) personReference → ∀ segments required,
        Settles fun n => flattenWithin {} (some people) n segments required [] personReference)
      ∧ (Loops {} (some people) personReference → ∀ limit segments required fields,
        (flattenWithin {} (some people) limit segments required [] personReference).result
          ≠ .ok fields)
      ∧ (PlainMembers {} (rootsOf personReference (some people)) →
        ¬ Loops {} (some people) personReference)
      ∧ ∀ limit segments required seen v ref, reference? {} v = some ref → ref ∈ seen →
        flattenWithin {} (some people) (limit + 1) segments required seen v
          = pure (leafAt segments required ((Anchors.entries? {} v).getD [])) :=
  ⟨by decide, forall_haveTrees_people,
    flattenWithin_settles_or_loops {} (by decide) forall_haveTrees_people⟩

theorem objectAt?_personSchema :
    Anchors.objectAt? {} personSchema "properties" = some [(.string "manager", managerSchema)] :=
  rfl

theorem expandSchema_personReference :
    (expandSchema {} (some people) [] personReference).result
      = .ok (some personSchema, ["#/components/schemas/Person"]) := by cbv

/-- The members of `allOf` are merged anew, although they refer to what was seen before. -/
theorem expandSchema_managerSchema :
    (expandSchema {} (some people) ["#/components/schemas/Person"] managerSchema).result
      = .ok (some personSchema, ["#/components/schemas/Person"]) := by cbv

/-- No limit is enough for the manager of a person. -/
theorem flattenWithin_managerSchema (limit : Nat) (segments : List String) (required : Bool) :
    (flattenWithin {} (some people) limit segments required ["#/components/schemas/Person"]
      managerSchema).result = .error .tooDeep := by
  induction limit generalizing segments required with
  | zero => rfl
  | succ limit ih =>
      rw [flattenWithin_succ, result_bind, expandSchema_managerSchema]
      show (flattenExpanded _ _ _ _ _ _ (some personSchema, _)).result = _
      rw [flattenExpanded_of_properties objectAt?_personSchema,
        List.mapM_cons, result_bind, result_bind, ih]
      rfl

/-- Flattening the persons does not end: the manager of a person is a person again, and is never
a leaf. -/
theorem flattenWithin_people_not_settles :
    (flattenSchema {} personReference (some people) "").result = .error .tooDeep
      ∧ ¬ Settles fun n => flattenWithin {} (some people) n [] false [] personReference := by
  have never (limit : Nat) :
      (flattenWithin {} (some people) limit [] false [] personReference).result
        = .error .tooDeep := by
    cases limit with
    | zero => rfl
    | succ limit =>
        rw [flattenWithin_succ, result_bind, expandSchema_personReference]
        show (flattenExpanded _ _ _ _ _ _ (some personSchema, _)).result = _
        rw [flattenExpanded_of_properties objectAt?_personSchema,
          List.mapM_cons, result_bind, result_bind, flattenWithin_managerSchema]
        rfl
  refine ⟨never descentLimit, ?_⟩
  rintro ⟨limit, ends, -⟩
  exact ends (never limit)

end SchemaCodegen
