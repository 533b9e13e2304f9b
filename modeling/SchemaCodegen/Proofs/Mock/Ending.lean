import Mathlib
import SchemaCodegen.Proofs.Compose.Collapsed
import SchemaCodegen.Proofs.Mock.Settling

/-!
# Where sampling ends

Each reference that sampling follows is a new one, and each schema nested in another one is
deeper; of both there are only so many.  But a schema may also lead to another one at the same
depth and without following a reference itself, from `allOf` to what it is collapsed to and from
a choice to the first schema of it (`Passes`).  Collapsing follows references by itself, so this
may come back to where it was.

On trees sampling ends, without a limit and whatever the random source, when no schema that it
leads to comes back to itself in this way (`settles_of_not_comes_back`).  A schema that does has
no sample, and neither has one that leads to it at its own depth (`result_of_leads_back`).

### What is load-bearing

A collapsed schema is new, but it has no list under `allOf` (`IsCollapsed`), so it is not
collapsed once more: the schemas on the way are the values within the roots and what these are
collapsed to, which are finitely many (`finite_met`).
-/

namespace SchemaCodegen.Mock

open Relation Traced

variable {c : Context} {schema v w : Value} {es fs : Entries} {refs : List String}
  {depth limit : Nat}

/-! ### From schema to schema -/

/-- The sample does not come from a reference, an example or a list of values. -/
structure Bare (c : Context) (es : Entries) : Prop where
  plain : Entries.string? es "$ref" = none
  no_example : (if c.options.useExamples then exampleOf? c.anchors es else none) = none
  no_values : (c.anchors.listAt? es "enum").getD [] = []

/-- `Passes c v w`: the sample of `v` is the one of `w`, at the same depth and with the same
references taken. -/
inductive Passes (c : Context) : Value → Value → Prop
  | collapse {v : Value} {es fs : Entries} (entries : c.anchors.entries? v = some es)
      (bare : Bare c es) (members : (c.anchors.listAt? es "allOf").isSome = true)
      (merged : (mergeAllOf c.anchors v c.dictionary).result = .ok fs) : Passes c v (.object fs)
  | choose {v first : Value} {es : Entries} (entries : c.anchors.entries? v = some es)
      (bare : Bare c es) (no_members : NoMembers c.anchors es)
      (choice : firstChoice? c.anchors es = some first) : Passes c v first

/-- `Nests g es w`: samples of a schema may be made of samples of `w`. -/
inductive Nests (g : Anchors) (es : Entries) : Value → Prop
  | items {w : Value} (found : Entries.get? es "items" = some w) : Nests g es w
  | property {ps : Entries} {p : Scalar × Value} (found : g.objectAt? es "properties" = some ps)
      (mem : p ∈ ps) : Nests g es p.2
  | additional {w : Value} (found : Entries.get? es "additionalProperties" = some w) :
      Nests g es w

/-- `Leads c s t`: sampling goes on from a schema, the references taken and the depth to
others. -/
inductive Leads (c : Context) :
    (List String × Nat) × Value → (List String × Nat) × Value → Prop
  | reference {refs : List String} {depth : Nat} {v t : Value} {ref : String}
      (shallow : (depth : Int) < c.options.maxDepth) (refers : reference? c.anchors v = some ref)
      (new : ref ∉ refs)
      (found : (followInto c.anchors c.dictionary v).result = .ok (some t)) :
      Leads c ((refs, depth), v) ((ref :: refs, depth), t)
  | pass {refs : List String} {depth : Nat} {v w : Value}
      (shallow : (depth : Int) < c.options.maxDepth) (passes : Passes c v w) :
      Leads c ((refs, depth), v) ((refs, depth), w)
  | nested {refs : List String} {depth : Nat} {v w : Value} {es : Entries}
      (shallow : (depth : Int) < c.options.maxDepth) (entries : c.anchors.entries? v = some es)
      (nests : Nests c.anchors es w) : Leads c ((refs, depth), v) ((refs, depth + 1), w)

/-! ### One schema -/

/-- The sample of an array. -/
def sampleItems (c : Context) (refs : List String) (depth : Nat) (es : Entries) (limit : Nat) :
    Sampling Value := do
  let items := (Entries.get? es "items").getD .null
  let count ← sampleLength es
  pure (.list (← (List.replicate count items).mapM fun items =>
    sampleWithin c limit refs (depth + 1) items))

/-- The sample of an object. -/
def sampleFields (c : Context) (refs : List String) (depth : Nat) (es : Entries) (limit : Nat) :
    Sampling Value :=
  match c.anchors.objectAt? es "properties" with
  | some properties =>
    let required := requiredNames c.anchors es
    let wanted := properties.filter fun p =>
      c.options.includeOptional || required.any (Scalar.string · == p.1)
    do
      pure (.object (← wanted.mapM fun p => do
        pure (p.1, ← sampleWithin c limit refs (depth + 1) p.2)))
  | none =>
    match (Entries.get? es "additionalProperties").filter fun v =>
        c.anchors.isObject v && !c.anchors.isNothing v with
    | some additional => do
      let v ← sampleWithin c limit refs (depth + 1) additional
      pure (.record [("key", v)])
    | none => pure (.object [])

/-- The sample of a schema by its shape. -/
def sampleShape (c : Context) (refs : List String) (depth : Nat) (schema : Value) (es : Entries)
    (limit : Nat) : Sampling Value := do
  let node ← Sampling.lift (Node.ofSchema c.anchors schema)
  match node.kind with
  | .array => sampleItems c refs depth es limit
  | .object | .empty => sampleFields c refs depth es limit
  | _ => samplePrimitive es node.facts

/-- The sample of a schema that does not give it itself. -/
def sampleBare (c : Context) (refs : List String) (depth : Nat) (schema : Value) (es : Entries)
    (limit : Nat) : Sampling Value :=
  if (c.anchors.listAt? es "allOf").isSome then do
    let merged ← Sampling.lift (mergeAllOf c.anchors schema c.dictionary)
    sampleWithin c limit refs depth (.object merged)
  else
    match firstChoice? c.anchors es with
    | some first => sampleWithin c limit refs depth first
    | none => sampleShape c refs depth schema es limit

/-- The sample of an object that is not too deep. -/
def sampleEntries (c : Context) (refs : List String) (depth : Nat) (schema : Value) (es : Entries)
    (limit : Nat) : Sampling Value :=
  match Entries.string? es "$ref" with
  | some ref =>
    if ref ∈ refs then pure .null
    else do
      match ← Sampling.lift (followInto c.anchors c.dictionary schema) with
      | some target => sampleWithin c limit (ref :: refs) depth target
      | none =>
        Sampling.lift (Traced.note (.noMockFor ref))
        pure .null
  | none =>
    match (if c.options.useExamples then exampleOf? c.anchors es else none),
        (c.anchors.listAt? es "enum").getD [] with
    | some v, _ => pure v
    | none, first :: more => chosen first (first :: more)
    | none, [] => sampleBare c refs depth schema es limit

theorem sampleWithin_of_none (none : c.anchors.entries? v = none) :
    sampleWithin c (limit + 1) refs depth v = pure .null := by
  rw [sampleWithin]
  dsimp only
  rw [none]

theorem sampleWithin_of_deep (entries : c.anchors.entries? v = some es)
    (deep : c.options.maxDepth ≤ (depth : Int)) :
    sampleWithin c (limit + 1) refs depth v
      = (do Sampling.lift (Traced.note (.mockDepth depth)); pure .null) := by
  rw [sampleWithin]
  dsimp only
  rw [entries]
  exact if_pos deep

theorem sampleWithin_of_shallow (entries : c.anchors.entries? v = some es)
    (shallow : (depth : Int) < c.options.maxDepth) :
    sampleWithin c (limit + 1) refs depth v = sampleEntries c refs depth v es limit := by
  rw [sampleWithin]
  dsimp only
  rw [entries]
  exact if_neg (not_le.2 shallow)

theorem sampleEntries_of_bare (bare : Bare c es) :
    sampleEntries c refs depth v es limit = sampleBare c refs depth v es limit := by
  unfold sampleEntries
  rw [bare.plain, bare.no_example, bare.no_values]

/-- A schema that joins no others and does not give its sample itself is sampled by its shape. -/
theorem sampleWithin_of_unjoined (entries : c.anchors.entries? v = some es)
    (shallow : (depth : Int) < c.options.maxDepth) (bare : Bare c es)
    (unjoined : ∀ combinator ∈ Combinator.all,
      c.anchors.listAt? es combinator.keyword = none) :
    sampleWithin c (limit + 1) refs depth v = sampleShape c refs depth v es limit := by
  have all_of : c.anchors.listAt? es "allOf" = none := unjoined .allOf (by decide)
  have one_of : c.anchors.listAt? es Combinator.oneOf.keyword = none :=
    unjoined .oneOf (by decide)
  have any_of : c.anchors.listAt? es Combinator.anyOf.keyword = none :=
    unjoined .anyOf (by decide)
  have no_members : ¬ (c.anchors.listAt? es "allOf").isSome = true := by
    rw [all_of]
    exact Bool.false_ne_true
  have no_choice : firstChoice? c.anchors es = none := by simp [firstChoice?, one_of, any_of]
  rw [sampleWithin_of_shallow entries shallow, sampleEntries_of_bare bare, sampleBare,
    if_neg no_members, no_choice]

/-- The sample is what sampling comes to from the source of its seed. -/
theorem result_sample (c : Context) (schema : Value) :
    (sample c schema).result = Prod.fst <$> ((sampleWithin c descentLimit [] 0 schema).run
      (c.options.seed.map Twister.ofSeed)).result := by
  rw [sample, Traced.result_bind]
  cases ((sampleWithin c descentLimit [] 0 schema).run
    (c.options.seed.map Twister.ofSeed)).result <;> rfl

/-! ### Schemas that come back -/

/-- Where a schema passes to another one, its sample with one more for the limit is the other
one's. -/
theorem result_of_passes (passes : Passes c v w) (shallow : (depth : Int) < c.options.maxDepth)
    (source : Option Twister) :
    ((sampleWithin c (limit + 1) refs depth v).run source).result
      = ((sampleWithin c limit refs depth w).run source).result := by
  cases passes with
  | collapse entries bare members merged =>
      rw [sampleWithin_of_shallow entries shallow, sampleEntries_of_bare bare, sampleBare,
        if_pos members]
      rw [StateT.run_bind, result_bind, Sampling.result_lift merged]
      rfl
  | choose entries bare no_members choice =>
      rw [sampleWithin_of_shallow entries shallow, sampleEntries_of_bare bare, sampleBare,
        if_neg (by rw [no_members]; nofun), choice]

/-- A schema that comes back to itself has no sample, however high the limit is. -/
theorem result_of_comes_back (back : TransGen (Passes c) v v)
    (shallow : (depth : Int) < c.options.maxDepth) (source : Option Twister) :
    ((sampleWithin c limit refs depth v).run source).result = .error .tooDeep := by
  by_contra ended
  refine not_transGen_self (P := fun n u =>
    ((sampleWithin c n refs depth u).run source).result ≠ .error .tooDeep) ?_ ended back
  intro n u w ended passes
  cases n with
  | zero => exact absurd rfl ended
  | succ n =>
      rw [result_of_passes passes shallow] at ended
      exact ⟨n, Nat.lt_succ_self n, ended⟩

/-- Where a reference leads to, the sample with one more for the limit is that of the target. -/
theorem result_of_reference {t : Value} {ref : String}
    (shallow : (depth : Int) < c.options.maxDepth) (refers : reference? c.anchors v = some ref)
    (new : ref ∉ refs) (found : (followInto c.anchors c.dictionary v).result = .ok (some t))
    (source : Option Twister) :
    ((sampleWithin c (limit + 1) refs depth v).run source).result
      = ((sampleWithin c limit (ref :: refs) depth t).run source).result := by
  obtain ⟨es, entries, at_key⟩ := reference?_eq_some.1 refers
  rw [sampleWithin_of_shallow entries shallow, sampleEntries, at_key]
  dsimp only
  rw [if_neg new, StateT.run_bind, result_bind, Sampling.result_lift found]
  rfl

theorem Leads.depth_le {s t : (List String × Nat) × Value} (leads : Leads c s t) :
    s.1.2 ≤ t.1.2 := by
  cases leads with
  | reference => exact Nat.le_refl _
  | pass => exact Nat.le_refl _
  | nested => exact Nat.le_succ _

theorem depth_le_of_reflTransGen {s t : (List String × Nat) × Value}
    (way : ReflTransGen (Leads c) s t) : s.1.2 ≤ t.1.2 := by
  induction way with
  | refl => exact Nat.le_refl _
  | tail _ step ih => exact ih.trans step.depth_le

/-- What leads to a schema that comes back to itself, at the same depth, has no sample. -/
theorem result_of_leads_back {s t : (List String × Nat) × Value}
    (way : ReflTransGen (Leads c) s t) (same_depth : t.1.2 = s.1.2)
    (shallow : (t.1.2 : Int) < c.options.maxDepth) (back : TransGen (Passes c) t.2 t.2)
    (source : Option Twister) :
    ((sampleWithin c limit s.1.1 s.1.2 s.2).run source).result = .error .tooDeep := by
  induction way using ReflTransGen.head_induction_on generalizing limit with
  | refl => exact result_of_comes_back back shallow source
  | @head s u step rest ih =>
      -- The depth never falls again, so no step on the way goes deeper.
      have u_le := depth_le_of_reflTransGen rest
      have s_le := step.depth_le
      cases limit with
      | zero => rfl
      | succ limit =>
          have later : ((sampleWithin c limit u.1.1 u.1.2 u.2).run source).result
              = .error .tooDeep := ih (by omega)
          cases step with
          | reference shallow refers new found =>
              rw [result_of_reference shallow refers new found]
              exact later
          | pass shallow passes =>
              rw [result_of_passes passes shallow]
              exact later
          | nested =>
              dsimp only at u_le same_depth
              omega

/-! ### Schemas on the way -/

/-- The first schema of a choice is an item under a keyword. -/
theorem exists_of_firstChoice? {g : Anchors} {first : Value}
    (choice : firstChoice? g es = some first) :
    ∃ key list, Entries.get? es key = some list ∧ key ∉ ["required", "type", "properties"]
      ∧ PartOf g list first := by
  obtain ⟨combinator, -, h⟩ := List.exists_of_findSome?_eq_some choice
  obtain ⟨vs, at_key, is_first⟩ := Option.bind_eq_some_iff.1 h
  obtain ⟨list, found, items⟩ := Option.bind_eq_some_iff.1 at_key
  refine ⟨_, list, found, ?_, .inl ⟨vs, items, List.mem_of_head? is_first⟩⟩
  cases combinator <;> decide

/-- `Met c schema v`: the schema is a value within the roots or what such a value is collapsed
to. -/
inductive Met (c : Context) (schema : Value) : Value → Prop
  | within {v : Value} (within : Within c.anchors (rootsOf schema c.dictionary) v) : Met c schema v
  | collapsed {v : Value} {fs : Entries} (within : Within c.anchors (rootsOf schema c.dictionary) v)
      (merged : (mergeAllOf c.anchors v c.dictionary).result = .ok fs) : Met c schema (.object fs)

/-- What is left to take and to descend. -/
def remaining (c : Context) (schema : Value) (taken : List String × Nat) : Nat :=
  untaken (rootsOf schema c.dictionary) taken.1 + (c.options.maxDepth - taken.2).toNat

/-- What a schema is collapsed to, if it can be. -/
def collapsedOrSelf (c : Context) (v : Value) : Value :=
  match (mergeAllOf c.anchors v c.dictionary).result with
  | .ok fs => .object fs
  | .error _ => v

/-- The schemas on the way are composed of what is within the roots. -/
theorem Met.composed (met : Met c schema v) (entries : c.anchors.entries? v = some es) :
    Composed (Within c.anchors (rootsOf schema c.dictionary)) es := by
  cases met with
  | within within => exact within.composed entries
  | collapsed within merged =>
      cases entries
      exact (isCollapsed_of_collapse within merged).composed

/-- What is collapsed on the way is within the roots. -/
theorem Met.within_of_members (met : Met c schema v) (entries : c.anchors.entries? v = some es)
    (members : (c.anchors.listAt? es "allOf").isSome = true) :
    Within c.anchors (rootsOf schema c.dictionary) v := by
  cases met with
  | within within => exact within
  | collapsed within merged =>
      cases entries
      rw [(isCollapsed_of_collapse within merged).noMembers] at members
      cases members

theorem Met.of_passes (met : Met c schema v) (passes : Passes c v w) : Met c schema w := by
  cases passes with
  | collapse entries bare members merged =>
      exact .collapsed (met.within_of_members entries members) merged
  | choose entries bare no_members choice =>
      obtain ⟨key, list, found, old, part⟩ := exists_of_firstChoice? choice
      exact .within (((met.composed entries).of_get? found old).part part)

theorem Met.of_nests (met : Met c schema v) (entries : c.anchors.entries? v = some es)
    (nests : Nests c.anchors es w) : Met c schema w := by
  have composed := met.composed entries
  cases nests with
  | items found => exact .within (composed.of_get? found (by simp))
  | property found mem => exact .within (composed.of_properties passesOn_within found _ mem)
  | additional found => exact .within (composed.of_get? found (by simp))

/-- Sampling leads to schemas on the way. -/
theorem Met.of_leads {t : (List String × Nat) × Value} (met : Met c schema v)
    (leads : Leads c ((refs, depth), v) t) : Met c schema t.2 := by
  cases leads with
  | reference shallow refers new found => exact .within (of_followInto refers found).1
  | pass shallow passes => exact met.of_passes passes
  | nested shallow entries nests => exact met.of_nests entries nests

/-- From a schema on the way, all on the way are. -/
theorem Met.of_reflTransGen {s t : (List String × Nat) × Value} (met : Met c schema s.2)
    (way : ReflTransGen (Leads c) s t) : Met c schema t.2 := by
  induction way with
  | refl => exact met
  | tail _ step ih => exact ih.of_leads step

section Trees

variable (trees : ∀ root ∈ rootsOf schema c.dictionary, root.isTree = true)

include trees

/-- The schemas on the way are finitely many. -/
theorem finite_met : {v | Met c schema v}.Finite := by
  have finite := finite_within (g := c.anchors) trees
  refine (finite.union (finite.image (collapsedOrSelf c))).subset ?_
  rintro v (within | ⟨within, merged⟩)
  · exact .inl within
  · refine .inr ⟨_, within, ?_⟩
    rw [collapsedOrSelf, merged]

/-- Sampling takes a reference, goes deeper or passes on. -/
theorem Met.remaining_lt_or_passes {t : (List String × Nat) × Value} (met : Met c schema v)
    (leads : Leads c ((refs, depth), v) t) :
    remaining c schema t.1 < remaining c schema (refs, depth)
      ∨ t.1 = (refs, depth) ∧ Passes c v t.2 := by
  cases leads with
  | reference shallow refers new found =>
      obtain ⟨es, entries, at_key⟩ := reference?_eq_some.1 refers
      have text := (met.composed entries).of_string? at_key (by simp)
      exact .inl (Nat.add_lt_add_right (untaken_cons_lt trees text new) _)
  | pass shallow passes => exact .inr ⟨rfl, passes⟩
  | nested shallow entries nests =>
      left
      unfold remaining
      push_cast
      omega

/-- Sampling that comes back to where it was has only passed on. -/
theorem passes_of_loop {s : (List String × Nat) × Value} (met : Met c schema s.2)
    (loop : TransGen (Leads c) s s) : TransGen (Passes c) s.2 s.2 :=
  transGen_of_loop (remaining c schema)
    (fun _ _ way step => (met.of_reflTransGen way).remaining_lt_or_passes trees step) loop

/-! ### Sampling settles -/

section Nested

omit trees

variable (below : ∀ w, Nests c.anchors es w →
  Sampling.Settles fun n => sampleWithin c n refs (depth + 1) w)

include below

theorem settles_sampleItems : Sampling.Settles (sampleItems c refs depth es) := by
  have item : Sampling.Settles fun n =>
      sampleWithin c n refs (depth + 1) ((Entries.get? es "items").getD .null) := by
    cases found : Entries.get? es "items" with
    | none =>
        have nothing : c.anchors.entries? .null = none := rfl
        refine Sampling.settles_of_succ ?_
        simp only [Option.getD_none, sampleWithin_of_none nothing]
        exact Sampling.settles_const (Sampling.ends_pure _)
    | some items => exact below items (.items found)
  refine (Sampling.settles_const (ends_sampleLength es)).bind fun count => ?_
  refine (Sampling.settles_mapM fun a mem => ?_).bind fun _ =>
    Sampling.settles_const (Sampling.ends_pure _)
  rw [List.eq_of_mem_replicate mem]
  exact item

theorem settles_sampleFields : Sampling.Settles (sampleFields c refs depth es) := by
  unfold sampleFields
  cases found : c.anchors.objectAt? es "properties" with
  | some ps =>
      refine (Sampling.settles_mapM fun p mem => ?_).bind fun _ =>
        Sampling.settles_const (Sampling.ends_pure _)
      exact (below p.2 (.property found (List.mem_filter.1 mem).1)).bind fun _ =>
        Sampling.settles_const (Sampling.ends_pure _)
  | none =>
      dsimp only
      split
      · next additional kept =>
          have at_key := (Option.filter_eq_some_iff.1 kept).1
          exact (below additional (.additional at_key)).bind fun _ =>
            Sampling.settles_const (Sampling.ends_pure _)
      · exact Sampling.settles_const (Sampling.ends_pure _)

/-- A sample by its shape settles when those of the nested schemas do. -/
theorem settles_sampleShape : Sampling.Settles (sampleShape c refs depth v es) := by
  refine Sampling.settles_lift_bind (ends_classify _ _ _) fun node _ => ?_
  split
  · exact settles_sampleItems below
  · exact settles_sampleFields below
  · exact settles_sampleFields below
  · exact Sampling.settles_const (ends_samplePrimitive es node.facts)

end Nested

section Led

variable (met : Met c schema v) (entries : c.anchors.entries? v = some es)
  (shallow : (depth : Int) < c.options.maxDepth)
  (below : ∀ t, Leads c ((refs, depth), v) t →
    Sampling.Settles fun n => sampleWithin c n t.1.1 t.1.2 t.2)

include met entries shallow below

/-- A schema that does not give its sample itself passes to another one or has nested ones. -/
theorem settles_sampleBare (bare : Bare c es) :
    Sampling.Settles (sampleBare c refs depth v es) := by
  unfold sampleBare
  split
  · next members =>
      have within := met.within_of_members entries members
      have ends : (mergeAllOf c.anchors v c.dictionary).Ends :=
        ((gathers_within trees).endsIn_collapse within).1
      refine Sampling.settles_lift_bind ends fun fs merged => ?_
      exact below _ (.pass shallow (.collapse entries bare members merged))
  · next members =>
      have no_members : NoMembers c.anchors es := by
        simpa [NoMembers] using members
      cases choice : firstChoice? c.anchors es with
      | some first => exact below _ (.pass shallow (.choose entries bare no_members choice))
      | none =>
          exact settles_sampleShape fun w nests => below _ (.nested shallow entries nests)

/-- A schema gives its sample itself or leads to others. -/
theorem settles_sampleEntries : Sampling.Settles (sampleEntries c refs depth v es) := by
  unfold sampleEntries
  cases at_key : Entries.string? es "$ref" with
  | some ref =>
      dsimp only
      split
      · exact Sampling.settles_const (Sampling.ends_pure _)
      · next new =>
          refine Sampling.settles_lift_bind (ends_followInto _ v) fun found ok => ?_
          cases found with
          | some t =>
              have refers := reference?_eq_some.2 ⟨es, entries, at_key⟩
              exact below _ (.reference shallow refers new ok)
          | none =>
              exact Sampling.settles_const (Sampling.ends_note (.noMockFor ref) Value.null)
  | none =>
      dsimp only
      split
      · exact Sampling.settles_const (Sampling.ends_pure _)
      · exact Sampling.settles_const (Sampling.ends_drawOr _ _)
      · next no_example no_values =>
          exact settles_sampleBare trees met entries shallow below ⟨at_key, no_example, no_values⟩

end Led

/-- Sampling settles when it does wherever it leads to. -/
theorem settles_of_leads (met : Met c schema v)
    (below : ∀ t, Leads c ((refs, depth), v) t →
      Sampling.Settles fun n => sampleWithin c n t.1.1 t.1.2 t.2) :
    Sampling.Settles fun n => sampleWithin c n refs depth v := by
  refine Sampling.settles_of_succ ?_
  cases entries : c.anchors.entries? v with
  | none =>
      simp only [sampleWithin_of_none entries]
      exact Sampling.settles_const (Sampling.ends_pure _)
  | some es =>
      obtain deep | shallow := le_or_gt c.options.maxDepth (depth : Int)
      · simp only [sampleWithin_of_deep entries deep]
        exact Sampling.settles_const (Sampling.ends_note (.mockDepth depth) Value.null)
      · simp only [sampleWithin_of_shallow entries shallow]
        exact settles_sampleEntries trees met entries shallow below

/-- Sampling settles when no schema that it leads to comes back to itself. -/
theorem settles_of_not_comes_back
    (ends : ∀ s, ReflTransGen (Leads c) (([], 0), schema) s → ¬ TransGen (Passes c) s.2 s.2) :
    Sampling.Settles fun n => sampleWithin c n [] 0 schema := by
  have met : Met c schema schema := .within (.of_mem List.mem_cons_self)
  have acc : Acc (fun t s => Leads c s t) (([], 0), schema) := by
    refine acc_of_acyclic (remaining c schema) (finite_met trees)
      (fun t way => met.of_reflTransGen way) (fun t u way step => ?_) fun t way loop => ?_
    · have left := (met.of_reflTransGen way).remaining_lt_or_passes trees step
      exact (left.imp_right And.left).symm
    · exact ends t way (passes_of_loop trees (met.of_reflTransGen way) loop)
  suffices all : ∀ s, Acc (fun t s => Leads c s t) s → Met c schema s.2 →
      Sampling.Settles fun n => sampleWithin c n s.1.1 s.1.2 s.2 from all _ acc met
  intro s acc
  induction acc with
  | intro s _ ih =>
      intro met
      exact settles_of_leads trees met fun t step => ih t step (met.of_leads step)

/-! ### Without references among the members -/

/-- How far passing on can get: a value by its weight, and what it is collapsed to just not
so far. -/
inductive Ranked (c : Context) (schema : Value) : Nat → Value → Prop
  | within {v : Value} (within : Within c.anchors (rootsOf schema c.dictionary) v) :
      Ranked c schema (2 * v.weight + 1) v
  | collapsed {weight : Nat} {fs : Entries} (no_members : NoMembers c.anchors fs)
      (composed : Composed (fun u => Within c.anchors (rootsOf schema c.dictionary) u
        ∧ u.weight < weight) fs) : Ranked c schema (2 * weight) (.object fs)

theorem Ranked.of_passes (plain : PlainMembers c.anchors (rootsOf schema c.dictionary))
    (rank : Nat) (v w : Value) (ranked : Ranked c schema rank v) (passes : Passes c v w) :
    ∃ lower < rank, Ranked c schema lower w := by
  cases ranked with
  | within within =>
      cases passes with
      | collapse entries bare members merged =>
          have collapsed := ((gathers_lighter trees plain v.weight).endsIn_collapse
            ⟨within, Nat.le_refl _⟩).2 _ merged
          exact ⟨_, Nat.lt_succ_self _, .collapsed collapsed.noMembers collapsed.composed⟩
      | choose entries bare no_members choice =>
          obtain ⟨key, list, found, old, part⟩ := exists_of_firstChoice? choice
          have to_list : PartOf c.anchors v list := .inr ⟨_, _, entries, Entries.mem_of_get? found⟩
          have list_within := within.part to_list
          have lighter := part.weight_lt (list_within.isTree trees)
          have light := to_list.weight_lt (within.isTree trees)
          exact ⟨_, by omega, .within (list_within.part part)⟩
  | collapsed no_members composed =>
      cases passes with
      | collapse entries bare members merged =>
          cases entries
          rw [no_members] at members
          cases members
      | choose entries bare _ choice =>
          cases entries
          obtain ⟨key, list, found, old, part⟩ := exists_of_firstChoice? choice
          obtain ⟨list_within, light⟩ := composed.of_get? found old
          have lighter := part.weight_lt (list_within.isTree trees)
          exact ⟨_, by omega, .within (list_within.part part)⟩

/-- Without references among the members of `allOf`, no schema comes back to itself. -/
theorem not_comes_back_of_plainMembers
    (plain : PlainMembers c.anchors (rootsOf schema c.dictionary)) (met : Met c schema v) :
    ¬ TransGen (Passes c) v v := by
  cases met with
  | within within => exact not_transGen_self (Ranked.of_passes trees plain) (.within within)
  | collapsed within merged =>
      have collapsed := ((gathers_lighter trees plain _).endsIn_collapse
        ⟨within, Nat.le_refl _⟩).2 _ merged
      exact not_transGen_self (Ranked.of_passes trees plain)
        (.collapsed collapsed.noMembers collapsed.composed)

end Trees

/-- Of trees sampling ends, without a limit and whatever the random source, when no schema that
it leads to comes back to itself through `allOf` and choices alone.  A schema that leads to such a
one at its own depth has no sample.  Without references among the members of `allOf` there is
none. -/
theorem sampleWithin_settles_or_comes_back (c : Context) {schema : Value}
    (tree : schema.isTree = true) (trees : ∀ es ∈ c.dictionary, Value.haveTrees es = true) :
    ((∀ s, ReflTransGen (Leads c) (([], 0), schema) s → ¬ TransGen (Passes c) s.2 s.2) →
        Sampling.Settles fun n => sampleWithin c n [] 0 schema)
      ∧ (∀ s t, ReflTransGen (Leads c) s t → t.1.2 = s.1.2 →
        (t.1.2 : Int) < c.options.maxDepth → TransGen (Passes c) t.2 t.2 → ∀ limit source,
          ((sampleWithin c limit s.1.1 s.1.2 s.2).run source).result = .error .tooDeep)
      ∧ (PlainMembers c.anchors (rootsOf schema c.dictionary) →
        ∀ s, ReflTransGen (Leads c) (([], 0), schema) s → ¬ TransGen (Passes c) s.2 s.2) := by
  have roots_trees := forall_rootsOf tree trees
  have met : Met c schema schema := .within (.of_mem List.mem_cons_self)
  refine ⟨settles_of_not_comes_back roots_trees, ?_, fun plain s way => ?_⟩
  · exact fun s t way same_depth shallow back limit source =>
      result_of_leads_back way same_depth shallow back source
  · exact not_comes_back_of_plainMembers roots_trees plain (met.of_reflTransGen way)

/-! ### A choice of itself -/

/-- A reference to filters. -/
def filterReference : Value := .object [(.string "$ref", .string "#/components/schemas/Filter")]

/-- A filter that extends another one. -/
def extendedFilter : Value := .object [(.string "allOf", .list [filterReference])]

/-- A filter extends another one or is a text. -/
def filterSchema : Entries :=
  [(.string "oneOf", .list [extendedFilter, .object [(.string "type", .string "string")]])]

/-- Samples of filters, canonical and with all defaults. -/
def filters : Context := ⟨{}, some [(.string "Filter", .object filterSchema)], {}⟩

theorem forall_haveTrees_filters : ∀ es ∈ filters.dictionary, Value.haveTrees es = true := by
  rintro es ⟨⟩
  decide

/-- The premises hold of filters. -/
theorem sampleWithin_filters :
    filterReference.isTree = true ∧ (∀ es ∈ filters.dictionary, Value.haveTrees es = true)
      ∧ ((∀ s, ReflTransGen (Leads filters) (([], 0), filterReference) s →
          ¬ TransGen (Passes filters) s.2 s.2) →
        Sampling.Settles fun n => sampleWithin filters n [] 0 filterReference)
      ∧ (∀ s t, ReflTransGen (Leads filters) s t → t.1.2 = s.1.2 →
        (t.1.2 : Int) < filters.options.maxDepth → TransGen (Passes filters) t.2 t.2 →
          ∀ limit source,
            ((sampleWithin filters limit s.1.1 s.1.2 s.2).run source).result = .error .tooDeep)
      ∧ (PlainMembers filters.anchors (rootsOf filterReference filters.dictionary) →
        ∀ s, ReflTransGen (Leads filters) (([], 0), filterReference) s →
          ¬ TransGen (Passes filters) s.2 s.2) :=
  ⟨by decide, forall_haveTrees_filters,
    sampleWithin_settles_or_comes_back filters (by decide) forall_haveTrees_filters⟩

theorem bare_filterSchema : Bare filters filterSchema := ⟨rfl, rfl, rfl⟩

theorem mergeAllOf_extendedFilter :
    (mergeAllOf filters.anchors extendedFilter filters.dictionary).result = .ok filterSchema := by
  cbv

theorem followInto_filterReference :
    (followInto filters.anchors filters.dictionary filterReference).result
      = .ok (some (.object filterSchema)) := by
  cbv

/-- A filter comes back to itself: its first choice extends it. -/
theorem filterSchema_comes_back :
    TransGen (Passes filters) (.object filterSchema) (.object filterSchema) := by
  have choose : Passes filters (.object filterSchema) extendedFilter :=
    .choose rfl bare_filterSchema rfl rfl
  have collapse : Passes filters extendedFilter (.object filterSchema) :=
    .collapse rfl ⟨rfl, rfl, rfl⟩ rfl mergeAllOf_extendedFilter
  exact (TransGen.single choose).tail collapse

/-- Sampling a filter does not end: the reference is not met again, so it is never `null`. -/
theorem sample_filters_not_settles :
    (sample filters filterReference).result = .error .tooDeep
      ∧ ¬ Sampling.Settles fun n => sampleWithin filters n [] 0 filterReference := by
  have shallow : ((0 : Nat) : Int) < filters.options.maxDepth := by decide
  have first : Leads filters (([], 0), filterReference)
      ((["#/components/schemas/Filter"], 0), .object filterSchema) :=
    .reference shallow rfl List.not_mem_nil followInto_filterReference
  have never (limit : Nat) (source : Option Twister) :
      ((sampleWithin filters limit [] 0 filterReference).run source).result = .error .tooDeep :=
    result_of_leads_back (.single first) rfl shallow filterSchema_comes_back source
  constructor
  · unfold sample
    rw [result_bind, never]
    rfl
  · intro settles
    obtain ⟨limit, ends, -⟩ := settles none
    exact ends (never limit none)

end SchemaCodegen.Mock
