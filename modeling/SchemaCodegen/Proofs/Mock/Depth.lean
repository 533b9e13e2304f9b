import SchemaCodegen.Proofs.Mock.Ending
import SchemaCodegen.Proofs.Mock.Yielding

/-!
# How deep samples nest

A sample nests lists and objects no deeper than the options allow (`sample_fits`).  This holds of
graphs too, with references that come back, whatever the random source, and of every result that
sampling comes to, at any limit.  Examples and listed values are handed out as they are, however deep
they nest; so no examples may be used, and the schemas may list no values.

### What is load-bearing

Only properties, items and additional properties go deeper.  References, `allOf` and choices lead to
another schema at the same depth, so the statement is on all schemas on the way, with the levels that
are left at their depth (`fits_sampleWithin`).  Among them are collapsed ones, which list no values
either: merging keeps what is said of the values under a keyword (`keptByMerging_under`).
-/

namespace SchemaCodegen

/-! ### Nesting -/

mutual

/-- How many levels deep containers nest in a value; sets and pairs count as lists do. -/
def Value.nesting : Value → Nat
  | .scalar _ => 0
  | .aliasTo _ => 0
  | .set _ => 1
  | .pair a b => max a.nesting b.nesting + 1
  | .list xs => Value.itemNesting xs + 1
  | .object es => Value.entryNesting es + 1

/-- How deep containers nest in the items of a list. -/
def Value.itemNesting : List Value → Nat
  | [] => 0
  | v :: rest => max v.nesting (itemNesting rest)

/-- How deep containers nest in the values of an object. -/
def Value.entryNesting : List (Scalar × Value) → Nat
  | [] => 0
  | (_, v) :: rest => max v.nesting (entryNesting rest)

end

namespace Mock

open Traced

variable {c : Context} {schema v w : Value} {es : Entries} {refs : List String}
  {depth limit levels : Nat}

/-- The value shares nothing and nests containers at most so many levels deep. -/
structure Fits (levels : Nat) (v : Value) : Prop where
  isTree : v.isTree = true
  nesting_le : v.nesting ≤ levels

/-- A list takes one level more than its items. -/
theorem fits_list {xs : List Value} (each : ∀ x ∈ xs, Fits levels x) :
    Fits (levels + 1) (.list xs) where
  isTree := areTrees_iff.2 fun x mem => (each x mem).isTree
  nesting_le := by
    rw [Value.nesting]
    refine Nat.succ_le_succ ?_
    induction xs with
    | nil => exact Nat.zero_le _
    | cons x xs ih =>
        obtain ⟨here, later⟩ := List.forall_mem_cons.1 each
        exact max_le here.nesting_le (ih later)

/-- An object takes one level more than its values. -/
theorem fits_object (each : ∀ e ∈ es, Fits levels e.2) : Fits (levels + 1) (.object es) where
  isTree := haveTrees_iff.2 fun e mem => (each e mem).isTree
  nesting_le := by
    rw [Value.nesting]
    refine Nat.succ_le_succ ?_
    induction es with
    | nil => exact Nat.zero_le _
    | cons e es ih =>
        obtain ⟨here, later⟩ := List.forall_mem_cons.1 each
        exact max_le here.nesting_le (ih later)

/-! ### Samples without parts -/

/-- A sample that has no parts fits everywhere. -/
theorem yields_scalar (s : Scalar) : (pure (.scalar s) : Sampling Value).Yields (Fits levels) :=
  Sampling.yields_pure ⟨rfl, Nat.zero_le _⟩

theorem fits_sampleText : (sampleText es).Yields (Fits levels) := by
  unfold sampleText
  split
  · exact yields_scalar _
  · refine Sampling.yields_bind fun seeded => ?_
    split
    · exact Sampling.yields_fail _
    · exact Sampling.yields_bind fun text => yields_scalar _

theorem fits_sampleNumber (integer : Bool) : (sampleNumber es integer).Yields (Fits levels) := by
  unfold sampleNumber
  refine Sampling.yields_bind fun low => Sampling.yields_bind fun high =>
    Sampling.yields_bind fun start => Sampling.yields_bind fun n => ?_
  split
  · exact Sampling.yields_bind fun whole => yields_scalar _
  · cases n <;> exact yields_scalar _

theorem fits_samplePrimitive (facts : Facts) :
    (samplePrimitive es facts).Yields (Fits levels) := by
  unfold samplePrimitive
  split
  · exact fits_sampleText
  · exact fits_sampleNumber true
  · exact fits_sampleNumber false
  · exact Sampling.yields_bind fun truth => yields_scalar _
  · exact yields_scalar _
  · split
    · exact fits_sampleText
    · exact yields_scalar _

/-! ### Samples of parts -/

/-- What is no object has no sample but `null`. -/
theorem fits_of_none (none : c.anchors.entries? v = none) :
    (sampleWithin c limit refs depth v).Yields (Fits levels) := by
  cases limit with
  | zero => exact Sampling.yields_fail _
  | succ limit =>
      rw [sampleWithin_of_none none]
      exact yields_scalar _

section Nested

variable (below : ∀ w, Nests c.anchors es w →
  (sampleWithin c limit refs (depth + 1) w).Yields (Fits levels))

include below

theorem fits_sampleItems : (sampleItems c refs depth es limit).Yields (Fits (levels + 1)) := by
  have item : (sampleWithin c limit refs (depth + 1)
      ((Entries.get? es "items").getD .null)).Yields (Fits levels) := by
    cases found : Entries.get? es "items" with
    | none => exact fits_of_none rfl
    | some items => exact below items (.items found)
  unfold sampleItems
  refine Sampling.yields_bind fun count => ?_
  refine (Sampling.yields_forall fun a mem => ?_).bind fun xs fits =>
    Sampling.yields_pure (fits_list fits)
  rw [List.eq_of_mem_replicate mem]
  exact item

theorem fits_sampleFields : (sampleFields c refs depth es limit).Yields (Fits (levels + 1)) := by
  unfold sampleFields
  split
  · next ps found =>
      refine (Sampling.yields_forall fun p mem => ?_).bind fun entries fits =>
        Sampling.yields_pure (fits_object fits)
      have nested := Nests.property found (List.mem_filter.1 mem).1
      exact (below p.2 nested).bind fun w fits => Sampling.yields_pure fits
  · split
    · next additional kept =>
        have at_key := (Option.filter_eq_some_iff.1 kept).1
        refine (below additional (.additional at_key)).bind fun w fits => ?_
        exact Sampling.yields_pure (fits_object (by simpa using fits))
    · exact Sampling.yields_pure (fits_object fun e mem => absurd mem List.not_mem_nil)

/-- A sample by its shape takes one level more than those of the nested schemas. -/
theorem fits_sampleShape : (sampleShape c refs depth v es limit).Yields (Fits (levels + 1)) := by
  unfold sampleShape
  refine Sampling.yields_bind fun node => ?_
  split
  · exact fits_sampleItems below
  · exact fits_sampleFields below
  · exact fits_sampleFields below
  · exact fits_samplePrimitive node.facts

end Nested

/-! ### Samples at a depth -/

/-- No schema within the roots lists values under `enum`. -/
def ListNoValues (g : Anchors) (roots : List Value) : Prop :=
  ∀ v es, Within g roots v → g.entries? v = some es →
    ∀ e ∈ es, e.1 = .string "enum" → (g.items? e.2).getD [] = []

/-- The schemas on the way list no values either. -/
theorem ListNoValues.of_met (values : ListNoValues c.anchors (rootsOf schema c.dictionary))
    (met : Met c schema v) (entries : c.anchors.entries? v = some es) :
    (c.anchors.listAt? es "enum").getD [] = [] := by
  have each : ∀ e ∈ es, e.1 = .string "enum" → (c.anchors.items? e.2).getD [] = [] := by
    cases met with
    | within within => exact values v es within entries
    | collapsed within merged =>
        cases entries
        have kept : KeptByMerging c.anchors fun e =>
            e.1 = .string "enum" → (c.anchors.items? e.2).getD [] = [] :=
          keptByMerging_under (P := fun v => (c.anchors.items? v).getD [] = []) (by simp)
        exact kept.of_collapse values within merged
  unfold Anchors.listAt?
  cases found : Entries.get? es "enum" with
  | none => rfl
  | some v => exact each _ (Entries.mem_of_get? found) rfl

/-- The levels that are left at a depth. -/
def levelsLeft (c : Context) (depth : Nat) : Nat := (c.options.maxDepth - depth).toNat

theorem levelsLeft_of_shallow (shallow : (depth : Int) < c.options.maxDepth) :
    levelsLeft c depth = levelsLeft c (depth + 1) + 1 := by
  unfold levelsLeft
  omega

section Led

variable (entries : c.anchors.entries? v = some es)
  (shallow : (depth : Int) < c.options.maxDepth)
  (below : ∀ t, Leads c ((refs, depth), v) t →
    (sampleWithin c limit t.1.1 t.1.2 t.2).Yields (Fits (levelsLeft c t.1.2)))

include entries shallow below

/-- A schema that does not give its sample itself passes to another one at its depth or has nested
ones. -/
theorem fits_sampleBare (bare : Bare c es) :
    (sampleBare c refs depth v es limit).Yields (Fits (levelsLeft c depth)) := by
  unfold sampleBare
  split
  · next members =>
      exact (Sampling.yields_lift _).bind fun fs merged =>
        below _ (.pass shallow (.collapse entries bare members merged))
  · next members =>
      have no_members : NoMembers c.anchors es := by simpa [NoMembers] using members
      split
      · next first choice => exact below _ (.pass shallow (.choose entries bare no_members choice))
      · rw [levelsLeft_of_shallow shallow]
        exact fits_sampleShape fun w nests => below _ (.nested shallow entries nests)

/-- A schema that gives no values leads to others. -/
theorem fits_sampleEntries (no_examples : c.options.useExamples = false)
    (no_values : (c.anchors.listAt? es "enum").getD [] = []) :
    (sampleEntries c refs depth v es limit).Yields (Fits (levelsLeft c depth)) := by
  have no_example : (if c.options.useExamples then exampleOf? c.anchors es else none) = none := by
    rw [no_examples]
    rfl
  cases at_key : Entries.string? es "$ref" with
  | none =>
      have bare : Bare c es := ⟨at_key, no_example, no_values⟩
      rw [sampleEntries_of_bare bare]
      exact fits_sampleBare entries shallow below bare
  | some ref =>
      unfold sampleEntries
      rw [at_key]
      dsimp only
      split
      · exact yields_scalar _
      · next new =>
          have refers : reference? c.anchors v = some ref :=
            reference?_eq_some.2 ⟨es, entries, at_key⟩
          refine (Sampling.yields_lift _).bind fun found ok => ?_
          cases found with
          | some t => exact below _ (.reference shallow refers new ok)
          | none =>
              exact Sampling.yields_bind fun _ => yields_scalar _

end Led

/-- **The levels that are left.**  Whatever the references taken, a sample of a schema on the way nests
no deeper than the levels that are left at its depth. -/
theorem fits_sampleWithin (no_examples : c.options.useExamples = false)
    (values : ListNoValues c.anchors (rootsOf schema c.dictionary)) (met : Met c schema v) :
    (sampleWithin c limit refs depth v).Yields (Fits (levelsLeft c depth)) := by
  induction limit generalizing refs depth v with
  | zero => exact Sampling.yields_fail _
  | succ limit ih =>
      cases entries : c.anchors.entries? v with
      | none => exact fits_of_none entries
      | some es =>
          obtain deep | shallow := le_or_gt c.options.maxDepth (depth : Int)
          · rw [sampleWithin_of_deep entries deep]
            exact Sampling.yields_bind fun _ => yields_scalar _
          · rw [sampleWithin_of_shallow entries shallow]
            exact fits_sampleEntries entries shallow (fun t leads => ih (met.of_leads leads))
              no_examples (values.of_met met entries)

/-- **How deep samples nest.**  Let no examples be used, and the schema and its dictionary, which may
be any graphs, list no values.  Then each sample, whatever the random source, and at any limit, shares
nothing and nests lists and objects at most as deep as the options allow. -/
theorem sample_fits (no_examples : c.options.useExamples = false)
    (values : ListNoValues c.anchors (rootsOf schema c.dictionary)) :
    (∀ limit source v rest, ((sampleWithin c limit [] 0 schema).run source).result = .ok (v, rest) →
        Fits c.options.maxDepth.toNat v)
      ∧ ∀ v, (sample c schema).result = .ok v → Fits c.options.maxDepth.toNat v := by
  have met : Met c schema schema := .within (.of_mem List.mem_cons_self)
  have fits (limit : Nat) :
      (sampleWithin c limit [] 0 schema).Yields (Fits (levelsLeft c 0)) :=
    fits_sampleWithin no_examples values met
  have all_left : levelsLeft c 0 = c.options.maxDepth.toNat := by
    unfold levelsLeft
    omega
  rw [all_left] at fits
  refine ⟨fits, fun v found => ?_⟩
  rw [result_sample] at found
  cases sampled : ((sampleWithin c descentLimit [] 0 schema).run
      (c.options.seed.map Twister.ofSeed)).result with
  | error e =>
      rw [sampled] at found
      cases found
  | ok ends =>
      rw [sampled] at found
      cases found
      exact fits descentLimit _ _ _ sampled

/-- A bed lies within another one and has plants. -/
def bedSchema : Value := .object
  [(.string "properties", .object
    [(.string "around", .object [(.string "$ref", .string "#/Bed")]),
      (.string "plants", .object [(.string "type", .string "array"),
        (.string "items", .object [(.string "type", .string "string")])])])]

/-- A list of beds. -/
def bedsSchema : Value := .object
  [(.string "type", .string "array"),
    (.string "items", .object [(.string "allOf", .list
      [.object [(.string "$ref", .string "#/Bed")]])])]

/-- Samples of beds, at most three levels deep. -/
def beds : Context :=
  ⟨{}, some [(.string "Bed", bedSchema)], { useExamples := false, maxDepth := 3 }⟩

/-- The premises hold of beds; their sample takes all levels. -/
theorem sample_fits_beds :
    ListNoValues beds.anchors (rootsOf bedsSchema beds.dictionary)
      ∧ (sample beds bedsSchema).result
        = .ok (.list [.object [(.string "around", .object [(.string "around", .null),
          (.string "plants", .null)]), (.string "plants", .list [.null])]])
      ∧ ∀ v, (sample beds bedsSchema).result = .ok v → Fits 3 v := by
  have trees : ∀ root ∈ rootsOf bedsSchema beds.dictionary, root.isTree = true := by decide +kernel
  have values : ListNoValues beds.anchors (rootsOf bedsSchema beds.dictionary) := by
    have checked := forall_within (g := beds.anchors) (P := fun u => ∀ es ∈ beds.anchors.entries? u,
      ∀ e ∈ es, e.1 = .string "enum" → (beds.anchors.items? e.2).getD [] = []) trees
      (by decide +kernel)
    exact fun v es within entries => checked v within es entries
  exact ⟨values, by cbv, (sample_fits rfl values).2⟩

end Mock

end SchemaCodegen
