import SchemaCodegen.Reference.Occurrences

/-!
# Cycles along a path

`pathCycles` walks a schema, and with a document also what its references refer to, and
reports each reference that comes back on the way from the root to a node of its own
structure.  Each branch has a way of its own, so two branches that refer to the same schema
are no cycle.  A container that is met inside itself is reported as a reference to `#`.

### Why it ends

The way holds the places it has passed and the references it has not taken yet.  A
reference that is taken leaves fewer; between two references the walk goes on to lighter
data or enters another stored container.
-/

namespace SchemaCodegen

/-- A reference that comes back, and the way to where it does. -/
structure PathCycle where
  ref : String
  path : List String
deriving DecidableEq, Repr

/-- The parts of a schema that a path goes on to, each with its segment: a property by its
name, the items by `[]`, an item of any other list by its key and index, and any other
object by its key. -/
def childrenOf (g : Anchors) (node : Located) (es : Entries) : List (String × Located) :=
  es.zipIdx.flatMap fun e =>
    let key := e.1.1
    let child := node.part e.2 e.1.2
    match (if key = .string "properties" then g.entries? e.1.2 else none) with
    | some ps => ps.zipIdx.map fun p => (p.1.1.shown, child.part p.2 p.1.2)
    | none =>
      if key = .string "items" then [("[]", child)]
      else match g.items? e.1.2 with
        | some xs => xs.zipIdx.map fun x => (s!"{key.shown}[{x.2}]", child.part x.2 x.1)
        | none => if g.isObject e.1.2 then [(key.shown, child)] else []

/-- A part that a path goes on to is not heavier than the values of the schema together. -/
theorem weight_le_of_mem_childrenOf {g : Anchors} {node : Located} {es : Entries}
    {c : String × Located} (h : c ∈ childrenOf g node es) :
    c.2.value.weight ≤ Value.entryWeights es := by
  obtain ⟨⟨⟨k, v⟩, i⟩, he, h⟩ := List.mem_flatMap.1 h
  have hv : v.weight ≤ Value.entryWeights es :=
    Value.weight_le_entryWeights (List.fst_mem_of_mem_zipIdx he)
  simp only at h
  split at h
  · next ps hps =>
    split at hps
    · obtain ⟨⟨⟨pk, pv⟩, j⟩, hp, rfl⟩ := List.mem_map.1 h
      exact Nat.le_trans (Anchors.weight_le_of_entries? hps (List.fst_mem_of_mem_zipIdx hp)) hv
    · cases hps
  · split at h
    · simp only [List.mem_singleton] at h
      subst h
      exact hv
    · split at h
      · next xs hxs =>
        obtain ⟨⟨x, j⟩, hx, rfl⟩ := List.mem_map.1 h
        exact Nat.le_trans (Anchors.weight_le_of_items? hxs (List.fst_mem_of_mem_zipIdx hx)) hv
      · split at h
        · simp only [List.mem_singleton] at h
          subst h
          exact hv
        · cases h

/-- The anchors among places. -/
def anchorsOf (places : List Place) : List Nat := places.filterMap Place.anchor?

/-- Going on from an object at a new place to something lighter decreases. -/
theorem lex_of_new_place {g : Anchors} {places : List Place} {node : Located} {es : Entries}
    {w : Nat} (h : g.entries? node.value = some es) (new : node.place ∉ places)
    (hw : w ≤ Value.entryWeights es) :
    Prod.Lex (· < ·) (· < ·) (g.unseen (anchorsOf (node.place :: places)), w)
      (g.unseen (anchorsOf places), node.value.weight) := by
  by_cases ha : ∃ n, node.value = .aliasTo n
  · obtain ⟨n, hn⟩ := ha
    have hplace : node.place = .anchor n := by simp [Located.place, hn]
    have hlist : anchorsOf (node.place :: places) = n :: anchorsOf places := by
      simp [anchorsOf, hplace, Place.anchor?]
    have hsize : n < g.size := by
      rw [hn] at h
      unfold Anchors.entries? Anchors.look at h
      cases hc : g.container? n with
      | none => simp [hc] at h
      | some c => exact Anchors.lt_size_of_container? hc
    have hnew : n ∉ anchorsOf places := by
      intro hm
      obtain ⟨p, hp, hpn⟩ := List.mem_filterMap.1 hm
      cases p with
      | anchor m =>
        have : m = n := by simpa [Place.anchor?] using hpn
        exact new (hplace ▸ this ▸ hp)
      | below r s => simp [Place.anchor?] at hpn
    rw [hlist]
    exact Prod.Lex.left _ _ (Anchors.unseen_cons_lt hsize hnew)
  · have ha : ∀ n, node.value ≠ .aliasTo n := fun n hn => ha ⟨n, hn⟩
    have hlist : anchorsOf (node.place :: places) = anchorsOf places := by
      unfold Located.place
      split
      · next n hn => exact absurd hn (ha n)
      · simp [anchorsOf, List.filterMap_cons, Place.anchor?]
    rw [hlist]
    exact Prod.Lex.right _ (Nat.lt_of_le_of_lt hw (Anchors.entryWeights_lt_of_entries? h ha))

/-- The cycles at and below a node, each with its path from the root.  On the way to the
node are `places`, and `fresh` references are not taken yet.  Without a document the walk
goes on inside a reference itself. -/
def cyclesBelow (g : Anchors) (document : Option Located) (fresh : List String)
    (places : List Place) (path : List String) (node : Located) : Traced (List PathCycle) :=
  match _h : g.entries? node.value with
  | none => pure []
  | some es =>
    if _place : node.place ∈ places then pure [⟨"#", path⟩]
    else
      match Entries.string? es "$ref" with
      | some ref =>
        if _new : ref ∈ fresh then
          match document with
          | none => do
            let found ← (childrenOf g node es).mapM fun c =>
              cyclesBelow g none (taking ref fresh) (node.place :: places) (path ++ [c.1]) c.2
            pure found.flatten
          | some document => do
            match ← locate g ref document with
            | none => pure []
            | some target =>
              if g.isObject target.value && (target.place ∈ node.place :: places) then
                pure [⟨ref, path⟩]
              else
                cyclesBelow g (some document) (taking ref fresh) (node.place :: places) path
                  target
        else pure [⟨ref, path⟩]
      | none => do
        let found ← (childrenOf g node es).attach.mapM fun c =>
          cyclesBelow g document fresh (node.place :: places) (path ++ [c.1.1]) c.1.2
        pure found.flatten
termination_by (fresh.length, g.unseen (anchorsOf places), node.value.weight)
decreasing_by
  · exact Prod.Lex.left _ _ (length_taking_lt _new)
  · exact Prod.Lex.left _ _ (length_taking_lt _new)
  · apply Prod.Lex.right
    exact lex_of_new_place _h _place (weight_le_of_mem_childrenOf c.2)

/-- The texts of a list, or a fault for each entry that is none. -/
def textsOf (name : String) (xs : List Value) : Except Failure (List String) :=
  let faults := xs.zipIdx.filterMap fun x =>
    if x.1.string?.isNone then some ⟨[.key name, .index x.2], .notString⟩ else none
  if faults.isEmpty then .ok (xs.filterMap Value.string?) else .error (.record faults)

/-- The cycles of a schema.  References that are `visited` count as taken, and each path
starts with the given segments, which must be texts when there is something to report. -/
def pathCycles (g : Anchors) (schema : Located) (document : Option Located)
    (visited : List String) (path : List Value) : Traced (List PathCycle) := do
  let occurring := g.references schema.value
    ++ (document.map fun d => g.references d.value).getD []
  let found ← cyclesBelow g document (occurring.filter (· ∉ visited)) [] [] schema
  if found.isEmpty then pure []
  else
    let start ← Traced.ofExcept (textsOf "path" path)
    pure (found.map fun cycle => ⟨cycle.ref, start ++ cycle.path⟩)

end SchemaCodegen
