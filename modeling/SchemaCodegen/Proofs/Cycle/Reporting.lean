import SchemaCodegen.Proofs.Cycle.Showing

/-!
# What is reported

In trees the walk of `pathCycles` ends where resolving does not fail, and it reports a cycle
exactly when a reference is seen to come back on a way from the root
(`pathCycles_isOk_and_reports_iff`).

The walk stops in two ways: at a reference that was taken, and at a place that it has passed,
whatever references were taken.  Only the first is a reference that comes back.

### What is load-bearing

A way that is back at a place has taken a reference since then, for otherwise it would have gone
down a tree and come to a place above itself.  The first reference taken since then is found
from the place without taking one, and now it is taken: going round once more, it is seen to
come back (`shownBack_of_passed`).  So the walk carries, for each place that it has passed, that
such a reference is found from there, or that none was taken yet (`Passed`).
-/

namespace SchemaCodegen

open Relation

variable {g : Anchors} {document : Option Value} {own u v t : Value} {taken fresh : List String}
  {ref : String} {es : Entries} {roots : List Value} {node child l : Located} {role : Role}
  {places : List Place} {path : List String}

/-! ### The parts that a path goes on to -/

/-- `Unrolls g role l child`: what a path goes on to at a value in its role is the value itself,
a property, or an item of the list. -/
def Unrolls (g : Anchors) : Role → Located → Located → Prop
  | .schema, l, child => child = l
  | .properties, l, child => ∃ ps j key u, g.entries? l.value = some ps ∧
      ps[j]? = some (key, u) ∧ child = l.part j u
  | .list, l, child => ∃ xs j u, g.items? l.value = some xs ∧ xs[j]? = some u ∧
      child = l.part j u

/-- The parts that a path goes on to from a schema, at one of its keywords. -/
def childrenAt (g : Anchors) (key : Scalar) (l : Located) : List (String × Located) :=
  match (if key = .string "properties" then g.entries? l.value else none) with
  | some ps => ps.zipIdx.map fun p => (p.1.1.shown, l.part p.2 p.1.2)
  | none =>
    if key = .string "items" then [("[]", l)]
    else match g.items? l.value with
      | some xs => xs.zipIdx.map fun x => (s!"{key.shown}[{x.2}]", l.part x.2 x.1)
      | none => if g.isObject l.value then [(key.shown, l)] else []

theorem childrenOf_eq (node : Located) (es : Entries) : childrenOf g node es
    = es.zipIdx.flatMap fun e => childrenAt g e.1.1 (node.part e.2 e.1.2) := rfl

/-- At a keyword a path goes on to what the value there unrolls to in its role. -/
theorem exists_mem_childrenAt {key : Scalar} : (∃ segment, (segment, child) ∈ childrenAt g key l)
    ↔ ∃ role, roleUnder g key l.value = some role ∧ Unrolls g role l child := by
  unfold childrenAt roleUnder
  by_cases properties : key = .string "properties" ∧ g.isObject l.value = true
  · obtain ⟨ps, entries⟩ := Option.isSome_iff_exists.1 properties.2
    rw [if_pos properties.1, if_pos properties, entries]
    constructor
    · rintro ⟨segment, mem⟩
      obtain ⟨⟨⟨k, u⟩, j⟩, at_index, same⟩ := List.mem_map.1 mem
      cases same
      exact ⟨.properties, rfl, ps, j, k, u, entries, List.mem_zipIdx_iff_getElem?.1 at_index, rfl⟩
    · rintro ⟨_, ⟨⟩, ps', j, k, u, entries', here, rfl⟩
      cases entries.symm.trans entries'
      exact ⟨_, List.mem_map.2 ⟨((k, u), j), List.mem_zipIdx_iff_getElem?.2 here, rfl⟩⟩
  · have no_fields : (if key = .string "properties" then g.entries? l.value else none) = none := by
      split
      · next at_key =>
          exact Option.not_isSome_iff_eq_none.1 fun object => properties ⟨at_key, object⟩
      · rfl
    rw [no_fields, if_neg properties]
    dsimp only
    by_cases at_items : key = .string "items"
    · rw [if_pos at_items, if_pos at_items]
      simp [Unrolls]
    · rw [if_neg at_items, if_neg at_items]
      cases items : g.items? l.value with
      | some xs =>
          have list : g.isList l.value = true := Option.isSome_iff_exists.2 ⟨xs, items⟩
          rw [if_pos list]
          constructor
          · rintro ⟨segment, mem⟩
            obtain ⟨⟨u, j⟩, at_index, same⟩ := List.mem_map.1 mem
            cases same
            exact ⟨.list, rfl, xs, j, u, items, List.mem_zipIdx_iff_getElem?.1 at_index, rfl⟩
          · rintro ⟨_, ⟨⟩, xs', j, u, items', here, rfl⟩
            cases items.symm.trans items'
            exact ⟨_, List.mem_map.2 ⟨(u, j), List.mem_zipIdx_iff_getElem?.2 here, rfl⟩⟩
      | none =>
          have no_list : ¬ g.isList l.value = true := by simp [Anchors.isList, items]
          rw [if_neg no_list]
          by_cases object : g.isObject l.value = true
          · rw [if_pos object]
            simp [object, Unrolls]
          · simp [object]

/-- The parts that a path goes on to from a schema. -/
theorem exists_mem_childrenOf : (∃ segment, (segment, child) ∈ childrenOf g node es)
    ↔ ∃ i key u role, es[i]? = some (key, u) ∧ roleUnder g key u = some role
      ∧ Unrolls g role (node.part i u) child := by
  rw [childrenOf_eq]
  constructor
  · rintro ⟨segment, mem⟩
    obtain ⟨⟨⟨key, u⟩, i⟩, at_index, mem⟩ := List.mem_flatMap.1 mem
    obtain ⟨role, under, unrolls⟩ := exists_mem_childrenAt.1 ⟨segment, mem⟩
    exact ⟨i, key, u, role, List.mem_zipIdx_iff_getElem?.1 at_index, under, unrolls⟩
  · rintro ⟨i, key, u, role, here, under, unrolls⟩
    obtain ⟨segment, mem⟩ := exists_mem_childrenAt.2 ⟨role, under, unrolls⟩
    exact ⟨segment, List.mem_flatMap.2 ⟨((key, u), i), List.mem_zipIdx_iff_getElem?.2 here, mem⟩⟩

/-- What is seen from a value in its role is seen from what it unrolls to. -/
theorem shownBack_unrolls : ShownBack g document (role, ⟨taken, l.value⟩)
    ↔ ∃ child, Unrolls g role l child ∧ ShownBack g document (.schema, ⟨taken, child.value⟩) := by
  cases role with
  | schema => simp [Unrolls]
  | properties =>
      have plain : PlainIn g (.properties, l.value) := nofun
      rw [shownBack_part plain]
      constructor
      · rintro ⟨_, opens, back⟩
        cases opens with
        | @property _ u ps key entries mem =>
            obtain ⟨j, here⟩ := List.getElem?_of_mem mem
            exact ⟨l.part j u, ⟨ps, j, key, u, entries, here, rfl⟩, back⟩
      · rintro ⟨_, ⟨ps, j, key, u, entries, here, rfl⟩, back⟩
        exact ⟨_, .property entries (List.mem_of_getElem? here), back⟩
  | list =>
      have plain : PlainIn g (.list, l.value) := nofun
      rw [shownBack_part plain]
      constructor
      · rintro ⟨_, opens, back⟩
        cases opens with
        | @item _ u xs items mem =>
            obtain ⟨j, here⟩ := List.getElem?_of_mem mem
            exact ⟨l.part j u, ⟨xs, j, u, items, here, rfl⟩, back⟩
      · rintro ⟨_, ⟨xs, j, u, items, here, rfl⟩, back⟩
        exact ⟨_, .item items (List.mem_of_getElem? here), back⟩

/-- What is seen by opening a schema is seen from the parts that a path goes on to. -/
theorem shownBack_children (entries : g.entries? node.value = some es) :
    (∃ s, Opens g (.schema, node.value) s ∧ ShownBack g document (s.1, ⟨taken, s.2⟩))
      ↔ ∃ c ∈ childrenOf g node es, ShownBack g document (.schema, ⟨taken, c.2.value⟩) := by
  constructor
  · rintro ⟨_, opens, back⟩
    cases opens with
    | @keyword _ u es' key role entries' mem under =>
        cases entries.symm.trans entries'
        obtain ⟨i, here⟩ := List.getElem?_of_mem mem
        obtain ⟨child, unrolls, back⟩ := (shownBack_unrolls (l := node.part i u)).1 back
        obtain ⟨segment, mem⟩ := exists_mem_childrenOf.2 ⟨i, key, u, role, here, under, unrolls⟩
        exact ⟨_, mem, back⟩
  · rintro ⟨⟨segment, child⟩, mem, back⟩
    obtain ⟨i, key, u, role, here, under, unrolls⟩ := exists_mem_childrenOf.1 ⟨segment, mem⟩
    exact ⟨(role, u), .keyword entries (List.mem_of_getElem? here) under,
      (shownBack_unrolls (l := node.part i u)).2 ⟨child, unrolls, back⟩⟩

/-! ### Ways that take no reference -/

/-- A way that opens values and takes no reference. -/
def PlainWay (g : Anchors) : Role × Value → Role × Value → Prop :=
  ReflTransGen fun s s' => PlainIn g s ∧ Opens g s s'

/-- A way that takes no reference is one below any references taken. -/
theorem PlainWay.shows {s s' : Role × Value} (way : PlainWay g s s') (taken : List String) :
    ReflTransGen (Shows g document) (s.1, ⟨taken, s.2⟩) (s'.1, ⟨taken, s'.2⟩) := by
  refine ReflTransGen.lift (p := Shows g document)
    (fun s : Role × Value => (s.1, (⟨taken, s.2⟩ : Waypoint))) ?_ _ _ way
  rintro s s' ⟨plain, opens⟩
  exact Shows.part plain opens

/-- What a way opens is inside the value that it starts from. -/
theorem PlainWay.inside {s s' : Role × Value} (way : PlainWay g s s') : Inside g s.2 s'.2 := by
  refine ReflTransGen.lift (p := PartOf g) Prod.snd ?_ _ _ way
  rintro s s' ⟨-, opens⟩
  exact partOf_of_opens opens

theorem Unrolls.plainWay (unrolls : Unrolls g role l child) :
    PlainWay g (role, l.value) (.schema, child.value) := by
  cases role with
  | schema =>
      cases unrolls
      exact .refl
  | properties =>
      obtain ⟨ps, j, key, u, entries, here, rfl⟩ := unrolls
      exact .single ⟨nofun, .property entries (List.mem_of_getElem? here)⟩
  | list =>
      obtain ⟨xs, j, u, items, here, rfl⟩ := unrolls
      exact .single ⟨nofun, .item items (List.mem_of_getElem? here)⟩

/-- What stands unrolls to what stands, at the same place or below it. -/
theorem Unrolls.stands (unrolls : Unrolls g role l child) (stands : Stands g own document l) :
    Stands g own document child ∧ (child = l ∨ Above l child) := by
  cases role with
  | schema =>
      cases unrolls
      exact ⟨stands, .inl rfl⟩
  | properties =>
      obtain ⟨ps, j, key, u, entries, here, rfl⟩ := unrolls
      exact ⟨stands.part (partAt?_of_entries? entries here), .inr (above_part l j u)⟩
  | list =>
      obtain ⟨xs, j, u, items, here, rfl⟩ := unrolls
      exact ⟨stands.part (partAt?_of_items? items here), .inr (above_part l j u)⟩

/-- `GoesOn g own document node child`: from the schema at a node, one step and then a way that
takes no reference lead to the child, which stands below the node. -/
structure GoesOn (g : Anchors) (own : Value) (document : Option Value) (node child : Located) :
    Prop where
  above : Above node child
  stands : Stands g own document child
  way : ∃ s, Opens g (.schema, node.value) s ∧ PlainWay g s (.schema, child.value)

/-- A path goes on to the children of a schema. -/
theorem goesOn_of_mem_childrenOf {c : String × Located} (entries : g.entries? node.value = some es)
    (stands : Stands g own document node) (mem : c ∈ childrenOf g node es) :
    GoesOn g own document node c.2 := by
  obtain ⟨i, key, u, role, here, under, unrolls⟩ := exists_mem_childrenOf.1 ⟨c.1, mem⟩
  obtain ⟨stands_child, same | below⟩ :=
    unrolls.stands (stands.part (partAt?_of_entries? entries here))
  · refine ⟨same ▸ above_part node i u, stands_child, (role, u), ?_, unrolls.plainWay⟩
    exact .keyword entries (List.mem_of_getElem? here) under
  · refine ⟨(above_part node i u).trans below, stands_child, (role, u), ?_, unrolls.plainWay⟩
    exact .keyword entries (List.mem_of_getElem? here) under

theorem GoesOn.plainWay (goes : GoesOn g own document node child)
    (plain : reference? g node.value = none) :
    PlainWay g (.schema, node.value) (.schema, child.value) := by
  obtain ⟨s, opens, way⟩ := goes.way
  exact .head ⟨fun _ => plain, opens⟩ way

/-- From a schema that is no reference, the references taken stay. -/
theorem GoesOn.shows (goes : GoesOn g own document node child)
    (plain : reference? g node.value = none) (taken : List String) :
    ReflTransGen (Shows g document) (.schema, ⟨taken, node.value⟩)
      (.schema, ⟨taken, child.value⟩) := (goes.plainWay plain).shows taken

/-- From a reference without a document, the reference is taken. -/
theorem GoesOn.shows_inside (goes : GoesOn g own none node child)
    (refers : reference? g node.value = some ref) (new : ref ∉ taken) :
    ReflTransGen (Shows g none) (.schema, ⟨taken, node.value⟩)
      (.schema, ⟨ref :: taken, child.value⟩) := by
  obtain ⟨s, opens, way⟩ := goes.way
  exact .head (.inside rfl refers new opens) (way.shows (ref :: taken))

theorem GoesOn.inside (goes : GoesOn g own document node child) :
    Inside g node.value child.value := by
  obtain ⟨s, opens, way⟩ := goes.way
  exact .head (partOf_of_opens opens) way.inside

/-! ### Places on the way -/

/-- A reference that is taken is found from the value without taking one. -/
def Remembered (g : Anchors) (taken : List String) (v : Value) : Prop :=
  ∃ u, PlainWay g (.schema, v) (.schema, u) ∧ Retakes g ⟨taken, u⟩

theorem Remembered.shownBack (remembered : Remembered g taken v) :
    ShownBack g document (.schema, ⟨taken, v⟩) := by
  obtain ⟨u, way, retakes⟩ := remembered
  exact ⟨_, way.shows taken, retakes⟩

/-- `Passed g own document taken node p`: the way to the node has passed a value at the place
`p`.  Either it has taken no reference since then, so that the node stands below the place; or
the first reference that it took since then is found from the place. -/
def Passed (g : Anchors) (own : Value) (document : Option Value) (taken : List String)
    (node : Located) (p : Place) : Prop :=
  ∃ earlier : Located, earlier.place = p ∧ Stands g own document earlier
    ∧ earlier.value.isTree = true
    ∧ ((Above earlier node ∧ PlainWay g (.schema, earlier.value) (.schema, node.value))
      ∨ Remembered g taken earlier.value)

/-- Going on without taking a reference. -/
theorem passed_child {places : List Place} (goes : GoesOn g own document node child)
    (plain : reference? g node.value = none) (stands : Stands g own document node)
    (tree : node.value.isTree = true)
    (passed : ∀ p ∈ places, Passed g own document taken node p) :
    ∀ p ∈ node.place :: places, Passed g own document taken child p := by
  intro p mem
  obtain rfl | mem := List.mem_cons.1 mem
  · exact ⟨node, rfl, stands, tree, .inl ⟨goes.above, goes.plainWay plain⟩⟩
  · obtain ⟨earlier, at_place, stands', tree', ⟨above, way⟩ | remembered⟩ := passed p mem
    · exact ⟨earlier, at_place, stands', tree',
        .inl ⟨above.trans goes.above, way.trans (goes.plainWay plain)⟩⟩
    · exact ⟨earlier, at_place, stands', tree', .inr remembered⟩

/-- Taking a reference. -/
theorem passed_reference {places : List Place} (refers : reference? g node.value = some ref)
    (stands : Stands g own document node) (tree : node.value.isTree = true)
    (passed : ∀ p ∈ places, Passed g own document taken node p) (next : Located) :
    ∀ p ∈ node.place :: places, Passed g own document (ref :: taken) next p := by
  intro p mem
  obtain rfl | mem := List.mem_cons.1 mem
  · exact ⟨node, rfl, stands, tree, .inr ⟨_, .refl, ref, List.mem_cons_self, refers⟩⟩
  · obtain ⟨earlier, at_place, stands', tree', ⟨-, way⟩ | ⟨u, way, other, mem', refers'⟩⟩ :=
      passed p mem
    · exact ⟨earlier, at_place, stands', tree', .inr ⟨_, way, ref, List.mem_cons_self, refers⟩⟩
    · exact ⟨earlier, at_place, stands', tree',
        .inr ⟨u, way, other, List.mem_cons_of_mem _ mem', refers'⟩⟩

/-- **Going round.**  Where the way is back at a place that it has passed, it has taken a
reference since then, and going on from there once more this reference is seen to come back. -/
theorem shownBack_of_passed (passed : Passed g own document taken node node.place)
    (stands : Stands g own document node) (tree : node.value.isTree = true) :
    ShownBack g document (.schema, ⟨taken, node.value⟩) := by
  obtain ⟨earlier, at_place, stands', tree', ⟨above, -⟩ | remembered⟩ := passed
  · exact absurd at_place.symm (place_ne_of_above above tree' tree)
  · rw [eq_of_place_eq stands' stands tree' tree at_place.symm]
    exact remembered.shownBack

/-! ### One step of the walk -/

/-- A document as the value that references are located in. -/
def wholeOf (document : Option Value) : Option Located := document.map fun d => ⟨.document, [], d⟩

section Steps

variable {whole : Option Located}

theorem cyclesBelow_of_none (no_object : g.entries? node.value = none) :
    cyclesBelow g whole fresh places path node = pure [] := by
  rw [cyclesBelow]
  split
  · rfl
  · next es entries => cases no_object.symm.trans entries

/-- A schema is met inside itself. -/
theorem cyclesBelow_of_passed (entries : g.entries? node.value = some es)
    (passed : node.place ∈ places) :
    cyclesBelow g whole fresh places path node = pure [⟨"#", path⟩] := by
  rw [cyclesBelow]
  split
  · next none => cases entries.symm.trans none
  · exact dif_pos passed

section New

variable (entries : g.entries? node.value = some es) (new_place : node.place ∉ places)

include entries new_place

/-- A schema that is no reference is walked part by part. -/
theorem cyclesBelow_plain (plain : Entries.string? es "$ref" = none) :
    cyclesBelow g whole fresh places path node = (do
      let found ← (childrenOf g node es).mapM fun c =>
        cyclesBelow g whole fresh (node.place :: places) (path ++ [c.1]) c.2
      pure found.flatten) := by
  rw [cyclesBelow]
  split
  · next none => cases entries.symm.trans none
  · next es' entries' =>
      cases entries.symm.trans entries'
      rw [dif_neg new_place, plain]
      dsimp only
      rw [Traced.mapM_attach (childrenOf g node es) fun c =>
        cyclesBelow g whole fresh (node.place :: places) (path ++ [c.1]) c.2]

/-- A reference that was taken is reported. -/
theorem cyclesBelow_repeated (refers : Entries.string? es "$ref" = some ref)
    (stale : ref ∉ fresh) :
    cyclesBelow g whole fresh places path node = pure [⟨ref, path⟩] := by
  rw [cyclesBelow]
  split
  · next none => cases entries.symm.trans none
  · next es' entries' =>
      cases entries.symm.trans entries'
      rw [dif_neg new_place, refers]
      exact dif_neg stale

/-- Without a document a fresh reference is walked part by part. -/
theorem cyclesBelow_inside (refers : Entries.string? es "$ref" = some ref)
    (fresh_mem : ref ∈ fresh) :
    cyclesBelow g none fresh places path node = (do
      let found ← (childrenOf g node es).mapM fun c =>
        cyclesBelow g none (taking ref fresh) (node.place :: places) (path ++ [c.1]) c.2
      pure found.flatten) := by
  rw [cyclesBelow]
  split
  · next none => cases entries.symm.trans none
  · next es' entries' =>
      cases entries.symm.trans entries'
      rw [dif_neg new_place, refers]
      exact dif_pos fresh_mem

/-- A fresh reference is left for what it is located at. -/
theorem cyclesBelow_target {d : Located} (refers : Entries.string? es "$ref" = some ref)
    (fresh_mem : ref ∈ fresh) :
    cyclesBelow g (some d) fresh places path node = (do
      match ← locate g ref d with
      | none => pure []
      | some target =>
        if g.isObject target.value && (target.place ∈ node.place :: places) then
          pure [⟨ref, path⟩]
        else cyclesBelow g (some d) (taking ref fresh) (node.place :: places) path target) := by
  rw [cyclesBelow]
  split
  · next none => cases entries.symm.trans none
  · next es' entries' =>
      cases entries.symm.trans entries'
      rw [dif_neg new_place, refers]
      exact dif_pos fresh_mem

end New

end Steps

/-! ### What a walk reports -/

/-- `Reported g document fresh taken places path node`: the walk of a node ends, and it reports a
cycle exactly when a reference is seen to come back below those taken. -/
def Reported (g : Anchors) (document : Option Value) (fresh taken : List String)
    (places : List Place) (path : List String) (node : Located) : Prop :=
  ∃ found, (cyclesBelow g (wholeOf document) fresh places path node).result = .ok found
    ∧ (found ≠ [] ↔ ShownBack g document (.schema, ⟨taken, node.value⟩))

/-- Parts that are walked one by one are reported together. -/
theorem exists_reported_children {step : String × Located → Traced (List PathCycle)}
    {below : String × Located → Prop} {children : List (String × Located)}
    (each : ∀ c ∈ children, ∃ found, (step c).result = .ok found ∧ (found ≠ [] ↔ below c)) :
    ∃ found, (do
        let found ← children.mapM step
        pure found.flatten : Traced (List PathCycle)).result = .ok found
      ∧ (found ≠ [] ↔ ∃ c ∈ children, below c) := by
  obtain ⟨founds, aligned⟩ := exists_forall₂ each
  refine ⟨founds.flatten, ?_, ?_⟩
  · refine Traced.result_bind_eq_ok.2 ⟨founds, Traced.result_mapM_eq_ok.2 ?_, rfl⟩
    exact aligned.imp fun _ _ here => here.1
  · rw [ne_eq, List.flatten_eq_nil_iff]
    push Not
    constructor
    · rintro ⟨found, mem, some_found⟩
      obtain ⟨c, at_c, -, iff⟩ := exists_of_mem_left aligned.flip mem
      exact ⟨c, at_c, iff.1 some_found⟩
    · rintro ⟨c, at_c, here⟩
      obtain ⟨found, mem, -, iff⟩ := exists_of_mem_left aligned at_c
      exact ⟨found, mem, iff.2 here⟩

theorem reported_of_none (no_object : g.entries? node.value = none) :
    Reported g document fresh taken places path node := by
  refine ⟨[], ?_, ?_⟩
  · rw [cyclesBelow_of_none no_object]
    rfl
  · simp [not_shownBack_of_entries? no_object]

theorem reported_passed (entries : g.entries? node.value = some es)
    (known : node.place ∈ places)
    (back : ShownBack g document (.schema, ⟨taken, node.value⟩)) :
    Reported g document fresh taken places path node := by
  refine ⟨[⟨"#", path⟩], ?_, iff_of_true (List.cons_ne_nil _ _) back⟩
  rw [cyclesBelow_of_passed entries known]
  rfl

theorem reference?_of_entries? (entries : g.entries? v = some es) :
    reference? g v = Entries.string? es "$ref" := by
  unfold reference?
  rw [entries]
  rfl

section New

variable (entries : g.entries? node.value = some es) (new_place : node.place ∉ places)

include entries new_place

theorem reported_plain (plain : Entries.string? es "$ref" = none)
    (each : ∀ c ∈ childrenOf g node es,
      Reported g document fresh taken (node.place :: places) (path ++ [c.1]) c.2) :
    Reported g document fresh taken places path node := by
  have no_reference := (reference?_of_entries? entries).trans plain
  unfold Reported
  rw [cyclesBelow_plain entries new_place plain, shownBack_part fun _ => no_reference,
    shownBack_children entries]
  exact exists_reported_children each

theorem reported_repeated (refers : Entries.string? es "$ref" = some ref) (stale : ref ∉ fresh)
    (again : ref ∈ taken) : Reported g document fresh taken places path node := by
  have is_reference := (reference?_of_entries? entries).trans refers
  refine ⟨[⟨ref, path⟩], ?_,
    iff_of_true (List.cons_ne_nil _ _) (shownBack_repeated is_reference again)⟩
  rw [cyclesBelow_repeated entries new_place refers stale]
  rfl

theorem reported_inside (refers : Entries.string? es "$ref" = some ref) (fresh_mem : ref ∈ fresh)
    (new : ref ∉ taken)
    (each : ∀ c ∈ childrenOf g node es, Reported g none (taking ref fresh) (ref :: taken)
      (node.place :: places) (path ++ [c.1]) c.2) :
    Reported g none fresh taken places path node := by
  have is_reference := (reference?_of_entries? entries).trans refers
  unfold Reported
  rw [wholeOf, Option.map_none, cyclesBelow_inside entries new_place refers fresh_mem,
    shownBack_inside is_reference new, shownBack_children entries]
  exact exists_reported_children each

section Document

variable {d : Value} (refers : Entries.string? es "$ref" = some ref) (fresh_mem : ref ∈ fresh)
  (new : ref ∉ taken)

include refers fresh_mem new

/-- A fresh reference is reported where it is located at a place on the way, or as what it is
located at. -/
theorem reported_reference {found : Option Located}
    (located : (locate g ref ⟨.document, [], d⟩).result = .ok found)
    (back : ∀ t ∈ found, t.place ∈ node.place :: places →
      ShownBack g (some d) (.schema, ⟨ref :: taken, t.value⟩))
    (below : ∀ t ∈ found, Reported g (some d) (taking ref fresh) (ref :: taken)
      (node.place :: places) path t) :
    Reported g (some d) fresh taken places path node := by
  have is_reference := (reference?_of_entries? entries).trans refers
  have target : targetIn g (some d) ref = .ok (found.map Located.value) :=
    Traced.result_bind_eq_ok.2 ⟨found, located, rfl⟩
  unfold Reported
  rw [wholeOf, Option.map_some, cyclesBelow_target entries new_place refers fresh_mem]
  cases found with
  | none =>
      have with_document : some d ≠ none := nofun
      refine ⟨[], Traced.result_bind_eq_ok.2 ⟨none, located, rfl⟩, ?_⟩
      simp [not_shownBack_unresolved with_document is_reference new target]
  | some t =>
      rw [shownBack_target is_reference new target]
      by_cases loops : (g.isObject t.value && (t.place ∈ node.place :: places)) = true
      · have on_way : t.place ∈ node.place :: places :=
          of_decide_eq_true (Bool.and_eq_true_iff.1 loops).2
        refine ⟨[⟨ref, path⟩], Traced.result_bind_eq_ok.2 ⟨some t, located, ?_⟩,
          iff_of_true (List.cons_ne_nil _ _) (back t rfl on_way)⟩
        dsimp only
        rw [if_pos loops]
        rfl
      · obtain ⟨reported, result, iff⟩ := below t rfl
        refine ⟨reported, Traced.result_bind_eq_ok.2 ⟨some t, located, ?_⟩, iff⟩
        dsimp only
        rw [if_neg loops]
        exact result

end Document

end New

/-! ### The whole walk -/

section Walk

variable (trees : ∀ root ∈ roots, root.isTree = true) (document_mem : ∀ d ∈ document, d ∈ roots)

include trees document_mem

/-- **The walk ends** where resolving does not fail, and it reports a cycle exactly when a
reference is seen to come back, provided that a reference is fresh exactly when it is not taken
and that all places are those of values that the way has passed. -/
theorem reported (apart : ∀ r, Occurs g roots r → (r ∈ fresh ↔ r ∉ taken))
    (within : Within g roots node.value) (stands : Stands g own document node)
    (passed : ∀ p ∈ places, Passed g own document taken node p)
    (answers : AnswersSeen g document (.schema, ⟨taken, node.value⟩)) :
    Reported g document fresh taken places path node := by
  -- Taking a reference leaves fewer fresh ones; between references the tree gets smaller.
  induction count : fresh.length using Nat.strongRecOn
    generalizing fresh taken places path node with
  | _ count fewer =>
      subst count
      induction weight : node.value.weight using Nat.strongRecOn
        generalizing places path node with
      | _ weight lighter =>
          subst weight
          have tree := within.isTree trees
          cases entries : g.entries? node.value with
          | none => exact reported_of_none entries
          | some es =>
              by_cases known : node.place ∈ places
              · exact reported_passed entries known
                  (shownBack_of_passed (passed _ known) stands tree)
              have goes {c : String × Located} (mem : c ∈ childrenOf g node es) :=
                goesOn_of_mem_childrenOf entries stands mem
              have at_key := reference?_of_entries? entries
              cases reference : Entries.string? es "$ref" with
              | none =>
                  refine reported_plain entries known reference fun c mem => ?_
                  have light : c.2.value.weight < node.value.weight := by
                    rw [eq_object_of_entries? tree entries, Value.weight]
                    exact Nat.lt_succ_of_le (weight_le_of_mem_childrenOf mem)
                  have plain := at_key.trans reference
                  exact lighter _ light (within.inside (goes mem).inside) (goes mem).stands
                    (passed_child (goes mem) plain stands tree passed)
                    (answers.behind ((goes mem).shows plain taken)) rfl
              | some ref =>
                  have refers := at_key.trans reference
                  have occurs : Occurs g roots ref := ⟨_, within, es, entries, reference⟩
                  by_cases again : ref ∈ taken
                  · have stale : ref ∉ fresh := fun mem => (apart ref occurs).1 mem again
                    exact reported_repeated entries known reference stale again
                  have fresh_mem : ref ∈ fresh := (apart ref occurs).2 again
                  have fewer' := length_taking_lt fresh_mem
                  have apart' : ∀ r, Occurs g roots r → (r ∈ taking ref fresh ↔ r ∉ ref :: taken) :=
                    mem_taking_iff_not_mem_cons apart
                  have later := passed_reference refers stands tree passed
                  cases document with
                  | none =>
                      refine reported_inside entries known reference fresh_mem again fun c mem => ?_
                      exact fewer _ fewer' apart' (within.inside (goes mem).inside)
                        (goes mem).stands (later c.2)
                        (answers.behind ((goes mem).shows_inside refers again)) rfl
                  | some d =>
                      obtain ⟨_, resolved⟩ := answers _ .refl ref refers again
                      obtain ⟨found, located, -⟩ := Traced.result_bind_eq_ok.1 resolved
                      have stands_of {t : Located} (mem : t ∈ found) :
                          Stands g own (some d) t := by
                        cases mem
                        exact stands_of_locate located
                      have within_of {t : Located} (mem : t ∈ found) :
                          Within g roots t.value := by
                        cases mem
                        exact ⟨d, document_mem d rfl, inside_of_locate located⟩
                      refine reported_reference entries known reference fresh_mem again located
                        (fun t mem on_way => ?_) fun t mem => ?_
                      · exact shownBack_of_passed (later t _ on_way) (stands_of mem)
                          ((within_of mem).isTree trees)
                      · cases mem
                        have target : targetIn g (some d) ref = .ok (some t.value) :=
                          Traced.result_bind_eq_ok.2 ⟨some t, located, rfl⟩
                        exact fewer _ fewer' apart' (within_of rfl) (stands_of rfl) (later t)
                          (answers.behind (.single (.target refers again target))) rfl

end Walk

/-- **Reporting cycles** of a tree ends where resolving does not fail, and it reports one exactly
when a reference is seen to come back on a way from the root. -/
theorem pathCycles_isOk_and_reports_iff {schema : Located}
    (stands : Stands g schema.value document schema)
    (trees : ∀ root ∈ schema.value :: document.toList, root.isTree = true)
    (answers : AnswersSeen g document (.schema, ⟨[], schema.value⟩)) :
    ∃ found, (pathCycles g schema (wholeOf document) [] []).result = .ok found
      ∧ (found ≠ [] ↔ ShownBack g document (.schema, ⟨[], schema.value⟩)) := by
  have document_mem : ∀ d ∈ document, d ∈ schema.value :: document.toList := fun d mem =>
    List.mem_cons_of_mem _ (Option.mem_toList.2 mem)
  have walk : Reported g document (occurring g schema.value document) [] [] [] schema :=
    reported trees document_mem
      (fun r occurs => iff_of_true (mem_occurring occurs) List.not_mem_nil)
      (.of_mem List.mem_cons_self) stands nofun answers
  obtain ⟨found, result, iff⟩ := walk
  have all_fresh : (g.references schema.value
      ++ ((wholeOf document).map fun d => g.references d.value).getD []).filter (· ∉ [])
      = occurring g schema.value document := by
    refine (List.filter_eq_self.2 fun _ _ => decide_eq_true List.not_mem_nil).trans ?_
    cases document <;> rfl
  refine ⟨found, ?_, iff⟩
  unfold pathCycles
  dsimp only
  rw [all_fresh]
  refine Traced.result_bind_eq_ok.2 ⟨found, result, ?_⟩
  -- The segments given to start with are none, so every cycle keeps its path.
  cases found with
  | nil => rfl
  | cons cycle cycles =>
      refine Traced.result_bind_eq_ok.2 ⟨[], rfl, ?_⟩
      exact congrArg Except.ok (List.map_id (cycle :: cycles))

end SchemaCodegen
