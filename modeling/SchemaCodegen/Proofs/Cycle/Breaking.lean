import SchemaCodegen.Proofs.Cycle.Returning

/-!
# Where repeats are marked

`breakCycles` replaces a reference by a marker exactly where it comes back.  Whether it
replaces any is seen by comparing its result with that of the same walk in which repeats are
kept as they are (`Replaces`).  In trees both walks end where resolving does not fail, and the
results differ exactly when a reference comes back on a way from the root
(`breakCycles_isOk_and_replaces_iff`).  Conversely, a result shows that resolving did not fail on
any way (`answersOn_of_breakCycles`).
-/

namespace SchemaCodegen

open Relation

variable {g : Anchors} {document : Option Value} {v : Value} {roots : List Value}
  {taken fresh : List String} {active : List Nat} {es : Entries} {xs : List Value} {ref : String}

/-- Keeping repeats, and otherwise working as the walk that marks them. -/
def Inlining.keeping (g : Anchors) (document : Option Value) : Inlining :=
  { Inlining.marking g document with repeated := fun _ v => v }

/-- Breaking the cycles of a schema replaces a reference: the result is not that of the walk
that keeps repeats. -/
def Replaces (g : Anchors) (schema : Value) (document : Option Value) : Prop :=
  ∃ kept marked,
    ((Inlining.keeping g document).value g (occurring g schema document) [] schema).result
        = .ok kept
      ∧ (breakCycles g schema document).result = .ok marked ∧ marked ≠ kept

/-- A marker is no reference. -/
theorem circularMarker_ne (refers : Entries.string? es "$ref" = some ref) :
    circularMarker ref ≠ .object es := by
  rintro ⟨⟩
  cases refers

/-! ### The walks and the ways -/

/-- `Broken g document fresh taken active v kept marked`: below `fresh` references the walks of
`v` give `kept` and `marked`, which differ when a reference comes back below those `taken`. -/
structure Broken (g : Anchors) (document : Option Value) (fresh taken : List String)
    (active : List Nat) (v kept marked : Value) : Prop where
  keeping : ((Inlining.keeping g document).value g fresh active v).result = .ok kept
  marking : ((Inlining.marking g document).value g fresh active v).result = .ok marked
  differ : marked ≠ kept ↔ ComesBack g document ⟨taken, v⟩

/-- Neither walk changes a leaf. -/
theorem Broken.leaf (isLeaf : v.IsLeaf g) : Broken g document fresh taken active v v v where
  keeping := by
    rw [Inlining.value_leaf isLeaf]
    rfl
  marking := by
    rw [Inlining.value_leaf isLeaf]
    rfl
  differ := by
    have plain : reference? g v = none := by
      unfold reference?
      rw [isLeaf.2]
      rfl
    rw [comesBack_part plain]
    simp [not_partOf_leaf isLeaf]

/-- Lists side by side differ where one of their rows does. -/
theorem map_ne_map_iff {α β : Type} {f h : α → β} {rows : List α} :
    rows.map f ≠ rows.map h ↔ ∃ row ∈ rows, f row ≠ h row := by
  rw [ne_eq, List.map_inj_left]
  push Not
  rfl

/-- The items of a list are walked one by one. -/
theorem exists_broken_list
    (each : ∀ x ∈ xs, ∃ kept marked, Broken g document fresh taken active x kept marked) :
    ∃ kept marked, Broken g document fresh taken active (.list xs) kept marked := by
  have rowed : ∀ x ∈ xs, ∃ row : Value × Value,
      Broken g document fresh taken active x row.1 row.2 := by
    intro x mem
    obtain ⟨kept, marked, broken⟩ := each x mem
    exact ⟨(kept, marked), broken⟩
  obtain ⟨rows, aligned⟩ := exists_forall₂ rowed
  refine ⟨.list (rows.map (·.1)), .list (rows.map (·.2)), ?_, ?_, ?_⟩
  · rw [Inlining.value_list]
    refine Traced.result_bind_eq_ok.2 ⟨_, Traced.result_mapM_eq_ok.2 ?_, rfl⟩
    rw [List.forall₂_map_right_iff]
    exact aligned.imp fun _ _ broken => broken.keeping
  · rw [Inlining.value_list]
    refine Traced.result_bind_eq_ok.2 ⟨_, Traced.result_mapM_eq_ok.2 ?_, rfl⟩
    rw [List.forall₂_map_right_iff]
    exact aligned.imp fun _ _ broken => broken.marking
  · rw [comesBack_part rfl, ne_eq, Value.list.injEq, ← ne_eq, map_ne_map_iff]
    simp only [partOf_list]
    constructor
    · rintro ⟨row, mem, differ⟩
      obtain ⟨x, at_x, broken⟩ := exists_of_mem_left aligned.flip mem
      exact ⟨x, at_x, broken.differ.1 differ⟩
    · rintro ⟨x, at_x, back⟩
      obtain ⟨row, mem, broken⟩ := exists_of_mem_left aligned at_x
      exact ⟨row, mem, broken.differ.2 back⟩

/-- The values of an object are walked one by one. -/
theorem exists_broken_entries
    (each : ∀ e ∈ es, ∃ kept marked, Broken g document fresh taken active e.2 kept marked) :
    ∃ kept marked : Entries,
      ((es.mapM fun e => do
        pure (e.1, ← (Inlining.keeping g document).value g fresh active e.2)) :
          Traced Entries).result = .ok kept
      ∧ ((es.mapM fun e => do
        pure (e.1, ← (Inlining.marking g document).value g fresh active e.2)) :
          Traced Entries).result = .ok marked
      ∧ (Value.object marked ≠ .object kept
        ↔ ∃ u, PartOf g (.object es) u ∧ ComesBack g document ⟨taken, u⟩) := by
  have rowed : ∀ e ∈ es, ∃ row : Scalar × Value × Value,
      row.1 = e.1 ∧ Broken g document fresh taken active e.2 row.2.1 row.2.2 := by
    intro e mem
    obtain ⟨kept, marked, broken⟩ := each e mem
    exact ⟨(e.1, kept, marked), rfl, broken⟩
  obtain ⟨rows, aligned⟩ := exists_forall₂ rowed
  refine ⟨rows.map fun row => (row.1, row.2.1), rows.map fun row => (row.1, row.2.2), ?_, ?_, ?_⟩
  · refine Traced.result_mapM_eq_ok.2 ?_
    rw [List.forall₂_map_right_iff]
    refine aligned.imp fun e row here => ?_
    rw [here.1]
    exact Traced.result_bind_eq_ok.2 ⟨_, here.2.keeping, rfl⟩
  · refine Traced.result_mapM_eq_ok.2 ?_
    rw [List.forall₂_map_right_iff]
    refine aligned.imp fun e row here => ?_
    rw [here.1]
    exact Traced.result_bind_eq_ok.2 ⟨_, here.2.marking, rfl⟩
  · rw [ne_eq, Value.object.injEq, ← ne_eq, map_ne_map_iff]
    simp only [partOf_object, ne_eq, Prod.mk.injEq, true_and]
    constructor
    · rintro ⟨row, mem, differ⟩
      obtain ⟨e, at_e, -, broken⟩ := exists_of_mem_left aligned.flip mem
      exact ⟨_, ⟨e, at_e, rfl⟩, broken.differ.1 differ⟩
    · rintro ⟨_, ⟨e, at_e, rfl⟩, back⟩
      obtain ⟨row, mem, -, broken⟩ := exists_of_mem_left aligned at_e
      exact ⟨row, mem, broken.differ.2 back⟩

/-- An object that is no reference is walked value by value. -/
theorem exists_broken_object (plain : reference? g (.object es) = none)
    (each : ∀ e ∈ es, ∃ kept marked, Broken g document fresh taken active e.2 kept marked) :
    ∃ kept marked, Broken g document fresh taken active (.object es) kept marked := by
  obtain ⟨kept, marked, keeping, marking, differ⟩ := exists_broken_entries each
  refine ⟨.object kept, .object marked, ?_, ?_, ?_⟩
  · rw [Inlining.value_object plain]
    exact Traced.result_bind_eq_ok.2 ⟨kept, keeping, rfl⟩
  · rw [Inlining.value_object plain]
    exact Traced.result_bind_eq_ok.2 ⟨marked, marking, rfl⟩
  · rw [comesBack_part plain]
    exact differ

/-- A reference that comes back is kept by the one walk and marked by the other. -/
theorem Broken.repeated (refers : Entries.string? es "$ref" = some ref) (stale : ref ∉ fresh)
    (again : ref ∈ taken) :
    Broken g document fresh taken active (.object es) (.object es) (circularMarker ref) where
  keeping := by
    rw [Inlining.value_repeated refers stale]
    rfl
  marking := by
    rw [Inlining.value_repeated refers stale]
    rfl
  differ := iff_of_true (circularMarker_ne refers) (comesBack_repeated refers again)

/-- A fresh reference that has a target is walked as the target. -/
theorem Broken.target {t kept marked : Value} (refers : Entries.string? es "$ref" = some ref)
    (fresh_mem : ref ∈ fresh) (new : ref ∉ taken) (found : targetIn g document ref = .ok (some t))
    (below : Broken g document (taking ref fresh) (ref :: taken) [] t kept marked) :
    Broken g document fresh taken active (.object es) kept marked where
  keeping := by
    rw [Inlining.value_fresh refers fresh_mem]
    exact Traced.result_bind_eq_ok.2 ⟨some t, found, below.keeping⟩
  marking := by
    rw [Inlining.value_fresh refers fresh_mem]
    exact Traced.result_bind_eq_ok.2 ⟨some t, found, below.marking⟩
  differ := by
    have is_reference : reference? g (.object es) = some ref := refers
    rw [comesBack_target is_reference new found]
    exact below.differ

/-- A fresh reference without a target is walked as an object. -/
theorem exists_broken_inside (refers : Entries.string? es "$ref" = some ref)
    (fresh_mem : ref ∈ fresh) (new : ref ∉ taken) (nothing : targetIn g document ref = .ok none)
    (each : ∀ e ∈ es, ∃ kept marked,
      Broken g document (taking ref fresh) (ref :: taken) [] e.2 kept marked) :
    ∃ kept marked, Broken g document fresh taken active (.object es) kept marked := by
  obtain ⟨kept, marked, keeping, marking, differ⟩ := exists_broken_entries each
  refine ⟨.object kept, .object marked, ?_, ?_, ?_⟩
  · rw [Inlining.value_fresh refers fresh_mem]
    refine Traced.result_bind_eq_ok.2 ⟨none, nothing, ?_⟩
    rw [Inlining.entries_eq_mapM]
    exact Traced.result_bind_eq_ok.2 ⟨kept, keeping, rfl⟩
  · rw [Inlining.value_fresh refers fresh_mem]
    refine Traced.result_bind_eq_ok.2 ⟨none, nothing, ?_⟩
    rw [Inlining.entries_eq_mapM]
    exact Traced.result_bind_eq_ok.2 ⟨marked, marking, rfl⟩
  · have is_reference : reference? g (.object es) = some ref := refers
    rw [comesBack_inside is_reference new nothing]
    exact differ

/-! ### The whole walk -/

section Walks

variable (trees : ∀ root ∈ roots, root.isTree = true) (document_mem : ∀ d ∈ document, d ∈ roots)

include trees document_mem

/-- **Both walks end** where resolving does not fail, and they differ exactly when a reference
comes back, provided that a reference is fresh exactly when it is not taken. -/
theorem exists_broken (apart : ∀ r, Occurs g roots r → (r ∈ fresh ↔ r ∉ taken))
    (within : Within g roots v) (answers : AnswersOn g document ⟨taken, v⟩) :
    ∃ kept marked, Broken g document fresh taken active v kept marked := by
  -- Taking a reference leaves fewer fresh ones; between references the tree gets smaller.
  induction count : fresh.length using Nat.strongRecOn generalizing fresh taken active v with
  | _ count fewer =>
      subst count
      have tree := within.isTree trees
      induction v, tree using Value.isTree_induct (g := g) with
      | leaf v _ isLeaf => exact ⟨v, v, .leaf isLeaf⟩
      | list xs _ ih =>
          refine exists_broken_list fun x mem => ?_
          have part : PartOf g (.list xs) x := .inl ⟨xs, rfl, mem⟩
          exact ih x mem ((within.part part).isTree trees) (within.part part)
            (answers.next (.part rfl part))
      | object es _ ih =>
          have part_of (e : Scalar × Value) (mem : e ∈ es) : PartOf g (.object es) e.2 :=
            .inr ⟨es, e.1, rfl, mem⟩
          cases reference : reference? g (.object es) with
          | none =>
              refine exists_broken_object reference fun e mem => ?_
              have part := part_of e mem
              exact ih e mem ((within.part part).isTree trees) (within.part part)
                (answers.next (.part reference part))
          | some ref =>
              have occurs : Occurs g roots ref := ⟨_, within, reference?_eq_some.1 reference⟩
              by_cases again : ref ∈ taken
              · have stale : ref ∉ fresh := fun mem => (apart ref occurs).1 mem again
                exact ⟨.object es, circularMarker ref, .repeated reference stale again⟩
              · have fresh_mem : ref ∈ fresh := (apart ref occurs).2 again
                have apart' : ∀ r, Occurs g roots r → (r ∈ taking ref fresh ↔ r ∉ ref :: taken) :=
                  mem_taking_iff_not_mem_cons apart
                obtain ⟨found, target⟩ := answers _ .refl ref reference again
                cases found with
                | none =>
                    refine exists_broken_inside reference fresh_mem again target fun e mem => ?_
                    exact fewer _ (length_taking_lt fresh_mem) apart'
                      (within.part (part_of e mem))
                      (answers.next (.inside reference again target (part_of e mem))) rfl
                | some t =>
                    obtain ⟨kept, marked, broken⟩ := fewer _ (length_taking_lt fresh_mem) apart'
                      (within_of_targetIn document_mem target)
                      (answers.next (.target reference again target)) rfl
                    exact ⟨kept, marked, broken.target reference fresh_mem again target⟩

end Walks

/-- **Breaking cycles** of a tree ends where resolving does not fail, and it replaces a reference
exactly when one comes back on a way from the root. -/
theorem breakCycles_isOk_and_replaces_iff
    (trees : ∀ root ∈ v :: document.toList, root.isTree = true)
    (answers : AnswersOn g document ⟨[], v⟩) :
    (∃ marked, (breakCycles g v document).result = .ok marked)
      ∧ (Replaces g v document ↔ ComesBack g document ⟨[], v⟩) := by
  have apart : ∀ r, Occurs g (v :: document.toList) r → (r ∈ occurring g v document ↔ r ∉ []) :=
    fun r occurs => iff_of_true (mem_occurring occurs) List.not_mem_nil
  obtain ⟨kept, marked, broken⟩ : ∃ kept marked,
      Broken g document (occurring g v document) [] [] v kept marked :=
    exists_broken trees (fun d mem => List.mem_cons_of_mem _ (Option.mem_toList.2 mem)) apart
      (.of_mem List.mem_cons_self) answers
  refine ⟨⟨marked, broken.marking⟩, ?_⟩
  rw [← broken.differ]
  constructor
  · rintro ⟨kept', marked', keeping, marking, differ⟩
    cases broken.keeping.symm.trans keeping
    cases broken.marking.symm.trans marking
    exact differ
  · exact fun differ => ⟨kept, marked, broken.keeping, broken.marking, differ⟩

/-! ### Where breaking cycles has a result -/

/-- `Walked g document roots w`: the walk that marks repeats has a result at `w`, which is within
the roots; the references that are fresh there are those not taken. -/
def Walked (g : Anchors) (document : Option Value) (roots : List Value) (w : Waypoint) : Prop :=
  ∃ fresh active marked, (∀ r, Occurs g roots r → (r ∈ fresh ↔ r ∉ w.taken))
    ∧ Within g roots w.value
    ∧ ((Inlining.marking g document).value g fresh active w.value).result = .ok marked

/-- A step of a list with a result has one. -/
theorem exists_result_of_mapM {α β : Type} {step : α → Traced β} {ys : List α} {zs : List β}
    {y : α} (h : (ys.mapM step).result = .ok zs) (mem : y ∈ ys) :
    ∃ z, (step y).result = .ok z := by
  obtain ⟨z, -, here⟩ := exists_of_mem_left (Traced.result_mapM_eq_ok.1 h) mem
  exact ⟨z, here⟩

section Walked

variable (trees : ∀ root ∈ roots, root.isTree = true) (document_mem : ∀ d ∈ document, d ∈ roots)
  {w w' : Waypoint}

include trees

/-- Where the walk has a result at a reference that is not taken, the reference was asked for its
target, and the walk went on to the target or, without one, to the values of the reference. -/
theorem Walked.reference (walked : Walked g document roots ⟨taken, v⟩)
    (refers : reference? g v = some ref) (new : ref ∉ taken) :
    ∃ (es : Entries) (found : Option Value) (fresh : List String) (marked : Value),
      v = .object es ∧ targetIn g document ref = .ok found
      ∧ (∀ r, Occurs g roots r → (r ∈ fresh ↔ r ∉ ref :: taken))
      ∧ (match found with
        | some t => (Inlining.marking g document).value g fresh [] t
        | none => do
          pure (.object (← (Inlining.marking g document).entries g fresh [] es)) :
          Traced Value).result = .ok marked := by
  obtain ⟨fresh, active, marked, apart, within, result⟩ := walked
  obtain ⟨es, entries, reference⟩ := reference?_eq_some.1 refers
  have fresh_mem : ref ∈ fresh := (apart ref ⟨v, within, es, entries, reference⟩).2 new
  cases eq_object_of_entries? (within.isTree trees) entries
  dsimp only at result
  rw [Inlining.value_fresh reference fresh_mem] at result
  obtain ⟨found, target, below⟩ := Traced.result_bind_eq_ok.1 result
  exact ⟨es, found, taking ref fresh, marked, rfl, target, mem_taking_iff_not_mem_cons apart, below⟩

/-- Where the walk has a result, a reference that is not taken was asked for its target. -/
theorem Walked.answers (walked : Walked g document roots w) : Answers g document w := by
  intro ref refers new
  obtain ⟨es, found, fresh, marked, -, target, -, -⟩ := walked.reference trees refers new
  exact ⟨found, target⟩

include document_mem

/-- Where the walk has a result, it has one behind every step. -/
theorem Walked.next (walked : Walked g document roots w) (step : Unfolds g document w w') :
    Walked g document roots w' := by
  have within' : Within g roots w'.value := by
    obtain ⟨fresh, active, marked, apart, within, result⟩ := walked
    exact within_of_unfolds document_mem within step
  cases step with
  | part plain part =>
      obtain ⟨fresh, active, marked, apart, within, result⟩ := walked
      obtain ⟨xs, items, mem⟩ | ⟨es, key, entries, mem⟩ := part
      · cases eq_list_of_items? (within.isTree trees) items
        dsimp only at result
        rw [Inlining.value_list] at result
        obtain ⟨ys, each, -⟩ := Traced.result_bind_eq_ok.1 result
        obtain ⟨y, here⟩ := exists_result_of_mapM each mem
        exact ⟨fresh, active, y, apart, within', here⟩
      · cases eq_object_of_entries? (within.isTree trees) entries
        dsimp only at result
        rw [Inlining.value_object plain] at result
        obtain ⟨ys, each, -⟩ := Traced.result_bind_eq_ok.1 result
        obtain ⟨y, here⟩ := exists_result_of_mapM each mem
        obtain ⟨z, here, -⟩ := Traced.result_bind_eq_ok.1 here
        exact ⟨fresh, active, z, apart, within', here⟩
  | target refers new found =>
      obtain ⟨es, found', fresh, marked, -, target, apart, below⟩ :=
        walked.reference trees refers new
      cases found.symm.trans target
      exact ⟨fresh, [], marked, apart, within', below⟩
  | inside refers new nothing part =>
      obtain ⟨es, found, fresh, marked, rfl, target, apart, below⟩ :=
        walked.reference trees refers new
      cases nothing.symm.trans target
      obtain ⟨ys, each, -⟩ := Traced.result_bind_eq_ok.1 below
      rw [Inlining.entries_eq_mapM] at each
      obtain ⟨e, mem, rfl⟩ := partOf_object.1 part
      obtain ⟨y, here⟩ := exists_result_of_mapM each mem
      obtain ⟨z, here, -⟩ := Traced.result_bind_eq_ok.1 here
      exact ⟨fresh, [], z, apart, within', here⟩

end Walked

/-- Where breaking the cycles of a tree has a result, resolving does not fail on any way from the
root. -/
theorem answersOn_of_breakCycles {marked : Value}
    (trees : ∀ root ∈ v :: document.toList, root.isTree = true)
    (breaks : (breakCycles g v document).result = .ok marked) : AnswersOn g document ⟨[], v⟩ := by
  intro w way
  have document_mem : ∀ d ∈ document, d ∈ v :: document.toList := fun d mem =>
    List.mem_cons_of_mem _ (Option.mem_toList.2 mem)
  suffices walked : Walked g document (v :: document.toList) w from walked.answers trees
  induction way with
  | refl =>
      exact ⟨occurring g v document, [], marked,
        fun r occurs => iff_of_true (mem_occurring occurs) List.not_mem_nil,
        .of_mem List.mem_cons_self, breaks⟩
  | tail _ step ih => exact ih.next trees document_mem step

end SchemaCodegen
