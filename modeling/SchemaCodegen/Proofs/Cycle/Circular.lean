import SchemaCodegen.Proofs.Cycle.Graph
import SchemaCodegen.Proofs.Cycle.Marked

/-!
# The circular names of a dictionary

`circularNames` reports which schemas of a dictionary take part in a cycle.  On the graph of
the dictionary (`RefersTo`) the report is complete and sound: it has every name on a cycle,
and every name in it leads to one on a cycle.  A name from which no cycle can be reached is
therefore never reported, and on the cycles themselves the report does not depend on the
order of the dictionary.  Off the cycles it may: of the names that lead to a cycle, those are
reported from which the search happened to close it.

Names are texts; a dictionary with other keys on the way to a cycle has no report
(`circularNames_isOk`).
-/

namespace SchemaCodegen

open Relation

variable {g : Anchors} {d : Entries}

/-! ### The marked vertices -/

/-- The edges of the table lead to names of the dictionary. -/
theorem mem_keys_of_mem_edgesFrom {a b : Scalar}
    (h : b ∈ edgesFrom (dependencyTable g d) a) : b ∈ Entries.keys d := by
  have refers : RefersTo g d a b := by
    rw [← edge_edgesFrom]
    exact h
  exact refers.mem_keys

/-- A name on a cycle is a name of the dictionary. -/
theorem mem_keys_of_onCycle {name : Scalar} (onCycle : TransGen (RefersTo g d) name name) :
    name ∈ Entries.keys d := by
  obtain ⟨_, -, last⟩ := TransGen.tail'_iff.1 onCycle
  exact last.mem_keys

/-- A name on a cycle is circular. -/
theorem mem_circularVertices {name : Scalar} (onCycle : TransGen (RefersTo g d) name name) :
    name ∈ circularVertices g d := by
  have mem := mem_keys_of_onCycle onCycle
  rw [← edge_edgesFrom] at onCycle
  refine List.mem_filter.2 ⟨mem, decide_eq_true ?_⟩
  exact mem_markedVertices_of_onCycle (fun _ _ => mem_keys_of_mem_edgesFrom) mem onCycle

/-- A circular name leads to one on a cycle. -/
theorem exists_onCycle_of_mem_circularVertices {name : Scalar}
    (mem : name ∈ circularVertices g d) :
    ∃ member, ReflTransGen (RefersTo g d) name member ∧ TransGen (RefersTo g d) member member := by
  rw [← edge_edgesFrom]
  exact exists_onCycle_of_mem_markedVertices (fun _ _ => mem_keys_of_mem_edgesFrom)
    (of_decide_eq_true (List.mem_filter.1 mem).2)

/-! ### The report -/

/-- Keys are all texts exactly when they are the keys of those texts. -/
theorem allStrings?_eq_some {keys : List Scalar} {names : List String} :
    allStrings? keys = some names ↔ keys = names.map Scalar.string := by
  unfold allStrings?
  induction keys generalizing names with
  | nil => cases names <;> simp
  | cons key keys ih =>
      rw [List.mapM_cons]
      cases key with
      | string s =>
          simp only [Option.pure_def, Option.bind_eq_bind, Option.bind_some,
            Option.bind_eq_some_iff, Option.some.injEq, ih]
          constructor
          · rintro ⟨rest, rfl, rfl⟩
            rfl
          · intro same
            cases names with
            | nil => cases same
            | cons name names =>
                cases same
                exact ⟨names, rfl, rfl⟩
      | _ => cases names <;> simp

/-- Keys that are texts one by one are texts together. -/
theorem exists_texts {keys : List Scalar} (texts : ∀ key ∈ keys, ∃ name, key = .string name) :
    ∃ names : List String, keys = names.map Scalar.string := by
  induction keys with
  | nil => exact ⟨[], rfl⟩
  | cons key keys ih =>
      obtain ⟨⟨name, rfl⟩, later⟩ := List.forall_mem_cons.1 texts
      obtain ⟨names, rfl⟩ := ih later
      exact ⟨name :: names, rfl⟩

/-- The report has the texts among the circular names, provided that all are texts. -/
theorem circularNames_result (g : Anchors) (d : Entries) :
    (circularNames g d).result
      = match allStrings? (circularVertices g d) with
        | none => .error .wrongKind
        | some names => .ok (sortedTexts names) := by
  unfold circularNames
  cases allStrings? (circularVertices g d) with
  | none => rfl
  | some names =>
      dsimp only
      split <;> rfl

/-- A name is reported exactly when it is circular. -/
theorem mem_report {report : List String} (h : (circularNames g d).result = .ok report)
    {name : String} : name ∈ report ↔ .string name ∈ circularVertices g d := by
  rw [circularNames_result] at h
  cases found : allStrings? (circularVertices g d) with
  | none =>
      rw [found] at h
      cases h
  | some names =>
      rw [found] at h
      cases h
      rw [allStrings?_eq_some.1 found]
      simp [sortedTexts, List.mem_mergeSort]

/-- A dictionary of texts has a report. -/
theorem circularNames_isOk (texts : ∀ key ∈ Entries.keys d, ∃ name, key = .string name) :
    ∃ report, (circularNames g d).result = .ok report := by
  obtain ⟨names, all⟩ : ∃ names : List String, circularVertices g d = names.map Scalar.string :=
    exists_texts fun key mem => texts key (List.mem_filter.1 mem).1
  refine ⟨sortedTexts names, ?_⟩
  rw [circularNames_result, allStrings?_eq_some.2 all]

/-- **The report of circular names.**  A dictionary of texts has one.  A report has every name
on a cycle; every name in it leads to one on a cycle, so a name that leads to none is not in
it; and a dictionary of the same schemas in another order reports the same names of those on
a cycle. -/
theorem circularNames_spec (g : Anchors) (d : Entries) :
    ((∀ key ∈ Entries.keys d, ∃ name, key = .string name) →
        ∃ report, (circularNames g d).result = .ok report)
      ∧ ∀ report, (circularNames g d).result = .ok report →
        (∀ name, TransGen (RefersTo g d) name name → ∃ text ∈ report, name = .string text)
        ∧ (∀ text ∈ report, ∃ member, ReflTransGen (RefersTo g d) (.string text) member
            ∧ TransGen (RefersTo g d) member member)
        ∧ (∀ text, (∀ member, ReflTransGen (RefersTo g d) (.string text) member →
            ¬ TransGen (RefersTo g d) member member) → text ∉ report)
        ∧ (∀ d' report', d.Perm d' → (Entries.keys d).Nodup →
            (circularNames g d').result = .ok report' →
            ∀ text, TransGen (RefersTo g d) (.string text) (.string text) →
              (text ∈ report ↔ text ∈ report')) := by
  refine ⟨circularNames_isOk, fun report ok => ⟨fun name onCycle => ?_, fun text mem => ?_,
    fun text none_reached mem => ?_, fun d' report' perm nodup ok' text onCycle => ?_⟩⟩
  · obtain ⟨_, -, last⟩ := TransGen.tail'_iff.1 onCycle
    obtain ⟨-, -, text, -, rfl⟩ := last
    exact ⟨text, (mem_report ok).2 (mem_circularVertices onCycle), rfl⟩
  · exact exists_onCycle_of_mem_circularVertices ((mem_report ok).1 mem)
  · obtain ⟨member, reaches, onCycle⟩ :=
      exists_onCycle_of_mem_circularVertices ((mem_report ok).1 mem)
    exact none_reached member reaches onCycle
  · have onCycle' : TransGen (RefersTo g d') (.string text) (.string text) := by
      rwa [← refersTo_perm perm nodup]
    exact iff_of_true ((mem_report ok).2 (mem_circularVertices onCycle))
      ((mem_report ok').2 (mem_circularVertices onCycle'))

end SchemaCodegen
