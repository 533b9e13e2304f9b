import SchemaCodegen.Proofs.Reference.Inlined

/-!
# Chains of references

A reference may resolve to a reference again.  Each value of such a chain determines the next one
(`Follows.unique`), so the chain comes to one end and no other (`ComesTo.unique`): a schema, a
reference that does not resolve, data that is no object, or none at all.

`followReference` finds that end, whichever it is (`exists_comesTo`).  It gives the schema where
there is one, and reports a loop exactly when the chain goes on for ever
(`followReference_finds_end`).

### What is load-bearing

A reference that comes back resolves to what it resolved to before, and from there the chain came
back to it; so it goes round for ever (`exists_follows_of_loop`).  Conversely a reference that is
not fresh was taken on the way (`Resumes`), because whatever a chain meets is inside the document.
-/

namespace SchemaCodegen

open Relation

variable {g : Anchors} {document v u t m : Value} {fresh : List String} {ref : String}
  {roots : List Value}

/-! ### One step -/

/-- `Follows g document v t`: the value `v` is a reference, which resolves to `t`. -/
def Follows (g : Anchors) (document v t : Value) : Prop :=
  ∃ ref, reference? g v = some ref ∧ (resolve g ref document).result = .ok (some t)

/-- `LeadsInto g document v u`: following references comes from `v` to `u`. -/
def LeadsInto (g : Anchors) (document : Value) : Value → Value → Prop :=
  ReflTransGen (Follows g document)

/-- Resolving the references on the way does not fail. -/
def AnswersChain (g : Anchors) (document v : Value) : Prop :=
  ∀ u ref, LeadsInto g document v u → reference? g u = some ref →
    ∃ found, (resolve g ref document).result = .ok found

theorem Follows.unique : Relator.RightUnique (Follows g document) := by
  rintro v t t' ⟨ref, refers, resolves⟩ ⟨ref', refers', resolves'⟩
  cases refers.symm.trans refers'
  cases resolves.symm.trans resolves'
  rfl

/-- A chain stays within the roots among which the document is. -/
theorem Within.of_leadsInto (document_mem : document ∈ roots) (within : Within g roots v)
    (leads : LeadsInto g document v u) : Within g roots u := by
  induction leads with
  | refl => exact within
  | tail _ follows _ =>
      obtain ⟨ref, -, resolves⟩ := follows
      exact ⟨document, document_mem, inside_of_resolve resolves⟩

/-- The references of a chain occur in its beginning or in the document. -/
theorem occurs_of_leadsInto (leads : LeadsInto g document v u)
    (refers : reference? g u = some ref) : Occurs g [v, document] ref := by
  have within : Within g [v, document] u :=
    .of_leadsInto (by simp) (.of_mem List.mem_cons_self) leads
  exact ⟨u, within, reference?_eq_some.1 refers⟩

theorem answersChain_of_answersReferences
    (answers : AnswersReferences g [v, document] document) : AnswersChain g document v :=
  fun _ ref leads refers => answers ref (occurs_of_leadsInto leads refers)

/-! ### The end of a chain -/

/-- What a chain of references comes to. -/
inductive ChainEnd where
  | schema (m : Value)
  | broken
  | noSchema
  | endless

/-- The schema at the end of a chain. -/
def ChainEnd.schema? : ChainEnd → Option Value
  | .schema m => some m
  | .broken | .noSchema | .endless => none

/-- `StopsAt g document u e`: a chain does not go on behind `u`, and its end is `e`. -/
inductive StopsAt (g : Anchors) (document u : Value) : ChainEnd → Prop
  | schema (object : g.isObject u = true) (plain : reference? g u = none) :
      StopsAt g document u (.schema u)
  | broken {ref : String} (refers : reference? g u = some ref)
      (nothing : (resolve g ref document).result = .ok none) : StopsAt g document u .broken
  | noSchema (other : g.isObject u = false) : StopsAt g document u .noSchema

/-- `ComesTo g document v e`: the chain that begins with `v` has the end `e`. -/
inductive ComesTo (g : Anchors) (document v : Value) : ChainEnd → Prop
  | stops {u : Value} {e : ChainEnd} (leads : LeadsInto g document v u)
      (stops : StopsAt g document u e) : ComesTo g document v e
  | endless (on : ∀ u, LeadsInto g document v u → ∃ t, Follows g document u t) :
      ComesTo g document v .endless

theorem isObject_of_reference? (refers : reference? g u = some ref) : g.isObject u = true := by
  obtain ⟨es, entries, -⟩ := reference?_eq_some.1 refers
  rw [Anchors.isObject, entries]
  rfl

theorem StopsAt.not_follows {e : ChainEnd} (stops : StopsAt g document u e) :
    ¬ Follows g document u t := by
  rintro ⟨ref, refers, resolves⟩
  cases stops with
  | schema object plain => cases plain.symm.trans refers
  | broken refers' nothing =>
      cases refers.symm.trans refers'
      cases nothing.symm.trans resolves
  | noSchema other => cases (isObject_of_reference? refers).symm.trans other

theorem StopsAt.unique {e e' : ChainEnd} (stops : StopsAt g document u e)
    (stops' : StopsAt g document u e') : e = e' := by
  cases stops with
  | schema object plain =>
      cases stops' with
      | schema => rfl
      | broken refers => cases plain.symm.trans refers
      | noSchema other => cases object.symm.trans other
  | broken refers =>
      cases stops' with
      | schema _ plain => cases plain.symm.trans refers
      | broken => rfl
      | noSchema other => cases (isObject_of_reference? refers).symm.trans other
  | noSchema other =>
      cases stops' with
      | schema object => cases object.symm.trans other
      | broken refers => cases (isObject_of_reference? refers).symm.trans other
      | noSchema => rfl

/-- A chain stops at one value only. -/
theorem StopsAt.eq {e e' : ChainEnd} (stops : StopsAt g document u e)
    (stops' : StopsAt g document t e') (leads : LeadsInto g document v u)
    (leads' : LeadsInto g document v t) : u = t := by
  obtain between | between := ReflTransGen.total_of_right_unique Follows.unique leads leads'
  · obtain rfl | ⟨_, follows, -⟩ := between.cases_head
    · rfl
    · exact absurd follows stops.not_follows
  · obtain rfl | ⟨_, follows, -⟩ := between.cases_head
    · rfl
    · exact absurd follows stops'.not_follows

/-- A chain has one end. -/
theorem ComesTo.unique {e e' : ChainEnd} (comes : ComesTo g document v e)
    (comes' : ComesTo g document v e') : e = e' := by
  cases comes with
  | stops leads stops =>
      cases comes' with
      | stops leads' stops' =>
          cases stops.eq stops' leads leads'
          exact stops.unique stops'
      | endless on =>
          obtain ⟨_, follows⟩ := on _ leads
          exact absurd follows stops.not_follows
  | endless on =>
      cases comes' with
      | stops leads stops =>
          obtain ⟨_, follows⟩ := on _ leads
          exact absurd follows stops.not_follows
      | endless => rfl

theorem ComesTo.head {e : ChainEnd} (follows : Follows g document v t)
    (comes : ComesTo g document t e) : ComesTo g document v e := by
  cases comes with
  | stops leads stops => exact .stops (.head follows leads) stops
  | endless on =>
      refine .endless fun u leads => ?_
      obtain rfl | ⟨t', follows', rest⟩ := leads.cases_head
      · exact ⟨t, follows⟩
      · exact on u (Follows.unique follows follows' ▸ rest)

theorem comesTo_schema : ComesTo g document v (.schema m) ↔
    LeadsInto g document v m ∧ g.isObject m = true ∧ reference? g m = none := by
  constructor
  · rintro (⟨leads, ⟨object, plain⟩⟩)
    exact ⟨leads, object, plain⟩
  · rintro ⟨leads, object, plain⟩
    exact .stops leads (.schema object plain)

theorem comesTo_broken : ComesTo g document v .broken ↔
    ∃ u ref, LeadsInto g document v u ∧ reference? g u = some ref
      ∧ (resolve g ref document).result = .ok none := by
  constructor
  · rintro (⟨leads, ⟨⟩ | ⟨refers, nothing⟩⟩)
    exact ⟨_, _, leads, refers, nothing⟩
  · rintro ⟨u, ref, leads, refers, nothing⟩
    exact .stops leads (.broken refers nothing)

theorem comesTo_noSchema : ComesTo g document v .noSchema ↔
    ∃ u, LeadsInto g document v u ∧ g.isObject u = false := by
  constructor
  · rintro (⟨leads, ⟨⟩ | ⟨⟩ | other⟩)
    exact ⟨_, leads, other⟩
  · rintro ⟨u, leads, other⟩
    exact .stops leads (.noSchema other)

theorem comesTo_endless : ComesTo g document v .endless ↔
    ∀ u, LeadsInto g document v u → ∃ t, Follows g document u t := by
  constructor
  · rintro (⟨-, ⟨⟩⟩ | on)
    exact on
  · exact .endless

/-! ### Going round -/

/-- A chain that comes back to a value leads on from all that it comes to. -/
theorem exists_follows_of_loop (follows : Follows g document v t)
    (back : LeadsInto g document t v) (leads : LeadsInto g document v u) :
    ∃ w, Follows g document u w := by
  have on_loop : LeadsInto g document u v := by
    induction leads with
    | refl => exact .refl
    | @tail u w _ step ih =>
        obtain rfl | ⟨w', step', rest⟩ := ReflTransGen.cases_head ih
        · exact Follows.unique follows step ▸ back
        · exact Follows.unique step' step ▸ rest
  obtain rfl | ⟨w, step, -⟩ := on_loop.cases_head
  · exact ⟨t, follows⟩
  · exact ⟨w, step⟩

/-- Each reference of the chain from `v` that is not fresh was taken on the way: it resolves to a
value that the chain came from. -/
def Resumes (g : Anchors) (document v : Value) (fresh : List String) : Prop :=
  ∀ u ref, LeadsInto g document v u → reference? g u = some ref → ref ∉ fresh →
    ∃ t, (resolve g ref document).result = .ok (some t) ∧ LeadsInto g document t v

theorem Resumes.taking (resumes : Resumes g document v fresh) (refers : reference? g v = some ref)
    (resolves : (resolve g ref document).result = .ok (some t)) :
    Resumes g document t (taking ref fresh) := by
  have follows : Follows g document v t := ⟨ref, refers, resolves⟩
  intro u other leads refers' taken
  by_cases same : other = ref
  · subst same
    exact ⟨t, resolves, .refl⟩
  · have not_fresh : other ∉ fresh := fun mem => taken (mem_taking.2 ⟨mem, same⟩)
    obtain ⟨t', resolves', back⟩ := resumes u other (.head follows leads) refers' not_fresh
    exact ⟨t', resolves', back.tail follows⟩

/-- In the beginning every reference of the chain is fresh. -/
theorem resumes_start :
    Resumes g document v ((reference? g v).toList ++ g.references document) := by
  intro u ref leads refers taken
  refine absurd ?_ taken
  obtain rfl | ⟨t, follows, rest⟩ := leads.cases_head
  · rw [refers]
    exact List.mem_append_left _ (by simp)
  · obtain ⟨_, -, resolves⟩ := follows
    have within : Within g [document] u :=
      .of_leadsInto (by simp) ⟨document, by simp, inside_of_resolve resolves⟩ rest
    obtain ⟨root, mem, inside⟩ := within
    cases List.mem_singleton.1 mem
    exact List.mem_append_right _ (Holds.mem_references ⟨u, inside, reference?_eq_some.1 refers⟩)

/-! ### Following -/

/-- Resolving a reference reports no loop. -/
theorem chainLoops_not_mem_notices_resolve {looping : String} :
    .chainLoops looping ∉ (resolve g ref document).notices := by
  unfold resolve
  rw [Traced.notices_bind, List.mem_append, not_or]
  constructor
  · unfold locate
    split
    · simp
    · simp [Traced.notices_map]
    · simp [Traced.notices_map]
    · rw [Traced.notices_bind, List.mem_append, not_or]
      refine ⟨by simp, ?_⟩
      split
      · split
        · simp
        · split
          · simp
          · simp [Traced.notices_map]
      · simp
  · split
    · simp
    · simp

/-- The run: below fresh references a chain is followed to its end. -/
theorem exists_comesTo_of_resumes (answers : AnswersChain g document v)
    (resumes : Resumes g document v fresh) :
    ∃ e, ComesTo g document v e ∧ (followFresh g document fresh v).result = .ok e.schema?
      ∧ ((∃ ref, .chainLoops ref ∈ (followFresh g document fresh v).notices) ↔ e = .endless) := by
  induction left : fresh.length using Nat.strongRecOn generalizing fresh v with
  | _ left fewer =>
      subst left
      rw [followFresh]
      cases refers : reference? g v with
      | none =>
          dsimp only
          cases object : g.isObject v with
          | true => exact ⟨.schema v, .stops .refl (.schema object refers), rfl, by simp⟩
          | false => exact ⟨.noSchema, .stops .refl (.noSchema object), rfl, by simp⟩
      | some ref =>
          dsimp only
          split
          · next new =>
              obtain ⟨found, resolves⟩ := answers v ref .refl refers
              cases found with
              | none =>
                  refine ⟨.broken, .stops .refl (.broken refers resolves), ?_, ?_⟩
                  · exact Traced.result_bind_eq_ok.2 ⟨none, resolves, rfl⟩
                  · simp [Traced.notices_bind, Traced.notices_map, resolves,
                      chainLoops_not_mem_notices_resolve]
              | some t =>
                  have follows : Follows g document v t := ⟨ref, refers, resolves⟩
                  obtain ⟨e, comes, followed, loops⟩ := fewer _ (length_taking_lt new)
                    (fun u ref leads => answers u ref (.head follows leads))
                    (resumes.taking refers resolves) rfl
                  refine ⟨e, comes.head follows, ?_, ?_⟩
                  · exact Traced.result_bind_eq_ok.2 ⟨some t, resolves, followed⟩
                  · simpa [Traced.notices_bind, resolves, chainLoops_not_mem_notices_resolve]
                      using loops
          · next again =>
              -- The chain came to this reference before, from what it resolves to.
              obtain ⟨t, resolves, back⟩ := resumes v ref .refl refers again
              have endless : ComesTo g document v .endless :=
                .endless fun u => exists_follows_of_loop ⟨ref, refers, resolves⟩ back
              exact ⟨.endless, endless, rfl, by simp [Traced.notices_map]⟩

/-- Following a chain finds its end. -/
theorem exists_comesTo (answers : AnswersChain g document v) :
    ∃ e, ComesTo g document v e ∧ (followReference g v document).result = .ok e.schema?
      ∧ ((∃ ref, .chainLoops ref ∈ (followReference g v document).notices) ↔ e = .endless) :=
  exists_comesTo_of_resumes answers resumes_start

/-- **Following a chain of references** ends.  It gives `m` exactly when the chain leads to `m`,
which is an object and no reference.  It gives nothing exactly when the chain leads to a reference
that does not resolve or to data that is no object, or has no end; and it reports a loop exactly
when the chain has no end. -/
theorem followReference_finds_end (answers : AnswersChain g document v) :
    ∃ found, (followReference g v document).result = .ok found
      ∧ (∀ m, found = some m ↔
          LeadsInto g document v m ∧ g.isObject m = true ∧ reference? g m = none)
      ∧ (found = none ↔
          (∃ u ref, LeadsInto g document v u ∧ reference? g u = some ref
            ∧ (resolve g ref document).result = .ok none)
          ∨ (∃ u, LeadsInto g document v u ∧ g.isObject u = false)
          ∨ ∀ u, LeadsInto g document v u → ∃ t, Follows g document u t)
      ∧ ((∃ ref, .chainLoops ref ∈ (followReference g v document).notices) ↔
          ∀ u, LeadsInto g document v u → ∃ t, Follows g document u t) := by
  obtain ⟨e, comes, followed, loops⟩ := exists_comesTo answers
  have ends {e' : ChainEnd} : ComesTo g document v e' ↔ e = e' :=
    ⟨comes.unique, fun same => same ▸ comes⟩
  refine ⟨e.schema?, followed, fun m => ?_, ?_, ?_⟩
  · rw [← comesTo_schema, ends]
    cases e <;> simp [ChainEnd.schema?]
  · rw [← comesTo_broken, ← comesTo_noSchema, ← comesTo_endless, ends, ends, ends]
    cases e <;> simp [ChainEnd.schema?]
  · rw [loops, ← comesTo_endless, ends]

/-- A word that refers to a word, and a word that refers to itself. -/
def synonyms : Value := .object
  [(.string "Car", referenceTo "#/Automobile"),
   (.string "Automobile", .object [(.string "type", .string "object")]),
   (.string "Recursion", referenceTo "#/Recursion")]

theorem answersReferences_synonyms :
    AnswersReferences {} [referenceTo "#/Car", synonyms] synonyms :=
  answersReferences_of_forall (by decide) (by decide +kernel)

/-- The premise holds of a chain of two references, in a document with another one that loops. -/
theorem followReference_finds_end_synonyms :
    AnswersChain {} synonyms (referenceTo "#/Car")
      ∧ ∃ found, (followReference {} (referenceTo "#/Car") synonyms).result = .ok found
        ∧ (∀ m, found = some m ↔ LeadsInto {} synonyms (referenceTo "#/Car") m
            ∧ Anchors.isObject {} m = true ∧ reference? {} m = none)
        ∧ (found = none ↔
            (∃ u ref, LeadsInto {} synonyms (referenceTo "#/Car") u
              ∧ reference? {} u = some ref ∧ (resolve {} ref synonyms).result = .ok none)
            ∨ (∃ u, LeadsInto {} synonyms (referenceTo "#/Car") u ∧ Anchors.isObject {} u = false)
            ∨ ∀ u, LeadsInto {} synonyms (referenceTo "#/Car") u → ∃ t, Follows {} synonyms u t)
        ∧ ((∃ ref, .chainLoops ref
              ∈ (followReference {} (referenceTo "#/Car") synonyms).notices) ↔
            ∀ u, LeadsInto {} synonyms (referenceTo "#/Car") u → ∃ t, Follows {} synonyms u t) :=
  have answers := answersChain_of_answersReferences answersReferences_synonyms
  ⟨answers, followReference_finds_end answers⟩

end SchemaCodegen
