import SchemaCodegen.Proofs.Compose.Merged
import SchemaCodegen.Proofs.Reference.Inlined
import SchemaCodegen.Proofs.Schema.Classify

/-!
# What collapsing gathers

A schema with `allOf` is merged from itself and from everything that can be reached from it by going
on to members: to a member that is no reference, and to what the reference of any other leads to
(`Joins`).  Collapsing loses nothing of these schemas and makes nothing: the result has a property,
or a required name, exactly when one of them has it (`mergeAllOf_unites`).

References among the members may go round in circles, and one that is taken already on the way is
left out.  Nothing is lost by that: a way that takes a reference again comes back to where the
reference led the first time, so it can be cut there (`joinsFresh_taking`).

A schema may share parts with itself and with the dictionary, but no container is inside itself
(`Acyclic`); otherwise there would be no end to it.
-/

namespace SchemaCodegen

open Relation Traced

variable {g : Anchors} {d : Option Entries} {roots : List Value} {schema u v m t : Value}
  {es own : Entries} {ref : String} {fresh : List String} {active : List Nat} {Q : Entries → Prop}

/-! ### Containers that are not inside themselves -/

/-- No container within the roots is inside itself. -/
def Acyclic (g : Anchors) (roots : List Value) : Prop :=
  ∀ u, Within g roots u → ¬ TransGen (PartOf g) u u

/-- The objects within the roots have no key twice. -/
def KeyedOnce (g : Anchors) (roots : List Value) : Prop :=
  ∀ u, Within g roots u → ∀ es ∈ g.entries? u, (Entries.keys es).Nodup

/-- In trees no container is inside itself. -/
theorem acyclic_of_trees (trees : ∀ root ∈ roots, root.isTree = true) : Acyclic g roots := by
  intro u within
  refine not_transGen_self (P := fun n v => v.isTree = true ∧ v.weight = n) ?_
    ⟨within.isTree trees, rfl⟩
  rintro n v w ⟨tree, rfl⟩ part
  exact ⟨w.weight, part.weight_lt tree, part.isTree tree, rfl⟩

/-- A container can be entered where the active ones are around it. -/
theorem exists_entered (acyclic : Acyclic g roots) (within : Within g roots v)
    (entries : g.entries? v = some es)
    (around : ∀ n ∈ active, TransGen (PartOf g) (.aliasTo n) v) :
    ∃ inner, g.enter? active v = some inner
      ∧ ∀ n ∈ inner, ReflTransGen (PartOf g) (.aliasTo n) v := by
  have new : ∀ n ∈ active, v ≠ .aliasTo n := by
    rintro n mem rfl
    exact acyclic _ within (around n mem)
  obtain ⟨inner, enters⟩ := exists_enter?_of_new entries new
  refine ⟨inner, enters, fun n mem => ?_⟩
  obtain mem | rfl := (mem_of_enter? enters).1 mem
  · exact (around n mem).to_reflTransGen
  · exact .refl

/-! ### Going on to members -/

/-- `IsMember g v m`: the value `m` is a member of `allOf` in the schema `v`. -/
def IsMember (g : Anchors) (v m : Value) : Prop :=
  ∃ es members, g.entries? v = some es ∧ g.listAt? es "allOf" = some members ∧ m ∈ members

/-- `StandsFor g d m t`: a member `m` stands for the schema `t`, which is the member itself or what
its reference leads to. -/
inductive StandsFor (g : Anchors) (d : Option Entries) (m : Value) : Value → Prop
  | inline (plain : reference? g m = none) (object : g.isObject m = true) : StandsFor g d m m
  | target {ref : String} {t : Value} (refers : reference? g m = some ref)
      (leads : (followInto g d m).result = .ok (some t)) : StandsFor g d m t

/-- `Joins g d v t`: the schema `t` is merged into the schema `v` for one of its members. -/
def Joins (g : Anchors) (d : Option Entries) (v t : Value) : Prop :=
  ∃ m, IsMember g v m ∧ StandsFor g d m t

/-- As `Joins`, for members that are no reference or one of the fresh references. -/
def JoinsFresh (g : Anchors) (d : Option Entries) (fresh : List String) (v t : Value) : Prop :=
  ∃ m, IsMember g v m ∧ StandsFor g d m t ∧ ∀ ref, reference? g m = some ref → ref ∈ fresh

/-- Following the references of the members that are merged into a schema does not fail. -/
def AnswersMembers (g : Anchors) (d : Option Entries) (schema : Value) : Prop :=
  ∀ v m, ReflTransGen (Joins g d) schema v → IsMember g v m → (reference? g m).isSome = true →
    ∃ found, (followInto g d m).result = .ok found

theorem JoinsFresh.joins (joins : JoinsFresh g d fresh v t) : Joins g d v t := by
  obtain ⟨m, member, stands, -⟩ := joins
  exact ⟨m, member, stands⟩

/-- A member is inside the schema. -/
theorem IsMember.inside (member : IsMember g v m) : TransGen (PartOf g) v m := by
  obtain ⟨es, members, entries, at_key, mem⟩ := member
  obtain ⟨list, found, items⟩ := Option.bind_eq_some_iff.1 at_key
  have list_part : PartOf g v list := .inr ⟨es, _, entries, Entries.mem_of_get? found⟩
  exact .tail (.single list_part) (.inl ⟨members, items, mem⟩)

/-- What is merged into a schema within the roots is within the roots, and an object. -/
theorem StandsFor.within (stands : StandsFor g d m t) (within : Within g (rootsOf schema d) m) :
    Within g (rootsOf schema d) t ∧ g.isObject t = true := by
  cases stands with
  | inline plain object => exact ⟨within, object⟩
  | target refers leads =>
      obtain ⟨inside, object, -⟩ := of_followInto refers leads
      exact ⟨inside, object⟩

theorem within_of_joins (way : ReflTransGen (Joins g d) schema v) :
    Within g (rootsOf schema d) v := by
  induction way with
  | refl => exact .of_mem List.mem_cons_self
  | tail _ joins ih =>
      obtain ⟨m, member, stands⟩ := joins
      exact (stands.within (ih.inside member.inside.to_reflTransGen)).1

/-- Where a reference leads does not depend on the object that has it. -/
theorem followInto_congr {m' : Value} (refers : reference? g m = some ref)
    (refers' : reference? g m' = some ref) : followInto g d m = followInto g d m' := by
  cases d with
  | none => rfl
  | some es =>
      show followReference g m _ = followReference g m' _
      unfold followReference
      rw [refers, refers', followFresh, followFresh, refers, refers']

/-- A way that starts behind a reference need not take it again. -/
theorem joinsFresh_taking (refers : reference? g m = some ref)
    (leads : (followInto g d m).result = .ok (some t))
    (way : ReflTransGen (JoinsFresh g d fresh) t u) :
    ReflTransGen (JoinsFresh g d (taking ref fresh)) t u := by
  induction way with
  | refl => exact .refl
  | @tail v w _ joins ih =>
      obtain ⟨m', member, stands, allowed⟩ := joins
      by_cases again : reference? g m' = some ref
      · -- The reference leads to where the way starts.
        have same : w = t := by
          cases stands with
          | inline plain => cases plain.symm.trans again
          | target refers' leads' =>
              rw [followInto_congr again refers, leads] at leads'
              exact (Option.some.inj (Except.ok.inj leads')).symm
        rw [same]
      · refine ih.tail ⟨m', member, stands, fun other refers' => ?_⟩
        refine mem_taking.2 ⟨allowed other refers', ?_⟩
        rintro rfl
        exact again refers'

theorem joinsFresh_of_taking (way : ReflTransGen (JoinsFresh g d (taking ref fresh)) t u) :
    ReflTransGen (JoinsFresh g d fresh) t u := by
  refine ReflTransGen.mono ?_ _ _ way
  rintro v w ⟨m', member, stands, allowed⟩
  exact ⟨m', member, stands, fun other refers' => (mem_taking.1 (allowed other refers')).1⟩

/-! ### Collapsing -/

/-- Something is said by a schema that can be reached from `v` by taking fresh references. -/
def SaidBelow (g : Anchors) (d : Option Entries) (fresh : List String) (Q : Entries → Prop)
    (v : Value) : Prop :=
  ∃ u es, ReflTransGen (JoinsFresh g d fresh) v u ∧ g.entries? u = some es ∧ Q es

/-- `GathersAll g d fresh v es`: the collapsed schema `es` says what is said below `v`. -/
structure GathersAll (g : Anchors) (d : Option Entries) (fresh : List String) (v : Value)
    (es : Entries) : Prop where
  once : (Entries.keys es).Nodup
  noMembers : NoMembers g es
  covers : ∀ Q, Unites g Q → (Q es ↔ SaidBelow g d fresh Q v)

/-- What is said below a schema is said by it or below what is merged into it. -/
theorem saidBelow_iff (entries : g.entries? v = some own) :
    SaidBelow g d fresh Q v ↔ Q own ∨ ∃ t, JoinsFresh g d fresh v t ∧ SaidBelow g d fresh Q t := by
  constructor
  · rintro ⟨u, es, way, at_u, told⟩
    obtain rfl | ⟨t, joins, rest⟩ := way.cases_head
    · cases entries.symm.trans at_u
      exact .inl told
    · exact .inr ⟨t, joins, u, es, rest, at_u, told⟩
  · rintro (told | ⟨t, joins, u, es, rest, at_u, told⟩)
    · exact ⟨v, own, .refl, entries, told⟩
    · exact ⟨u, es, .head joins rest, at_u, told⟩

/-- Behind a reference nothing is lost by not taking it again. -/
theorem saidBelow_taking (refers : reference? g m = some ref)
    (leads : (followInto g d m).result = .ok (some t)) :
    SaidBelow g d (taking ref fresh) Q t ↔ SaidBelow g d fresh Q t := by
  constructor
  · rintro ⟨u, es, way, said⟩
    exact ⟨u, es, joinsFresh_of_taking way, said⟩
  · rintro ⟨u, es, way, said⟩
    exact ⟨u, es, joinsFresh_taking refers leads way, said⟩

/-- `PartFor g d fresh m part`: what is merged for a member `m`, if anything, says what is said
below the schema that the member stands for. -/
structure PartFor (g : Anchors) (d : Option Entries) (fresh : List String) (m : Value)
    (part : Option Entries) : Prop where
  once : ∀ fs ∈ part, (Entries.keys fs).Nodup
  noMembers : ∀ fs ∈ part, NoMembers g fs
  covers : ∀ Q, Unites g Q → ((∃ fs ∈ part, Q fs)
    ↔ ∃ t, StandsFor g d m t ∧ (∀ ref, reference? g m = some ref → ref ∈ fresh)
      ∧ SaidBelow g d fresh Q t)

/-- For a member that stands for nothing, nothing is merged. -/
theorem partFor_none (nothing : ∀ t, StandsFor g d m t →
    ¬ ∀ ref, reference? g m = some ref → ref ∈ fresh) : PartFor g d fresh m none where
  once := by simp
  noMembers := by simp
  covers := by
    intro Q _
    constructor
    · rintro ⟨_, mem, -⟩
      cases mem
    · rintro ⟨t, stands, allowed, -⟩
      exact absurd allowed (nothing t stands)

/-- A member that is no reference stands for itself. -/
theorem GathersAll.partFor_inline (plain : reference? g m = none) (object : g.isObject m = true)
    (gathers : GathersAll g d fresh m es) : PartFor g d fresh m (some es) where
  once := by simpa using gathers.once
  noMembers := by simpa using gathers.noMembers
  covers := by
    intro Q unites
    simp only [Option.mem_def, Option.some.injEq, exists_eq_left', gathers.covers Q unites]
    constructor
    · intro said
      exact ⟨m, .inline plain object, fun _ refers => (nomatch plain.symm.trans refers), said⟩
    · rintro ⟨t, stands, -, said⟩
      cases stands with
      | inline => exact said
      | target refers => cases plain.symm.trans refers

/-- A reference stands for its target, below which it is not taken again. -/
theorem GathersAll.partFor_target (refers : reference? g m = some ref) (new : ref ∈ fresh)
    (leads : (followInto g d m).result = .ok (some v))
    (gathers : GathersAll g d (taking ref fresh) v es) : PartFor g d fresh m (some es) where
  once := by simpa using gathers.once
  noMembers := by simpa using gathers.noMembers
  covers := by
    intro Q unites
    simp only [Option.mem_def, Option.some.injEq, exists_eq_left', gathers.covers Q unites,
      saidBelow_taking refers leads]
    constructor
    · intro said
      refine ⟨v, .target refers leads, fun other refers' => ?_, said⟩
      cases refers.symm.trans refers'
      exact new
    · rintro ⟨t, stands, -, said⟩
      cases stands with
      | inline plain => cases plain.symm.trans refers
      | target _ leads' =>
          cases leads.symm.trans leads'
          exact said

/-- What is merged for a member comes from the schema it stands for. -/
theorem exists_partFor {inner : List Nat}
    (answers : (reference? g m).isSome = true → ∃ found, (followInto g d m).result = .ok found)
    (inline : reference? g m = none → g.isObject m = true →
      ∃ es, (collapse g d fresh inner m).result = .ok es ∧ GathersAll g d fresh m es)
    (target : ∀ ref t, reference? g m = some ref → ref ∈ fresh →
      (followInto g d m).result = .ok (some t) →
      ∃ es, (collapse g d (taking ref fresh) [] t).result = .ok es
        ∧ GathersAll g d (taking ref fresh) t es) :
    ∃ part, (memberPart g d fresh inner m).result = .ok part ∧ PartFor g d fresh m part := by
  unfold memberPart
  cases refers : reference? g m with
  | none =>
      dsimp only
      by_cases object : g.isObject m = true
      · obtain ⟨es, collapsed, gathers⟩ := inline refers object
        rw [if_pos object]
        exact ⟨some es, Traced.result_bind_eq_ok.2 ⟨es, collapsed, rfl⟩,
          gathers.partFor_inline refers object⟩
      · rw [if_neg object]
        refine ⟨none, rfl, partFor_none fun t stands => ?_⟩
        cases stands with
        | inline _ is_object => exact absurd is_object object
        | target refers' => cases refers.symm.trans refers'
  | some ref =>
      dsimp only
      by_cases new : ref ∈ fresh
      · rw [if_pos new]
        obtain ⟨found, followed⟩ := answers (by rw [refers]; rfl)
        cases found with
        | none =>
            refine ⟨none, Traced.result_bind_eq_ok.2 ⟨none, followed, rfl⟩, ?_⟩
            refine partFor_none fun t stands => ?_
            cases stands with
            | inline plain => cases plain.symm.trans refers
            | target _ leads => cases leads.symm.trans followed
        | some t =>
            obtain ⟨es, collapsed, gathers⟩ := target ref t refers new followed
            exact ⟨some es, Traced.result_bind_eq_ok.2 ⟨some t, followed,
              Traced.result_bind_eq_ok.2 ⟨es, collapsed, rfl⟩⟩,
              gathers.partFor_target refers new followed⟩
      · rw [if_neg new]
        refine ⟨none, rfl, partFor_none fun t _ allowed => new (allowed ref refers)⟩

/-- The schema that is joined from parts for all members says what is said below it. -/
theorem gathersAll_join {members : List Value} {parts : List (Option Entries)}
    (entries : g.entries? v = some own) (at_key : g.listAt? own "allOf" = some members)
    (once : (Entries.keys own).Nodup)
    (aligned : List.Forall₂ (fun m part => PartFor g d fresh m part) members parts) :
    GathersAll g d fresh v
      (joinOwn g ((parts.filterMap id).foldl (mergeSchemas g) []) own) := by
  have from_member (fs : Entries) (mem : fs ∈ parts.filterMap id) :
      ∃ m ∈ members, ∃ part, fs ∈ part ∧ PartFor g d fresh m part := by
    obtain ⟨part, at_part, same⟩ := List.mem_filterMap.1 mem
    obtain ⟨m, at_m, part_for⟩ := exists_of_mem_left aligned.flip at_part
    exact ⟨m, at_m, part, same, part_for⟩
  have parts_once : ∀ fs ∈ parts.filterMap id, (Entries.keys fs).Nodup := by
    intro fs mem
    obtain ⟨m, -, part, at_part, part_for⟩ := from_member fs mem
    exact part_for.once fs at_part
  refine ⟨nodup_keys_joinOwn (nodup_keys_foldl List.nodup_nil), ?_, fun Q unites => ?_⟩
  · refine noMembers_joinOwn (noMembers_foldl rfl fun fs mem => ?_)
    obtain ⟨m, -, part, at_part, part_for⟩ := from_member fs mem
    exact part_for.noMembers fs at_part
  · rw [unites.joinOwn once, unites.foldl parts_once, saidBelow_iff entries, or_comm]
    refine or_congr_right ?_
    constructor
    · rintro (told | ⟨fs, mem, told⟩)
      · exact absurd told unites.nil
      · obtain ⟨m, at_m, part, at_part, part_for⟩ := from_member fs mem
        obtain ⟨t, stands, allowed, said⟩ := (part_for.covers Q unites).1 ⟨fs, at_part, told⟩
        exact ⟨t, ⟨m, ⟨own, members, entries, at_key, at_m⟩, stands, allowed⟩, said⟩
    · rintro ⟨t, ⟨m, ⟨es, ms, entries', at_key', at_m⟩, stands, allowed⟩, said⟩
      cases entries.symm.trans entries'
      cases at_key.symm.trans at_key'
      obtain ⟨part, at_part, part_for⟩ := exists_of_mem_left aligned at_m
      obtain ⟨fs, mem, told⟩ := (part_for.covers Q unites).2 ⟨t, stands, allowed, said⟩
      exact .inr ⟨fs, List.mem_filterMap.2 ⟨part, at_part, mem⟩, told⟩

section Collapse

variable (acyclic : Acyclic g (rootsOf schema d)) (keyed : KeyedOnce g (rootsOf schema d))
  (answers : AnswersMembers g d schema)

include acyclic keyed answers

/-- Collapsing ends and gathers what is said below the schema. -/
theorem exists_gathersAll (way : ReflTransGen (Joins g d) schema v) (object : g.isObject v = true)
    (around : ∀ n ∈ active, TransGen (PartOf g) (.aliasTo n) v) :
    ∃ es, (collapse g d fresh active v).result = .ok es ∧ GathersAll g d fresh v es := by
  -- As in the recursion itself: fewer references are left to take, fewer containers to enter, or
  -- the schema gets lighter.
  induction left : fresh.length using Nat.strongRecOn generalizing fresh active v with
  | _ left taking_one =>
      subst left
      induction unseen : g.unseen active using Nat.strongRecOn generalizing active v with
      | _ count entering =>
          induction weight : v.weight using Nat.strongRecOn generalizing active v with
          | _ weight lighter =>
              subst weight
              have within := within_of_joins way
              obtain ⟨own, entries⟩ := Option.isSome_iff_exists.1 object
              cases at_key : g.listAt? own "allOf" with
              | none =>
                  rw [collapse_of_noMembers entries at_key]
                  refine ⟨own, rfl, keyed v within own entries, at_key, fun Q _ => ?_⟩
                  rw [saidBelow_iff entries]
                  refine (or_iff_left ?_).symm
                  rintro ⟨_, ⟨_, ⟨es, ms, entries', at_key', -⟩, -⟩, -⟩
                  cases entries.symm.trans entries'
                  cases at_key.symm.trans at_key'
              | some members =>
                  obtain ⟨inner, entered, inner_around⟩ :=
                    exists_entered acyclic within entries around
                  have part : ∀ m ∈ members, ∃ part,
                      (memberPart g d fresh inner m).result = .ok part
                        ∧ PartFor g d fresh m part := by
                    intro m mem
                    have member : IsMember g v m := ⟨own, members, entries, at_key, mem⟩
                    refine exists_partFor (answers v m way member) (fun plain is_object => ?_)
                      fun ref t refers new leads => ?_
                    · have way := way.tail ⟨m, member, .inline plain is_object⟩
                      have around (n : Nat) (at_n : n ∈ inner) :
                          TransGen (PartOf g) (.aliasTo n) m :=
                        .trans_right (inner_around n at_n) member.inside
                      have light (plain : ∀ n, v ≠ .aliasTo n) : m.weight < v.weight :=
                        Nat.lt_of_le_of_lt (Anchors.weight_le_of_listAt? at_key mem)
                          (Anchors.entryWeights_lt_of_entries? entries plain)
                      have descends := Anchors.lex_of_enter? entered light
                      obtain fewer | ⟨same, light⟩ := Prod.lex_iff.1 descends
                      · exact entering _ (unseen ▸ fewer) way is_object around rfl
                      · exact lighter _ light way is_object around (same.trans unseen) rfl
                    · have way := way.tail ⟨m, member, .target refers leads⟩
                      have is_object := (@of_followInto _ _ _ schema _ _ refers leads).2.1
                      exact taking_one _ (length_taking_lt new) way is_object nofun rfl
                  obtain ⟨parts, aligned⟩ := exists_forall₂ part
                  rw [collapse_of_listAt? entries at_key entered]
                  refine ⟨_, Traced.result_bind_eq_ok.2 ⟨parts, Traced.result_mapM_eq_ok.2
                    (aligned.imp fun _ _ both => both.1), rfl⟩, ?_⟩
                  exact gathersAll_join entries at_key (keyed v within own entries)
                    (aligned.imp fun _ _ both => both.2)

end Collapse

/-! ### All references -/

/-- Every reference within the roots is among those that are fresh in the beginning. -/
theorem mem_references_of_within (within : Within g (rootsOf schema d) m)
    (refers : reference? g m = some ref) :
    ref ∈ g.references schema ++ (d.map fun es => g.references (.object es)).getD [] := by
  obtain ⟨root, mem, inside⟩ := within
  have found : ref ∈ g.references root :=
    Holds.mem_references ⟨m, inside, reference?_eq_some.1 refers⟩
  obtain rfl | in_dictionary := List.mem_cons.1 mem
  · exact List.mem_append_left _ found
  · refine List.mem_append_right _ ?_
    cases d with
    | none => cases in_dictionary
    | some es =>
        cases List.mem_singleton.1 in_dictionary
        exact found

/-- In the beginning all members may be gone on to. -/
theorem joinsFresh_references_iff : ReflTransGen (JoinsFresh g d
      (g.references schema ++ (d.map fun es => g.references (.object es)).getD [])) schema u
    ↔ ReflTransGen (Joins g d) schema u := by
  constructor
  · exact fun way => ReflTransGen.mono (fun _ _ joins => joins.joins) _ _ way
  · intro way
    induction way with
    | refl => exact .refl
    | tail before joins ih =>
        obtain ⟨m, member, stands⟩ := joins
        have within := (within_of_joins before).inside member.inside.to_reflTransGen
        exact ih.tail ⟨m, member, stands, fun ref refers => mem_references_of_within within refers⟩

/-- **What collapsing gathers.**  A schema in which no container is inside itself is collapsed,
however the references of its members go round in circles.  The result has no list of members any
more, so collapsing it again changes nothing; and it has the properties, and requires the names, of
the schema itself and of all schemas that are merged into it. -/
theorem mergeAllOf_unites (object : g.isObject schema = true)
    (acyclic : Acyclic g (rootsOf schema d)) (keyed : KeyedOnce g (rootsOf schema d))
    (answers : AnswersMembers g d schema) :
    ∃ es, (mergeAllOf g schema d).result = .ok es
      ∧ g.listAt? es "allOf" = none
      ∧ mergeAllOf g (.object es) d = pure es
      ∧ (∀ k, Entries.hasKey (propertiesIn g es) k = true
          ↔ ∃ u fs, ReflTransGen (Joins g d) schema u ∧ g.entries? u = some fs
            ∧ Entries.hasKey (propertiesIn g fs) k = true)
      ∧ ∀ name, name ∈ requiredNames g es
          ↔ ∃ u fs, ReflTransGen (Joins g d) schema u ∧ g.entries? u = some fs
            ∧ name ∈ requiredNames g fs := by
  have around : ∀ n ∈ ([] : List Nat), TransGen (PartOf g) (.aliasTo n) schema := nofun
  obtain ⟨es, collapsed, gathers⟩ := exists_gathersAll acyclic keyed answers .refl object around
  refine ⟨es, collapsed, gathers.noMembers, collapse_of_noMembers rfl gathers.noMembers, ?_, ?_⟩
  · intro k
    rw [gathers.covers _ (unites_hasProperty k)]
    simp only [SaidBelow, joinsFresh_references_iff]
  · intro name
    rw [gathers.covers _ (unites_requires name)]
    simp only [SaidBelow, joinsFresh_references_iff]

/-! ### References that answer -/

/-- A chain of references ends where each of them resolves or is known not to. -/
theorem exists_followFresh {document : Value} (document_mem : document ∈ roots)
    (answers : AnswersReferences g roots document) (within : Within g roots v) :
    ∃ found, (followFresh g document fresh v).result = .ok found := by
  induction left : fresh.length using Nat.strongRecOn generalizing fresh v with
  | _ left fewer =>
      subst left
      rw [followFresh]
      cases refers : reference? g v with
      | none => exact ⟨_, rfl⟩
      | some ref =>
          dsimp only
          split
          · next new =>
              obtain ⟨found, resolved⟩ := answers ref ⟨v, within, reference?_eq_some.1 refers⟩
              cases found with
              | none => exact ⟨none, Traced.result_bind_eq_ok.2 ⟨none, resolved, rfl⟩⟩
              | some t =>
                  have inside : Within g roots t :=
                    ⟨document, document_mem, inside_of_resolve resolved⟩
                  obtain ⟨end_point, followed⟩ := fewer _ (length_taking_lt new) inside rfl
                  exact ⟨end_point, Traced.result_bind_eq_ok.2 ⟨some t, resolved, followed⟩⟩
          · exact ⟨none, rfl⟩

/-- Where resolving does not fail, following the references of members does not either. -/
theorem answersMembers_of_answers
    (answers : ∀ es ∈ d, AnswersReferences g (rootsOf schema d) (.object es)) :
    AnswersMembers g d schema := by
  intro v m way member _
  have within := (within_of_joins way).inside member.inside.to_reflTransGen
  cases d with
  | none => exact ⟨none, rfl⟩
  | some es =>
      have document_mem : Value.object es ∈ rootsOf schema (some es) := by simp [rootsOf]
      exact exists_followFresh document_mem (answers es rfl) within

/-! ### Schemas that extend each other -/

/-- An animal, which is a pet and has an age. -/
def animalSchema : Value :=
  .object [(.string "allOf", .list [referenceTo "#/components/schemas/Pet"]),
    (.string "required", .list [.string "age"]),
    (.string "properties",
      .object [(.string "age", .object [(.string "type", .string "integer")])])]

/-- A pet, which is an animal and has a name. -/
def petSchema : Value :=
  .object [(.string "allOf", .list [referenceTo "#/components/schemas/Animal",
    .object [(.string "properties",
      .object [(.string "name", .object [(.string "type", .string "string")])])]])]

/-- Animals and pets extend each other. -/
def zoo : Entries := [(.string "Animal", animalSchema), (.string "Pet", petSchema)]

theorem trees_zoo : ∀ root ∈ rootsOf petSchema (some zoo), root.isTree = true := by decide +kernel

theorem keyedOnce_zoo : KeyedOnce {} (rootsOf petSchema (some zoo)) :=
  forall_within trees_zoo (by decide +kernel)

theorem answersMembers_zoo : AnswersMembers {} (some zoo) petSchema := by
  refine answersMembers_of_answers ?_
  rintro es ⟨⟩
  exact answersReferences_of_forall trees_zoo (by decide +kernel)

/-- The premises hold of pets. -/
theorem mergeAllOf_unites_zoo :
    Anchors.isObject {} petSchema = true ∧ Acyclic {} (rootsOf petSchema (some zoo))
      ∧ KeyedOnce {} (rootsOf petSchema (some zoo)) ∧ AnswersMembers {} (some zoo) petSchema
      ∧ ∃ es, (mergeAllOf {} petSchema (some zoo)).result = .ok es
        ∧ Anchors.listAt? {} es "allOf" = none
        ∧ mergeAllOf {} (.object es) (some zoo) = pure es
        ∧ (∀ k, Entries.hasKey (propertiesIn {} es) k = true
            ↔ ∃ u fs, ReflTransGen (Joins {} (some zoo)) petSchema u
              ∧ Anchors.entries? {} u = some fs ∧ Entries.hasKey (propertiesIn {} fs) k = true)
        ∧ ∀ name, name ∈ requiredNames {} es
            ↔ ∃ u fs, ReflTransGen (Joins {} (some zoo)) petSchema u
              ∧ Anchors.entries? {} u = some fs ∧ name ∈ requiredNames {} fs :=
  ⟨rfl, acyclic_of_trees trees_zoo, keyedOnce_zoo, answersMembers_zoo,
    mergeAllOf_unites rfl (acyclic_of_trees trees_zoo) keyedOnce_zoo answersMembers_zoo⟩

end SchemaCodegen
