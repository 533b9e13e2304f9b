import SchemaCodegen.Compose.AllOf
import SchemaCodegen.Proofs.Data.Entries
import SchemaCodegen.Proofs.Reference.Targets
import SchemaCodegen.Proofs.Schema.Classify

/-!
# What a collapsed schema is made of

A schema with `allOf` is collapsed into one whose entries come from its members and from what
their references lead to.  Three entries may be new: the required names, a type, and the
properties, which are a new object of old values (`Composed`).  Everything else is a value of
one of the schemas that were merged.

Collapsing ends on trees, and its result has no list under `allOf` any more
(`Gathers.endsIn_collapse`).

### What is load-bearing

Where the schemas come from is left open: `Gathers g d S P` says that the schemas which
collapsing visits have a property, and their values another one.  The statement is used for
everything within a schema and its dictionary (`gathers_within`) and, without references among
the members, for what is inside a schema alone (`gathers_lighter`).
-/

namespace SchemaCodegen

open Relation Traced

variable {g : Anchors} {d : Option Entries} {P S : Value → Prop} {es fs : Entries} {v : Value}
  {key : String}

/-! ### Composed entries -/

/-- The value of the entry has a property, or it is one that merging makes: required names, a
type, or properties, which are an object of values with the property. -/
def Admits (P : Value → Prop) (e : Scalar × Value) : Prop :=
  P e.2 ∨ e.1 = .string "required" ∨ e.1 = .string "type"
    ∨ e.1 = .string "properties" ∧ ∃ ps, e.2 = .object ps ∧ ∀ p ∈ ps, P p.2

/-- The entries are composed of values with a property. -/
def Composed (P : Value → Prop) (es : Entries) : Prop := ∀ e ∈ es, Admits P e

/-- The property passes on to parts. -/
def PassesOn (g : Anchors) (P : Value → Prop) : Prop := ∀ v u, P v → PartOf g v u → P u

theorem composed_nil : Composed P [] := fun _ mem => absurd mem List.not_mem_nil

theorem composed_of_forall (each : ∀ e ∈ es, P e.2) : Composed P es :=
  fun e mem => .inl (each e mem)

/-- Under a key that merging does not make, a composed entry has the property. -/
theorem Composed.of_get? (composed : Composed P es) (found : Entries.get? es key = some v)
    (old : key ∉ ["required", "type", "properties"]) : P v := by
  simp only [List.mem_cons, List.not_mem_nil, or_false, not_or] at old
  obtain has | same | same | ⟨same, -⟩ := composed _ (Entries.mem_of_get? found)
  · exact has
  · exact absurd (Scalar.string.inj same) old.1
  · exact absurd (Scalar.string.inj same) old.2.1
  · exact absurd (Scalar.string.inj same) old.2.2

/-- The properties of an admitted entry have values with the property. -/
theorem Admits.of_entries? {e : Scalar × Value} {ps : Entries} (admits : Admits P e)
    (passes : PassesOn g P) (key : e.1 = .string "properties") (entries : g.entries? e.2 = some ps) :
    ∀ p ∈ ps, P p.2 := by
  obtain has | same | same | ⟨-, qs, is_object, each⟩ := admits
  · exact fun p mem => passes e.2 p.2 has (.inr ⟨ps, p.1, entries, mem⟩)
  · exact absurd (key.symm.trans same) (by simp)
  · exact absurd (key.symm.trans same) (by simp)
  · rw [is_object] at entries
    cases entries
    exact each

theorem Composed.of_properties {ps : Entries} (composed : Composed P es) (passes : PassesOn g P)
    (found : g.objectAt? es "properties" = some ps) : ∀ p ∈ ps, P p.2 := by
  obtain ⟨object, at_key, entries⟩ := Option.bind_eq_some_iff.1 found
  exact (composed _ (Entries.mem_of_get? at_key)).of_entries? passes rfl entries

/-- An entry that takes over the value of an admitted one under the same key is admitted. -/
theorem Admits.of_sameKey {e e' : Scalar × Value} (admits : Admits P e')
    (same : Entries.sameKey e.1 e'.1 = true) (value : e.2 = e'.2) : Admits P e := by
  unfold Admits at admits ⊢
  rw [value]
  obtain has | key | key | ⟨key, object⟩ := admits
  · exact .inl has
  · exact .inr (.inl (Entries.sameKey_string.1 (key ▸ same)))
  · exact .inr (.inr (.inl (Entries.sameKey_string.1 (key ▸ same))))
  · exact .inr (.inr (.inr ⟨Entries.sameKey_string.1 (key ▸ same), object⟩))

/-! ### Merging -/

/-- `KeptByMerging g T`: merging keeps what `T` says of entries.  It is the same for all forms of a
key, is true of the entries that merging makes, and of properties that are put together when it is of
both. -/
structure KeptByMerging (g : Anchors) (T : Scalar × Value → Prop) : Prop where
  sameKey : ∀ e e', T e' → Entries.sameKey e.1 e'.1 = true → e.2 = e'.2 → T e
  required : ∀ v, T (.string "required", v)
  type : ∀ v, T (.string "type", v)
  properties : ∀ (own : Option Value) new ps, (∀ v ∈ own, T (.string "properties", v)) →
    T (.string "properties", new) → g.entries? new = some ps →
    T (.string "properties", .object (Entries.putAll ((own.bind g.entries?).getD []) ps))

namespace KeptByMerging

variable {T : Scalar × Value → Prop} (kept : KeptByMerging g T)

include kept

theorem put {k : Scalar} (all : ∀ e ∈ es, T e) (new : T (k, v)) :
    ∀ e ∈ Entries.put es k v, T e := by
  intro e mem
  obtain old | ⟨same, value⟩ := Entries.mem_put mem
  · exact all e old
  · exact kept.sameKey e _ new same value

theorem putAll (all : ∀ e ∈ es, T e) (more : ∀ e ∈ fs, T e) :
    ∀ e ∈ Entries.putAll es fs, T e := by
  intro e mem
  obtain old | ⟨e', at_more, same, value⟩ := Entries.mem_putAll mem
  · exact all e old
  · exact kept.sameKey e e' (more e' at_more) same value

theorem normalized (all : ∀ e ∈ es, T e) : ∀ e ∈ normalized g es, T e := by
  unfold SchemaCodegen.normalized
  split
  · exact kept.put all (kept.required _)
  · exact all

theorem mergeEntry {names : List String} {e : Scalar × Value} (all : ∀ e ∈ es, T e) (new : T e) :
    ∀ e' ∈ mergeEntry g names es e, T e' := by
  obtain ⟨k, v⟩ := e
  unfold SchemaCodegen.mergeEntry
  split
  · next properties found =>
      split at found
      · next at_properties =>
          obtain rfl : k = .string "properties" := at_properties
          refine kept.put all (kept.properties _ v properties (fun own at_key => ?_) new found)
          exact all _ (Entries.mem_of_get? at_key)
      · cases found
  · split
    · next at_required =>
        obtain rfl : k = .string "required" := at_required
        exact kept.put all (kept.required _)
    · split
      · exact all
      · exact kept.put all new

/-- Two schemas are merged. -/
theorem mergeSchemas (first : ∀ e ∈ es, T e) (second : ∀ e ∈ fs, T e) :
    ∀ e ∈ mergeSchemas g es fs, T e := by
  unfold SchemaCodegen.mergeSchemas
  generalize requiredNames g fs = names
  have start : ∀ e ∈ SchemaCodegen.normalized g es, T e := kept.normalized first
  generalize SchemaCodegen.normalized g es = merged at start
  induction fs generalizing merged with
  | nil => exact start
  | cons e fs ih =>
      obtain ⟨here, later⟩ := List.forall_mem_cons.1 second
      rw [List.foldl_cons]
      exact ih later _ (kept.mergeEntry start here)

/-- A sequence of schemas is merged. -/
theorem foldl {parts : List Entries} (start : ∀ e ∈ es, T e)
    (each : ∀ part ∈ parts, ∀ e ∈ part, T e) :
    ∀ e ∈ parts.foldl (SchemaCodegen.mergeSchemas g) es, T e := by
  induction parts generalizing es with
  | nil => exact start
  | cons part parts ih =>
      obtain ⟨here, later⟩ := List.forall_mem_cons.1 each
      rw [List.foldl_cons]
      exact ih (kept.mergeSchemas start here) later

/-- A schema's own keywords are merged into its members'. -/
theorem joinOwn {members own : Entries} (all : ∀ e ∈ members, T e) (each : ∀ e ∈ own, T e) :
    ∀ e ∈ joinOwn g members own, T e := by
  have rest : ∀ e ∈ Entries.erase own "allOf", T e :=
    fun e mem => each e (List.mem_filter.1 mem).1
  have plain : ∀ e ∈ (Entries.erase own "allOf").filter
      fun e => e.1 != .string "properties" && e.1 != .string "required", T e :=
    fun e mem => rest e (List.mem_filter.1 mem).1
  have joined := kept.putAll (kept.mergeSchemas all rest) plain
  unfold SchemaCodegen.joinOwn
  dsimp only
  split
  · exact kept.put joined (kept.type _)
  · exact joined

end KeptByMerging

/-- Merging keeps what is said of the values under a keyword that it does not make. -/
theorem keptByMerging_under (old : key ∉ ["required", "type", "properties"]) :
    KeptByMerging g fun e => e.1 = .string key → P e.2 := by
  simp only [List.mem_cons, List.not_mem_nil, or_false, not_or] at old
  have other {text : String} {v : Value} (differs : ¬ key = text) :
      Scalar.string text = .string key → P v :=
    fun same => absurd (Scalar.string.inj same).symm differs
  exact {
    sameKey := by
      intro e e' has same value at_key
      rw [at_key, Entries.string_sameKey] at same
      exact value ▸ has same
    required := fun _ => other old.1
    type := fun _ => other old.2.1
    properties := fun _ _ _ _ _ _ => other old.2.2 }

/-- Merging keeps entries composed. -/
theorem keptByMerging_admits (passes : PassesOn g P) : KeptByMerging g (Admits P) where
  sameKey := fun _ _ admits same value => admits.of_sameKey same value
  required := fun _ => .inr (.inl rfl)
  type := fun _ => .inr (.inr (.inl rfl))
  properties := by
    intro own new ps owned admits entries
    refine .inr (.inr (.inr ⟨rfl, _, rfl, fun p mem => ?_⟩))
    obtain at_own | ⟨p', at_new, -, value⟩ := Entries.mem_putAll mem
    · cases there : own.bind g.entries? with
      | none =>
          rw [there] at at_own
          cases at_own
      | some qs =>
          rw [there] at at_own
          obtain ⟨v, at_v, entries⟩ := Option.bind_eq_some_iff.1 there
          exact (owned v at_v).of_entries? passes rfl entries p at_own
    · rw [value]
      exact admits.of_entries? passes rfl entries p' at_new

/-! ### Keywords that are merged as they are -/

/-- A merged entry is put in where its keyword is new. -/
theorem get?_mergeEntry {names : List String} {e : Scalar × Value}
    (plain : key ∉ ["required", "properties"]) :
    Entries.get? (mergeEntry g names es e) key
      = (Entries.get? es key).or (if e.1 = .string key then some e.2 else none) := by
  simp only [List.mem_cons, List.not_mem_nil, or_false, not_or] at plain
  have other {text : String} (at_text : e.1 = .string text) (differs : key ≠ text) :
      e.1 ≠ .string key := by
    rw [at_text]
    intro same
    exact differs (Scalar.string.inj same).symm
  unfold mergeEntry
  split
  · next properties found =>
      split at found
      · next at_properties =>
          have new := other at_properties plain.2
          rw [Entries.get?_put, if_neg new, if_neg new, Option.or_none]
      · cases found
  · split
    · next at_required =>
        have new := other at_required plain.1
        rw [Entries.get?_put, if_neg new, if_neg new, Option.or_none]
    · by_cases at_key : e.1 = .string key
      · rw [if_pos at_key, at_key, Entries.hasKey_string]
        cases found : Entries.get? es key with
        | none => simp [Entries.get?_put]
        | some v => simp [found]
      · rw [if_neg at_key, Option.or_none]
        split
        · rfl
        · rw [Entries.get?_put, if_neg at_key]

/-- Of a keyword other than properties and required names, the value of the first schema that
has it stays. -/
theorem get?_mergeSchemas (plain : key ∉ ["required", "properties"]) :
    Entries.get? (mergeSchemas g es fs) key = (Entries.get? es key).or (Entries.get? fs key) := by
  have start : Entries.get? (normalized g es) key = Entries.get? es key := by
    unfold normalized
    split
    · rw [Entries.get?_put, if_neg]
      rintro ⟨⟩
      exact plain List.mem_cons_self
    · rfl
  unfold mergeSchemas
  rw [← start]
  generalize requiredNames g fs = names
  generalize normalized g es = merged
  induction fs generalizing merged with
  | nil => rw [List.foldl_nil, Entries.get?_nil, Option.or_none]
  | cons e fs ih =>
      obtain ⟨k, v⟩ := e
      rw [List.foldl_cons, ih, get?_mergeEntry plain, Entries.get?_cons, Option.or_assoc]
      split <;> rfl

/-- There is no list of members to collapse. -/
def NoMembers (g : Anchors) (es : Entries) : Prop := g.listAt? es "allOf" = none

theorem NoMembers.mergeSchemas (first : NoMembers g es) (second : NoMembers g fs) :
    NoMembers g (mergeSchemas g es fs) := by
  unfold NoMembers Anchors.listAt? at first second ⊢
  rw [get?_mergeSchemas (by simp)]
  cases found : Entries.get? es "allOf" with
  | none => exact second
  | some v =>
      rw [found] at first
      exact first

theorem noMembers_foldl {parts : List Entries} (start : NoMembers g es)
    (each : ∀ part ∈ parts, NoMembers g part) :
    NoMembers g (parts.foldl (mergeSchemas g) es) := by
  induction parts generalizing es with
  | nil => exact start
  | cons part parts ih =>
      obtain ⟨here, later⟩ := List.forall_mem_cons.1 each
      exact ih (start.mergeSchemas here) later

theorem noMembers_joinOwn {members own : Entries} (collapsed : NoMembers g members) :
    NoMembers g (joinOwn g members own) := by
  have rest : NoMembers g (Entries.erase own "allOf") := by
    unfold NoMembers Anchors.listAt?
    rw [Entries.get?_erase_self]
    rfl
  have joined := collapsed.mergeSchemas rest
  have others : ∀ e ∈ (Entries.erase own "allOf").filter
      fun e => e.1 != .string "properties" && e.1 != .string "required",
      e.1 ≠ .string "allOf" := by
    intro e mem
    have kept := (List.mem_filter.1 (List.mem_filter.1 mem).1).2
    exact ne_of_beq_false (by simpa using kept)
  unfold NoMembers Anchors.listAt? at joined ⊢
  unfold joinOwn
  dsimp only
  split
  · rw [Entries.get?_put, if_neg (by simp), Entries.get?_putAll_of_forall_ne others]
    exact joined
  · rw [Entries.get?_putAll_of_forall_ne others]
    exact joined

/-! ### Collapsing -/

/-- What is merged for a member of `allOf`. -/
def memberPart (g : Anchors) (d : Option Entries) (fresh : List String) (inner : List Nat)
    (m : Value) : Traced (Option Entries) :=
  match reference? g m with
  | some ref =>
    if ref ∈ fresh then do
      match ← followInto g d m with
      | some target => some <$> collapse g d (taking ref fresh) [] target
      | none =>
        Traced.note (.unresolvedMember ref)
        pure none
    else do
      Traced.note (.circularMember ref)
      pure none
  | none => if g.isObject m then some <$> collapse g d fresh inner m else pure none

/-- A schema without `allOf` is collapsed already. -/
theorem collapse_of_noMembers {fresh : List String} {active : List Nat}
    (entries : g.entries? v = some es) (none : NoMembers g es) :
    collapse g d fresh active v = pure es := by
  rw [collapse]
  split
  · next no_entries => cases no_entries.symm.trans entries
  · next fs found =>
      cases found.symm.trans entries
      split
      · rfl
      · next members at_key => cases at_key.symm.trans none

/-- A schema with `allOf` is its own keywords joined to what its members are merged to. -/
theorem collapse_of_listAt? {fresh : List String} {active inner : List Nat}
    {members : List Value} (entries : g.entries? v = some es)
    (at_key : g.listAt? es "allOf" = some members) (entered : g.enter? active v = some inner) :
    collapse g d fresh active v = (do
      let parts ← members.mapM (memberPart g d fresh inner)
      pure (joinOwn g ((parts.filterMap id).foldl (mergeSchemas g) []) es)) := by
  rw [collapse]
  split
  · next no_entries => cases no_entries.symm.trans entries
  · next fs found =>
      cases found.symm.trans entries
      split
      · next none => cases none.symm.trans at_key
      · next ms found =>
          cases found.symm.trans at_key
          split
          · next not_entered => cases not_entered.symm.trans entered
          · next into found =>
              cases found.symm.trans entered
              rw [← Traced.mapM_attach members (memberPart g d fresh inner)]
              rfl

/-- What is merged for a member is the member itself or the target of its reference, collapsed. -/
theorem of_memberPart {fresh : List String} {inner : List Nat} {m : Value}
    (found : (memberPart g d fresh inner m).result = .ok (some fs)) :
    (reference? g m = none ∧ (collapse g d fresh inner m).result = .ok fs)
      ∨ ∃ ref ∈ fresh, ∃ t, reference? g m = some ref
        ∧ (followInto g d m).result = .ok (some t)
        ∧ (collapse g d (taking ref fresh) [] t).result = .ok fs := by
  unfold memberPart at found
  cases refers : reference? g m with
  | none =>
      rw [refers] at found
      dsimp only at found
      split at found
      · obtain ⟨es, collapsed, same⟩ := result_map_eq_ok.1 found
        exact .inl ⟨rfl, Option.some.inj same ▸ collapsed⟩
      · cases found
  | some ref =>
      rw [refers] at found
      dsimp only at found
      split at found
      · next new =>
          obtain ⟨target, followed, found⟩ := result_bind_eq_ok.1 found
          cases target with
          | none =>
              obtain ⟨_, -, found⟩ := result_bind_eq_ok.1 found
              cases found
          | some t =>
              obtain ⟨es, collapsed, same⟩ := result_map_eq_ok.1 found
              exact .inr ⟨ref, new, t, rfl, followed, Option.some.inj same ▸ collapsed⟩
      · obtain ⟨_, -, found⟩ := result_bind_eq_ok.1 found
        cases found

/-- A schema inside itself is not collapsed. -/
theorem collapse_of_not_entered {fresh : List String} {active : List Nat} {members : List Value}
    (entries : g.entries? v = some es) (at_key : g.listAt? es "allOf" = some members)
    (not_entered : g.enter? active v = none) :
    collapse g d fresh active v = Traced.fail .tooDeep := by
  rw [collapse]
  split
  · next no_entries => cases no_entries.symm.trans entries
  · next es found =>
      cases found.symm.trans entries
      split
      · next no_members => cases no_members.symm.trans at_key
      · split
        · rfl
        · next into => cases not_entered.symm.trans into

theorem ends_followInto (d : Option Entries) (v : Value) : (followInto g d v).Ends := by
  cases d with
  | none => exact ends_pure _
  | some es => exact ends_followReference g v (.object es)

/-- The schemas that collapsing visits are trees; their values have a property that passes on to
parts. -/
structure Gathers (g : Anchors) (d : Option Entries) (S P : Value → Prop) : Prop where
  isTree : ∀ v, S v → v.isTree = true
  passes : PassesOn g P
  value : ∀ es, S (.object es) → ∀ e ∈ es, P e.2
  member : ∀ es members m, S (.object es) → g.listAt? es "allOf" = some members → m ∈ members →
    reference? g m = none → S m
  target : ∀ es members m ref t, S (.object es) → g.listAt? es "allOf" = some members →
    m ∈ members → reference? g m = some ref → (followInto g d m).result = .ok (some t) → S t

/-- A collapsed schema: it is composed of values with a property, and has no members any more. -/
structure IsCollapsed (g : Anchors) (P : Value → Prop) (es : Entries) : Prop where
  composed : Composed P es
  noMembers : NoMembers g es

/-- Collapsed members and keywords of the schema itself join to a collapsed schema. -/
theorem isCollapsed_join {own : Entries} {parts : List (Option Entries)} (passes : PassesOn g P)
    (each : ∀ e ∈ own, P e.2) (collapsed : ∀ part ∈ parts, ∀ fs ∈ part, IsCollapsed g P fs) :
    IsCollapsed g P (joinOwn g ((parts.filterMap id).foldl (mergeSchemas g) []) own) := by
  have from_part : ∀ fs ∈ parts.filterMap id, IsCollapsed g P fs := by
    intro fs mem
    obtain ⟨part, at_part, same⟩ := List.mem_filterMap.1 mem
    exact collapsed part at_part fs same
  constructor
  · have kept := keptByMerging_admits passes
    refine kept.joinOwn (kept.foldl composed_nil ?_) (composed_of_forall each)
    exact fun fs mem => (from_part fs mem).composed
  · exact noMembers_joinOwn (noMembers_foldl rfl fun fs mem => (from_part fs mem).noMembers)

/-- What is merged for a member is collapsed when the member itself is, or what its references
lead to. -/
theorem endsIn_memberPart {fresh : List String} {inner : List Nat} {m : Value}
    (member : reference? g m = none → (collapse g d fresh inner m).EndsIn (IsCollapsed g P))
    (target : ∀ ref t, reference? g m = some ref → ref ∈ fresh →
      (followInto g d m).result = .ok (some t) →
      (collapse g d (taking ref fresh) [] t).EndsIn (IsCollapsed g P)) :
    (memberPart g d fresh inner m).EndsIn fun part => ∀ fs ∈ part, IsCollapsed g P fs := by
  have left_out : (pure none : Traced (Option Entries)).EndsIn
      fun part => ∀ fs ∈ part, IsCollapsed g P fs := endsIn_pure nofun
  have merged {x : Traced Entries} (collapsed : x.EndsIn (IsCollapsed g P)) :
      (some <$> x).EndsIn fun part => ∀ fs ∈ part, IsCollapsed g P fs :=
    collapsed.bind fun fs has => endsIn_pure fun fs' same => Option.some.inj same ▸ has
  have noted (n : Notice) := (ends_of_ok (result_note n)).endsIn.bind fun _ _ => left_out
  unfold memberPart
  cases refers : reference? g m with
  | some ref =>
      dsimp only
      split
      · next new =>
          refine (ends_followInto d m).endsIn.bind fun found ok => ?_
          cases found with
          | none => exact noted _
          | some t => exact merged (target ref t refers new ok)
      · exact noted _
  | none =>
      dsimp only
      split
      · exact merged (member refers)
      · exact left_out

/-- Collapsing a schema that is gathered ends, in a schema composed of what is gathered. -/
theorem Gathers.endsIn_collapse {fresh : List String} {active : List Nat}
    (gathers : Gathers g d S P) (visited : S v) :
    (collapse g d fresh active v).EndsIn (IsCollapsed g P) := by
  -- As in the recursion itself: fewer references are left to take, or the schema gets lighter.
  induction left : fresh.length using Nat.strongRecOn generalizing fresh active v with
  | _ left taking_one =>
      subst left
      induction weight : v.weight using Nat.strongRecOn generalizing active v with
      | _ weight lighter =>
          subst weight
          have tree := gathers.isTree v visited
          cases entries : g.entries? v with
          | none =>
              rw [collapse]
              split
              · exact endsIn_fail (by simp)
              · next es found => cases entries.symm.trans found
          | some es =>
              obtain rfl := eq_object_of_entries? tree entries
              have values := gathers.value es visited
              cases at_key : g.listAt? es "allOf" with
              | none =>
                  rw [collapse_of_noMembers entries at_key]
                  exact endsIn_pure ⟨composed_of_forall values, at_key⟩
              | some members =>
                  rw [collapse_of_listAt? entries at_key (enter?_of_isTree tree active)]
                  have part : ∀ m ∈ members, (memberPart g d fresh active m).EndsIn
                      fun part => ∀ fs ∈ part, IsCollapsed g P fs := by
                    intro m mem
                    refine endsIn_memberPart (fun plain => ?_) fun ref t refers new found => ?_
                    · have light : m.weight < (Value.object es).weight := by
                        rw [Value.weight]
                        exact Nat.lt_succ_of_le (Anchors.weight_le_of_listAt? at_key mem)
                      exact lighter _ light (gathers.member es _ m visited at_key mem plain) rfl
                    · have visited := gathers.target es _ m ref t visited at_key mem refers found
                      exact taking_one _ (length_taking_lt new) visited rfl
                  exact (endsIn_mapM part).bind fun parts collapsed =>
                    endsIn_pure (isCollapsed_join gathers.passes values collapsed)

/-! ### What is gathered -/

/-- The roots of all data that a schema and the references in it lead to. -/
def rootsOf (schema : Value) (d : Option Entries) : List Value :=
  schema :: (d.map Value.object).toList

section Roots

variable {schema t : Value} {ref : String}

theorem forall_rootsOf (tree : schema.isTree = true)
    (trees : ∀ es ∈ d, Value.haveTrees es = true) :
    ∀ root ∈ rootsOf schema d, root.isTree = true := by
  unfold rootsOf
  cases d with
  | none => simpa using tree
  | some es => simpa [Value.isTree] using ⟨tree, trees es rfl⟩

/-- The schema that a reference leads to is within the roots, an object and no reference. -/
theorem of_followInto (refers : reference? g v = some ref)
    (h : (followInto g d v).result = .ok (some t)) :
    Within g (rootsOf schema d) t ∧ g.isObject t = true ∧ reference? g t = none := by
  cases d with
  | none => cases h
  | some es =>
      obtain ⟨inside, rest⟩ := of_followReference refers h
      exact ⟨⟨.object es, by simp [rootsOf], inside⟩, rest⟩

/-- Everything within the roots is gathered. -/
theorem gathers_within (trees : ∀ root ∈ rootsOf schema d, root.isTree = true) :
    Gathers g d (Within g (rootsOf schema d)) (Within g (rootsOf schema d)) where
  isTree := fun _ within => within.isTree trees
  passes := fun _ _ within part => within.part part
  value := fun es within e mem => within.part (.inr ⟨es, e.1, rfl, mem⟩)
  member := by
    intro es members m within at_key mem _
    obtain ⟨list, found, items⟩ := Option.bind_eq_some_iff.1 at_key
    exact (within.part (partOf_of_get? found)).part (.inl ⟨members, items, mem⟩)
  target := fun _ _ _ _ _ _ _ _ refers found => (of_followInto refers found).1

/-- No member of `allOf` within the roots is a reference. -/
def PlainMembers (g : Anchors) (roots : List Value) : Prop :=
  ∀ es members m, Within g roots (.object es) → g.listAt? es "allOf" = some members →
    m ∈ members → reference? g m = none

/-- Without references among the members, only what is inside the schema is gathered. -/
theorem gathers_lighter (trees : ∀ root ∈ rootsOf schema d, root.isTree = true)
    (plain : PlainMembers g (rootsOf schema d)) (weight : Nat) :
    Gathers g d (fun u => Within g (rootsOf schema d) u ∧ u.weight ≤ weight)
      (fun u => Within g (rootsOf schema d) u ∧ u.weight < weight) where
  isTree := fun _ visited => visited.1.isTree trees
  passes := by
    rintro v u ⟨within, light⟩ part
    exact ⟨within.part part, (part.weight_lt (within.isTree trees)).trans light⟩
  value := by
    rintro es ⟨within, light⟩ e mem
    have part : PartOf g (.object es) e.2 := .inr ⟨es, e.1, rfl, mem⟩
    exact ⟨within.part part, (part.weight_lt (within.isTree trees)).trans_le light⟩
  member := by
    rintro es members m ⟨within, light⟩ at_key mem refers
    refine ⟨(gathers_within trees).member es members m within at_key mem refers, ?_⟩
    rw [Value.weight] at light
    have := Anchors.weight_le_of_listAt? at_key mem
    omega
  target := by
    rintro es members m ref t ⟨within, -⟩ at_key mem refers -
    cases refers.symm.trans (plain es members m within at_key mem)

end Roots

/-! ### What is collapsed -/

section Collapsed

variable {schema : Value} {fresh : List String} {active : List Nat}

theorem passesOn_within {roots : List Value} : PassesOn g (Within g roots) :=
  fun _ _ within part => within.part part

/-- An object within the roots is composed of what is within them. -/
theorem Within.composed {roots : List Value} (within : Within g roots v)
    (entries : g.entries? v = some es) : Composed (Within g roots) es :=
  composed_of_forall fun e mem => within.part (.inr ⟨es, e.1, entries, mem⟩)

/-- **What collapsing keeps**, also in graphs and in whatever way it comes to a result: what holds of
the schemas within the roots that have no members, and of one of them to which schemas are joined that
it holds of. -/
theorem of_collapse {Q : Entries → Prop}
    (plain : ∀ v es, Within g (rootsOf schema d) v → g.entries? v = some es →
      NoMembers g es → Q es)
    (join : ∀ v es (parts : List (Option Entries)), Within g (rootsOf schema d) v →
      g.entries? v = some es → (∀ part ∈ parts, ∀ fs ∈ part, Q fs) →
      Q (joinOwn g ((parts.filterMap id).foldl (mergeSchemas g) []) es))
    (within : Within g (rootsOf schema d) v)
    (found : (collapse g d fresh active v).result = .ok es) : Q es := by
  induction fresh, active, v using collapse.induct (g := g) generalizing es with
  | case1 fresh active v no_object =>
      rw [collapse] at found
      split at found
      · cases found
      · next own entries => cases no_object.symm.trans entries
  | case2 fresh active v own entries no_members =>
      rw [collapse_of_noMembers entries no_members] at found
      cases found
      exact plain v own within entries no_members
  | case3 fresh active v own entries members at_key not_entered =>
      rw [collapse_of_not_entered entries at_key not_entered] at found
      cases found
  | case4 fresh active v own entries members at_key inner entered target member =>
      rw [collapse_of_listAt? entries at_key entered] at found
      obtain ⟨parts, each, same⟩ := result_bind_eq_ok.1 found
      cases same
      refine join v own parts within entries fun part at_part fs merged => ?_
      obtain ⟨m, mem, from_m⟩ := Traced.exists_of_mem_mapM each at_part
      rw [merged] at from_m
      obtain ⟨-, collapsed⟩ | ⟨ref, new, t, refers, leads, collapsed⟩ := of_memberPart from_m
      · obtain ⟨list, at_list, items⟩ := Option.bind_eq_some_iff.1 at_key
        have list_part : PartOf g v list := .inr ⟨own, _, entries, Entries.mem_of_get? at_list⟩
        have m_within := (within.part list_part).part (.inl ⟨members, items, mem⟩)
        exact member ⟨m, mem⟩ m_within collapsed
      · exact target ref new t (of_followInto refers leads).1 collapsed

/-- A collapsed schema is composed of what is within the roots, and has no members. -/
theorem isCollapsed_of_collapse (within : Within g (rootsOf schema d) v)
    (found : (collapse g d fresh active v).result = .ok es) :
    IsCollapsed g (Within g (rootsOf schema d)) es := by
  refine of_collapse (fun v es within entries none => ⟨within.composed entries, none⟩)
    (fun v es parts within entries each => ?_) within found
  exact isCollapsed_join passesOn_within
    (fun e mem => within.part (.inr ⟨es, e.1, entries, mem⟩)) each

/-- What merging keeps, and what is true of the entries of all schemas within the roots, is true of
those of a collapsed one. -/
theorem KeptByMerging.of_collapse {T : Scalar × Value → Prop} (kept : KeptByMerging g T)
    (all : ∀ v es, Within g (rootsOf schema d) v → g.entries? v = some es → ∀ e ∈ es, T e)
    (within : Within g (rootsOf schema d) v)
    (found : (collapse g d fresh active v).result = .ok es) : ∀ e ∈ es, T e := by
  refine SchemaCodegen.of_collapse (Q := fun es => ∀ e ∈ es, T e)
    (fun v es within entries _ => all v es within entries)
    (fun v es parts within entries each => ?_) within found
  have no_entries : ∀ e ∈ ([] : Entries), T e := fun e mem => absurd mem List.not_mem_nil
  refine kept.joinOwn (kept.foldl no_entries fun fs mem => ?_) (all v es within entries)
  obtain ⟨part, at_part, same⟩ := List.mem_filterMap.1 mem
  exact each part at_part fs same

end Collapsed

/-! ### Texts that are left -/

/-- How many texts within the roots have not been taken as references. -/
def untaken (roots : List Value) (taken : List String) : Nat :=
  (((roots.flatMap Value.parts).filterMap Value.string?).filter (· ∉ taken)).length

/-- Taking a text as a reference leaves fewer. -/
theorem untaken_cons_lt {roots : List Value} {taken : List String} {ref : String}
    (trees : ∀ root ∈ roots, root.isTree = true) (within : Within g roots (.string ref))
    (new : ref ∉ taken) : untaken roots (ref :: taken) < untaken roots taken := by
  have mem : ref ∈ (roots.flatMap Value.parts).filterMap Value.string? :=
    List.mem_filterMap.2 ⟨_, forall_within trees (fun _ mem => mem) _ within, rfl⟩
  unfold untaken
  generalize (roots.flatMap Value.parts).filterMap Value.string? = texts at mem
  have rest : texts.filter (· ∉ ref :: taken) = (texts.filter (· ∉ taken)).filter (· ≠ ref) := by
    rw [List.filter_filter]
    exact List.filter_congr fun text _ => by simp
  rw [rest]
  exact length_taking_lt (List.mem_filter.2 ⟨mem, by simpa using new⟩)

/-- A text under a keyword is within the roots. -/
theorem Composed.of_string? {roots : List Value} {text : String}
    (composed : Composed (Within g roots) es) (found : Entries.string? es key = some text)
    (old : key ∉ ["required", "type", "properties"]) : Within g roots (.string text) := by
  obtain ⟨value, at_key, is_text⟩ := Option.bind_eq_some_iff.1 found
  have same : value = .string text := by
    unfold Value.string? at is_text
    split at is_text
    · cases is_text
      rfl
    · cases is_text
  exact same ▸ composed.of_get? at_key old

end SchemaCodegen
