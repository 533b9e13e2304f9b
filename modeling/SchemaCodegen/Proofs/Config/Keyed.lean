import Mathlib.Data.List.Nodup
import SchemaCodegen.Config.Files
import SchemaCodegen.Proofs.Data.Keys
import SchemaCodegen.Proofs.Traced

/-!
# Settings have each key once

A layer of settings is a tree of objects, and looking up a setting takes the first entry of a key.
That there is no second one is true of each layer that the program makes itself: of what is read
from a file (`keyed_read`), of the environment's layer (`keyed_environmentLayer`), and of the
global configuration written out again (`keyed_loadGlobal`).
-/

namespace SchemaCodegen

open Entries

/-- In the object, and in the objects under its keys, no two keys name the same entry. -/
inductive Value.Keyed : Value → Prop
  | object {es : Entries} (distinct : DistinctKeys (keys es)) (inner : ∀ e ∈ es, Keyed e.2) :
      Keyed (.object es)
  | other {v : Value} (no_object : ∀ es, v ≠ .object es) : Keyed v

variable {es base layer : Entries} {v : Value} {k : Scalar}

theorem mem_of_valueAt? (found : valueAt? es k = some v) :
    ∃ k', (k', v) ∈ es ∧ sameKey k' k = true := by
  induction es with
  | nil => cases found
  | cons e es ih =>
      obtain ⟨k', w⟩ := e
      rw [valueAt?] at found
      split at found
      · next same =>
          cases found
          exact ⟨k', List.mem_cons_self, same⟩
      · obtain ⟨k'', mem, same⟩ := ih found
        exact ⟨k'', List.mem_cons_of_mem _ mem, same⟩

namespace Value.Keyed

theorem distinct (keyed : (Value.object es).Keyed) : DistinctKeys (keys es) := by
  cases keyed with
  | object distinct inner => exact distinct
  | other no_object => exact absurd rfl (no_object es)

theorem inner (keyed : (Value.object es).Keyed) : ∀ e ∈ es, e.2.Keyed := by
  cases keyed with
  | object distinct inner => exact inner
  | other no_object => exact absurd rfl (no_object es)

theorem scalar (s : Scalar) : (Value.scalar s).Keyed := .other nofun

theorem empty : (Value.object []).Keyed := .object .nil nofun

theorem put (keyed : (Value.object es).Keyed) (value : v.Keyed) :
    (Value.object (Entries.put es k v)).Keyed := by
  refine .object (keys_put ▸ distinctKeys_addKey keyed.distinct) fun e mem => ?_
  obtain old | ⟨-, new⟩ := mem_put mem
  · exact keyed.inner e old
  · exact new ▸ value

/-- The value found under a key. -/
theorem valueAt? (keyed : (Value.object es).Keyed) (found : Entries.valueAt? es k = some v) :
    v.Keyed := by
  obtain ⟨k', mem, -⟩ := mem_of_valueAt? found
  exact keyed.inner _ mem

end Value.Keyed

/-! ### Files -/

namespace Json

variable {c after : Cursor} {budget : Nat} {done : Entries}

theorem exists_scalar_of_word : ∀ w ∈ words, ∃ s, w.2 = .scalar s := by
  simp only [words, List.forall_mem_cons]
  exact ⟨⟨_, rfl⟩, ⟨_, rfl⟩, ⟨_, rfl⟩, ⟨_, rfl⟩, ⟨_, rfl⟩, ⟨_, rfl⟩, nofun⟩

theorem exists_scalar_of_number (n : NumberText) : ∃ s, n.value = .scalar s := by
  unfold NumberText.value
  split
  · exact ⟨_, rfl⟩
  · exact ⟨_, rfl⟩

theorem keyed_readAtom (found : readAtom c = .ok (v, after)) : v.Keyed := by
  suffices is_scalar : ∃ s, v = .scalar s by
    obtain ⟨s, rfl⟩ := is_scalar
    exact .scalar s
  unfold readAtom at found
  split at found
  · next w value word =>
      cases found
      exact exists_scalar_of_word _ (List.mem_of_find?_eq_some word)
  · split at found
    · split at found
      · cases found
      · cases found
        exact exists_scalar_of_number _
    · cases found

/-- One entry is read and put in; it is the last one, or reading goes on behind it. -/
theorem readEntries_succ (found : readEntries (budget + 1) done c = .ok (v, after)) :
    ∃ key value start behind, readValue budget start = .ok (value, behind)
      ∧ (v = .object (put done (.string key) value)
        ∨ ∃ next, readEntries budget (put done (.string key) value) next = .ok (v, after)) := by
  rw [readEntries] at found
  split at found
  · obtain ⟨⟨key, behind⟩, -, found⟩ := bind_eq_ok.1 found
    dsimp only at found
    split at found
    · obtain ⟨⟨value, behind⟩, from_value, found⟩ := bind_eq_ok.1 found
      refine ⟨key, value, _, behind, from_value, ?_⟩
      dsimp only at found
      split at found
      · cases found
        exact .inl rfl
      · exact .inr ⟨_, found⟩
      · cases found
    · cases found
  · cases found

theorem keyed_of_budget (budget : Nat) :
    (∀ {c v after}, readValue budget c = .ok (v, after) → v.Keyed)
      ∧ (∀ {done c v after}, readItems budget done c = .ok (v, after) → v.Keyed)
      ∧ ∀ {done c v after}, (Value.object done).Keyed → readEntries budget done c = .ok (v, after) →
          v.Keyed := by
  induction budget with
  | zero =>
      refine ⟨fun found => ?_, fun found => ?_, fun _ found => ?_⟩
      · rw [readValue] at found
        cases found
      · rw [readItems] at found
        cases found
      · rw [readEntries] at found
        cases found
  | succ budget ih =>
      obtain ⟨values, items, entries⟩ := ih
      refine ⟨fun {c v after} found => ?_, fun {done c v after} found => ?_,
        fun {done c v after} keyed found => ?_⟩
      · rw [readValue] at found
        split at found
        · cases read : readString c.position c.rest.length [] (c.skip 1) with
          | error fault => rw [read] at found; cases found
          | ok r =>
              rw [read] at found
              cases found
              exact .scalar _
        · dsimp only at found
          split at found
          · cases found
            exact .empty
          · exact entries .empty found
        · dsimp only at found
          split at found
          · cases found
            exact .other nofun
          · exact items found
        · exact keyed_readAtom found
      · rw [readItems] at found
        obtain ⟨⟨item, behind⟩, from_item, found⟩ := bind_eq_ok.1 found
        dsimp only at found
        split at found
        · cases found
          exact .other nofun
        · exact items found
        · cases found
      · obtain ⟨key, value, start, behind, from_value, last | ⟨next, rest⟩⟩ :=
          readEntries_succ found
        · exact last ▸ keyed.put (values from_value)
        · exact entries (keyed.put (values from_value)) rest

/-- The objects of a JSON text have each key once. -/
theorem keyed_read {text : String} (found : Json.read text = .ok v) : v.Keyed := by
  unfold Json.read at found
  dsimp only at found
  split at found
  · cases found
  · obtain ⟨⟨value, after⟩, from_value, found⟩ := bind_eq_ok.1 found
    dsimp only at found
    split at found
    · cases found
      exact (keyed_of_budget _).1 from_value
    · cases found

end Json

/-- The entries of a file have each key once. -/
theorem keyed_fileEntries {label path text : String}
    (found : fileEntries label path text = .ok es) : (Value.object es).Keyed := by
  unfold fileEntries at found
  dsimp only at found
  split at found
  · next read =>
      cases found
      exact Json.keyed_read read
  · cases found
  · split at found <;> cases found

theorem keyed_loadProject {app : Application} {h : Host} {files : ConfigFiles}
    {project : Option Entries} (found : loadProject app h files = .ok project) :
    (Value.object (project.getD [])).Keyed := by
  unfold loadProject at found
  split at found
  · cases found
    exact .empty
  · obtain ⟨es, read, found⟩ := bind_eq_ok.1 found
    cases found
    exact keyed_fileEntries read

/-! ### Laying over -/

theorem mergeValue_of_no_object {below : Option Value} (no_object : ∀ es, v ≠ .object es) :
    mergeValue below v = v := by
  cases v with
  | object es => exact absurd rfl (no_object es)
  | _ => rw [mergeValue]

/-- A value laid over what is no object is itself. -/
theorem mergeValue_over {below : Option Value} (no_object : ∀ es, below ≠ some (.object es)) :
    mergeValue below v = v := by
  cases v with
  | object es =>
      rw [mergeValue]
      exact no_object
  | _ => rw [mergeValue]

/-- A value laid over nothing is itself. -/
@[simp] theorem mergeValue_none : mergeValue none v = v := mergeValue_over nofun

@[simp] theorem mergeValue_object :
    mergeValue (some (.object base)) (.object layer) = .object (mergeLayer base layer) := by
  rw [mergeValue]

/-- What is laid over an object: the values are laid over what stands below them. -/
theorem keyed_mergeLayer_of_each (each : ∀ e ∈ layer, ∀ below : Option Value,
      (∀ b ∈ below, b.Keyed) → (mergeValue below e.2).Keyed)
    (keyed : (Value.object base).Keyed) : (Value.object (mergeLayer base layer)).Keyed := by
  induction layer generalizing base with
  | nil =>
      rw [mergeLayer_nil]
      exact keyed
  | cons e layer ih =>
      obtain ⟨here, later⟩ := List.forall_mem_cons.1 each
      rw [mergeLayer_cons]
      exact ih later (keyed.put (here _ fun b below => keyed.valueAt? below))

theorem keyed_mergeValue (keyed : v.Keyed) {below : Option Value} (under : ∀ b ∈ below, b.Keyed) :
    (mergeValue below v).Keyed := by
  induction keyed generalizing below with
  | @object es distinct inner ih =>
      by_cases on_object : ∃ base, below = some (.object base)
      · obtain ⟨base, rfl⟩ := on_object
        rw [mergeValue_object]
        exact keyed_mergeLayer_of_each (fun e mem _ => ih e mem) (under _ rfl)
      · rw [mergeValue_over fun base same => on_object ⟨base, same⟩]
        exact .object distinct inner
  | other no_object =>
      rw [mergeValue_of_no_object no_object]
      exact .other no_object

theorem keyed_mergeLayer (upper : (Value.object layer).Keyed)
    (lower : (Value.object base).Keyed) :
    (Value.object (mergeLayer base layer)).Keyed :=
  keyed_mergeLayer_of_each (fun e mem _ => keyed_mergeValue (upper.inner e mem)) lower

/-! ### The environment -/

theorem keyed_nestedAt (keyed : v.Keyed) (path : List String) :
    (Value.object (nestedAt path v)).Keyed := by
  have single (key : String) {w : Value} (inner : w.Keyed) :
      (Value.object [(.string key, w)]).Keyed :=
    .object (List.pairwise_singleton _ _) fun e mem => List.mem_singleton.1 mem ▸ inner
  fun_induction nestedAt path v with
  | case1 => exact .empty
  | case2 => exact single _ keyed
  | case3 _ _ _ _ ih => exact single _ (ih keyed)

theorem exists_scalar_of_flag {text : String} (found : readFlagVariable text = .ok v) :
    ∃ a, v = .scalar a := by
  unfold readFlagVariable at found
  dsimp only at found
  split at found
  · cases found
    exact ⟨_, rfl⟩
  · split at found
    · cases found
      exact ⟨_, rfl⟩
    · cases found

theorem exists_scalar_of_integer {text : String} (found : readIntegerVariable text = .ok v) :
    ∃ a, v = .scalar a := by
  unfold readIntegerVariable at found
  dsimp only at found
  split at found
  · split at found
    · cases found
      exact ⟨_, rfl⟩
    · cases found
  · cases found

theorem exists_scalar_of_text {text : String} (found : readTextVariable text = .ok v) :
    ∃ a, v = .scalar a := by
  cases found
  exact ⟨_, rfl⟩

/-- A variable is read as data without parts. -/
theorem exists_scalar_of_setting : ∀ s ∈ settings, ∀ text v, s.read text = .ok v →
    ∃ a, v = .scalar a := by
  simp only [settings, List.forall_mem_cons]
  exact ⟨fun _ _ => exists_scalar_of_flag, fun _ _ => exists_scalar_of_text,
    fun _ _ => exists_scalar_of_text, fun _ _ => exists_scalar_of_flag,
    fun _ _ => exists_scalar_of_flag, fun _ _ => exists_scalar_of_text,
    fun _ _ => exists_scalar_of_text, fun _ _ => exists_scalar_of_integer,
    fun _ _ => exists_scalar_of_integer, fun _ _ => exists_scalar_of_integer,
    List.forall_mem_nil _⟩

/-- What one more setting adds. -/
theorem keyed_addTo {app : Application} {env : Environment} {s : Setting} (mem : s ∈ settings)
    (keyed : (Value.object base).Keyed) (found : s.addTo app env base = .ok es) :
    (Value.object es).Keyed := by
  unfold Setting.addTo at found
  dsimp only at found
  split at found
  · cases found
    exact keyed
  · split at found
    · next v read =>
        cases found
        obtain ⟨a, rfl⟩ := exists_scalar_of_setting s mem _ _ read
        exact keyed_mergeLayer (keyed_nestedAt (.scalar a) _) keyed
    · cases found

theorem keyed_environmentLayer {app : Application} {env : Environment}
    (found : environmentLayer app env = .ok es) : (Value.object es).Keyed := by
  suffices run : ∀ ss : List Setting, (∀ s ∈ ss, s ∈ settings) → ∀ base : Entries,
      (Value.object base).Keyed → ss.foldlM (Setting.addTo app env) base = .ok es →
      (Value.object es).Keyed from
    run settings (fun s mem => mem) [] .empty found
  intro ss
  induction ss with
  | nil =>
      intro _ base keyed found
      cases found
      exact keyed
  | cons s ss ih =>
      intro known base keyed found
      rw [List.foldlM_cons] at found
      obtain ⟨next, here, later⟩ := bind_eq_ok.1 found
      obtain ⟨at_s, at_ss⟩ := List.forall_mem_cons.1 known
      exact ih at_ss next (keyed_addTo at_s keyed here) later

/-! ### The global configuration -/

/-- A field has its default or what is read under its name. -/
theorem field_eq_valid {α : Type} {name : String} {absent a : α} {read : Value → Checked α}
    (found : field es name absent read = .valid a) :
    a = absent ∨ ∃ v, get? es name = some v ∧ read v = .valid a := by
  unfold field at found
  split at found
  · next v at_name => exact .inr ⟨v, at_name, Checked.under_eq_valid.1 found⟩
  · cases found
    exact .inl rfl

/-- The texts of a mapping keep their keys. -/
theorem keys_of_readTextMap {texts : List (String × String)}
    (found : readTextMap {} (.object es) = .valid texts) :
    texts.map (fun t => Scalar.string t.1) = keys es := by
  change es.foldr (fun e rest => List.cons <$> readTextEntry e <*> rest) (.valid []) = _ at found
  induction es generalizing texts with
  | nil =>
      cases found
      rfl
  | cons e es ih =>
      rw [List.foldr_cons] at found
      obtain ⟨_, rest, first, later, rfl⟩ := Checked.seq_eq_valid.1 found
      obtain ⟨t, here, rfl⟩ := Checked.map_eq_valid.1 first
      rw [List.map_cons, ih later]
      refine congrArg (· :: keys es) ?_
      unfold readTextEntry at here
      split at here
      · next s at_key =>
          obtain ⟨text, -, rfl⟩ := Checked.map_eq_valid.1 here
          exact at_key.symm
      · cases here

/-- The custom validators of options that are read have different names. -/
theorem nodup_customValidators {o : ValidationOptions} (keyed : (Value.object es).Keyed)
    (found : ValidationOptions.ofEntries {} es = .valid o) :
    (o.customValidators.map (·.1)).Nodup := by
  obtain ⟨_, importPath, first_five, -, rfl⟩ := Checked.seq_eq_valid.1 found
  obtain ⟨_, texts, first_four, custom, rfl⟩ := Checked.seq_eq_valid.1 first_five
  obtain ⟨_, bigint, first_three, -, rfl⟩ := Checked.seq_eq_valid.1 first_four
  obtain ⟨_, descriptions, first_two, -, rfl⟩ := Checked.seq_eq_valid.1 first_three
  obtain ⟨_, coerce, first, -, rfl⟩ := Checked.seq_eq_valid.1 first_two
  obtain ⟨strict, -, rfl⟩ := Checked.map_eq_valid.1 first
  obtain rfl | ⟨v, at_name, read⟩ := field_eq_valid custom
  · exact .nil
  · have under : v.Keyed := keyed.inner _ (mem_of_get? at_name)
    cases v with
    | object fs =>
        have distinct := under.distinct.nodup
        rw [← keys_of_readTextMap read] at distinct
        refine List.Nodup.of_map Scalar.string ?_
        rwa [List.map_map]
    | _ => cases read

/-- Of the configuration that is read, the custom validators have different names, and the other
settings are those of the entries. -/
theorem of_ofEntries {c : EngineConfig} (keyed : (Value.object es).Keyed)
    (found : EngineConfig.ofEntries {} es = .valid c) :
    (c.validation.customValidators.map (·.1)).Nodup ∧ c.more = EngineConfig.othersOf es := by
  obtain ⟨_, mock, first_four, -, rfl⟩ := Checked.seq_eq_valid.1 found
  obtain ⟨_, forms, first_three, -, rfl⟩ := Checked.seq_eq_valid.1 first_four
  obtain ⟨_, validation, first_two, from_entries, rfl⟩ := Checked.seq_eq_valid.1 first_three
  obtain ⟨_, types, first, -, rfl⟩ := Checked.seq_eq_valid.1 first_two
  obtain ⟨strict, -, rfl⟩ := Checked.map_eq_valid.1 first
  refine ⟨?_, rfl⟩
  obtain rfl | ⟨v, at_name, read⟩ := field_eq_valid from_entries
  · exact .nil
  · have under : v.Keyed := keyed.inner _ (mem_of_get? at_name)
    cases v with
    | object fs => exact nodup_customValidators under read
    | _ => cases read

/-- A record has each key once when its names differ. -/
theorem keyed_record {fields : List (String × Value)} (names : (fields.map (·.1)).Nodup)
    (inner : ∀ f ∈ fields, f.2.Keyed) : (Value.record fields).Keyed := by
  refine .object ?_ fun e mem => ?_
  · rw [keys, List.map_map]
    refine List.pairwise_map.2 ((List.pairwise_map.1 names).imp fun differ => ?_)
    exact Bool.eq_false_iff.2 fun same => differ (Scalar.string.inj (string_sameKey.1 same)).symm
  · obtain ⟨f, at_f, rfl⟩ := List.mem_map.1 mem
    exact inner f at_f

/-- The engine's own settings, written out. -/
theorem keyed_ownEntries {c : EngineConfig}
    (names : (c.validation.customValidators.map (·.1)).Nodup) :
    (Value.object { c with more := [] }.entries).Keyed := by
  have custom : (Value.record (c.validation.customValidators.map
      fun v => (v.1, .string v.2))).Keyed := by
    refine keyed_record (by rwa [List.map_map]) fun f mem => ?_
    obtain ⟨v, -, rfl⟩ := List.mem_map.1 mem
    exact .scalar _
  have types : c.types.value.Keyed := by
    refine keyed_record (by simp) ?_
    simp only [List.forall_mem_cons]
    exact ⟨.scalar _, .scalar _, nofun⟩
  have validation : c.validation.value.Keyed := by
    refine keyed_record (by simp) ?_
    simp only [List.forall_mem_cons]
    exact ⟨.scalar _, .scalar _, .scalar _, .scalar _, custom, .scalar _, nofun⟩
  have forms : c.forms.value.Keyed := by
    refine keyed_record (by simp) ?_
    simp only [List.forall_mem_cons]
    exact ⟨.scalar _, .scalar _, .scalar _, .scalar _, nofun⟩
  have mock : c.mock.value.Keyed := by
    refine keyed_record (by simp) ?_
    simp only [List.forall_mem_cons]
    refine ⟨?_, .scalar _, .scalar _, .scalar _, nofun⟩
    cases c.mock.seed with
    | some n => exact .scalar _
    | none => exact .scalar _
  have own : (Value.record [("strict_references", .bool c.strictReferences),
      ("types", c.types.value), ("validation", c.validation.value), ("forms", c.forms.value),
      ("mock", c.mock.value)]).Keyed := by
    refine keyed_record (by simp) ?_
    simp only [List.forall_mem_cons]
    exact ⟨.scalar _, types, validation, forms, mock, nofun⟩
  exact own

/-- The settings of a configuration that was read, written out again. -/
theorem keyed_entries {c : EngineConfig}
    (names : (c.validation.customValidators.map (·.1)).Nodup)
    (keyed : (Value.object es).Keyed) (others : c.more = EngineConfig.othersOf es) :
    (Value.object c.entries).Keyed := by
  have own := keyed_ownEntries names
  have sublist : (keys c.more).Sublist (keys es) := others ▸ List.filter_sublist.map _
  refine .object ?_ fun e mem => ?_
  · rw [EngineConfig.entries, keys, List.map_append]
    refine List.pairwise_append.2
      ⟨own.distinct, keyed.distinct.sublist sublist, fun a at_own b at_other => ?_⟩
    have at_key : a ∈ EngineConfig.ownKeys.map Scalar.string := at_own
    obtain ⟨key, own_key, rfl⟩ := List.mem_map.1 at_key
    rw [others] at at_other
    obtain ⟨e, mem, rfl⟩ := List.mem_map.1 at_other
    refine Bool.eq_false_iff.2 fun same => ?_
    have no_own := (List.mem_filter.1 mem).2
    rw [string_sameKey.1 same, Bool.not_eq_true', List.any_eq_false] at no_own
    exact no_own key own_key (beq_self_eq_true _)
  · obtain own_entry | other := List.mem_append.1 mem
    · exact own.inner e (List.mem_append_left _ own_entry)
    · rw [others] at other
      exact keyed.inner e (List.mem_filter.1 other).1

theorem keyed_loadGlobal {app : Application} {h : Host} {files : ConfigFiles} {c : EngineConfig}
    (found : loadGlobal app h files = .ok c) : (Value.object c.entries).Keyed := by
  unfold loadGlobal at found
  split at found
  · cases found
    exact keyed_entries .nil .empty rfl
  · dsimp only at found
    obtain ⟨es, read, found⟩ := bind_eq_ok.1 found
    have keyed := keyed_fileEntries read
    split at found
    · next valid =>
        cases found
        obtain ⟨names, others⟩ := of_ofEntries keyed valid
        exact keyed_entries names keyed others
    · cases found

end SchemaCodegen
