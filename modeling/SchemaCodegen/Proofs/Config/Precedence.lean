import Mathlib
import SchemaCodegen.Proofs.Config.Keyed

/-!
# Precedence of settings

The effective configuration is laid together from four layers, each over the ones before it.  What
it says at a path of keys depends on what the layers say at this path, and on nothing else
(`prevails_mergeLayers`):

* where they have something that is no object, the last of these values stands;
* where they have objects, there is an object, which lists the keys of the layers in order, each
  where it comes first;
* where they have nothing, there is nothing.

### What is load-bearing

Laying one layer over another commutes with looking up a path (`settingAt?_mergeValue`).  This
needs that the two agree, that is, no path leads to an object in one of them and to something else
in the other: an object that is replaced by a number takes with it all that is under its keys.
-/

namespace SchemaCodegen

open Entries

variable {es base layer : Entries} {layers : List Entries} {u v w : Value} {k key : Scalar}
  {path : List Scalar} {below above : Option Value} {found : List Value}

/-! ### Looking up -/

/-- The value is an object. -/
def Value.isMapping : Value → Bool
  | .object _ => true
  | _ => false

/-- The value at a path of keys. -/
def settingAt? : List Scalar → Value → Option Value
  | [], v => some v
  | key :: path, .object es => (valueAt? es key).bind (settingAt? path)
  | _ :: _, _ => none

/-- No path leads to an object in one value and to something else in the other one. -/
def Agree (u v : Value) : Prop :=
  ∀ path a b, settingAt? path u = some a → settingAt? path v = some b → a.isMapping = b.isMapping

/-- What stands where there is something below and something above. -/
def overlay (below above : Option Value) : Option Value :=
  match above with
  | some v => some (mergeValue below v)
  | none => below

theorem isMapping_eq_true : v.isMapping = true ↔ ∃ es, v = .object es := by
  cases v with
  | object es => exact ⟨fun _ => ⟨es, rfl⟩, fun _ => rfl⟩
  | _ => exact ⟨nofun, nofun⟩

theorem isMapping_eq_false : v.isMapping = false ↔ ∀ es, v ≠ .object es := by
  rw [← Bool.not_eq_true, isMapping_eq_true, not_exists]

theorem settingAt?_of_no_object (no_object : v.isMapping = false) :
    settingAt? (key :: path) v = none := by
  cases v with
  | object es => cases no_object
  | _ => rfl

theorem Value.Keyed.settingAt? (keyed : v.Keyed) (found : settingAt? path v = some w) :
    w.Keyed := by
  induction path generalizing v with
  | nil =>
      cases found
      exact keyed
  | cons key path ih =>
      cases v with
      | object es =>
          obtain ⟨u, at_key, rest⟩ := Option.bind_eq_some_iff.1 found
          exact ih (keyed.valueAt? at_key) rest
      | _ => cases found

mutual

/-- Whether two values agree is computed from their keys. -/
def Value.agrees (u : Value) : Value → Bool
  | .object layer =>
    match u with
    | .object base => Value.agreeAt base layer
    | _ => false
  | _ => !u.isMapping

/-- What stands under the keys of a layer agrees with what is below. -/
def Value.agreeAt (base : Entries) : List (Scalar × Value) → Bool
  | [] => true
  | (k, v) :: rest => (valueAt? base k).all (fun u => u.agrees v) && agreeAt base rest

end

/-! ### One key -/

theorem valueAt?_congr (same : sameKey k key = true) : valueAt? es k = valueAt? es key := by
  induction es with
  | nil => rfl
  | cons e es ih =>
      obtain ⟨k', v⟩ := e
      rw [valueAt?, valueAt?, sameKey_congr same, ih]

theorem agrees_of_agreeAt (all : Value.agreeAt base layer = true)
    (below : valueAt? base key = some u) (above : valueAt? layer key = some v) :
    u.agrees v = true := by
  induction layer with
  | nil => cases above
  | cons e layer ih =>
      obtain ⟨k, w⟩ := e
      rw [Value.agreeAt, Bool.and_eq_true] at all
      rw [valueAt?] at above
      split at above
      · next same =>
          cases above
          have here := all.1
          rwa [valueAt?_congr same, below] at here
      · exact ih all.2 above

theorem agree_of_agrees (agrees : u.agrees v = true) : Agree u v := by
  intro path
  induction path generalizing u v with
  | nil =>
      intro a b at_a at_b
      cases at_a
      cases at_b
      cases v with
      | object layer =>
          cases u with
          | object base => rfl
          | _ => cases agrees
      | _ => exact Bool.eq_false_of_not_eq_true' agrees
  | cons key path ih =>
      intro a b at_a at_b
      cases v with
      | object layer =>
          cases u with
          | object base =>
              obtain ⟨u, below, at_a⟩ := Option.bind_eq_some_iff.1 at_a
              obtain ⟨v, above, at_b⟩ := Option.bind_eq_some_iff.1 at_b
              exact ih (agrees_of_agreeAt agrees below above) a b at_a at_b
          | _ => cases agrees
      | _ => cases at_b

theorem valueAt?_put :
    valueAt? (put es k v) key = if sameKey k key = true then some v else valueAt? es key := by
  induction es with
  | nil => rfl
  | cons e es ih =>
      obtain ⟨k', w⟩ := e
      rw [put, valueAt?]
      by_cases same : sameKey k' k = true
      · have both : sameKey k' key = sameKey k key :=
          sameKey_comm.trans ((sameKey_congr same).trans sameKey_comm)
        rw [if_pos same, valueAt?, both]
        split
        · rfl
        · rfl
      · rw [if_neg same, valueAt?, ih]
        by_cases at_key : sameKey k' key = true
        · have other : ¬ sameKey k key = true := fun again =>
            same (sameKey_trans at_key (sameKey_comm.trans again))
          rw [if_pos at_key, if_neg other, if_pos at_key]
        · rw [if_neg at_key, if_neg at_key]

theorem valueAt?_of_new (new : ∀ k' ∈ keys es, sameKey k' k = false) : valueAt? es k = none := by
  cases found : valueAt? es k with
  | none => rfl
  | some v =>
      obtain ⟨k', mem, same⟩ := mem_of_valueAt? found
      cases (new k' (List.mem_map_of_mem mem)).symm.trans same

/-- Under each key the value of the layer is laid over that below. -/
theorem valueAt?_mergeLayer (distinct : DistinctKeys (keys layer)) :
    valueAt? (mergeLayer base layer) key = overlay (valueAt? base key) (valueAt? layer key) := by
  induction layer generalizing base with
  | nil =>
      rw [mergeLayer_nil]
      rfl
  | cons e layer ih =>
      obtain ⟨k, v⟩ := e
      rw [mergeLayer_cons, ih (List.pairwise_cons.1 distinct).2, valueAt?_put, valueAt?]
      by_cases same : sameKey k key = true
      · have later : valueAt? layer key = none := by
          refine valueAt?_of_new fun k' mem => Bool.eq_false_iff.2 fun again => ?_
          have differ := (List.pairwise_cons.1 distinct).1 k' mem
          cases differ.symm.trans (sameKey_trans same (sameKey_comm.trans again))
        rw [if_pos same, if_pos same, later, valueAt?_congr same]
        rfl
      · rw [if_neg same, if_neg same]

/-! ### One layer -/

/-- The step: at each path the value of the layer is laid over that below. -/
theorem settingAt?_mergeValue (keyed : v.Keyed) (agree : Agree u v) :
    settingAt? path (mergeValue (some u) v) = overlay (settingAt? path u) (settingAt? path v) := by
  induction path generalizing u v with
  | nil => rfl
  | cons key path ih =>
      have kind : u.isMapping = v.isMapping := agree [] u v rfl rfl
      cases mapping : v.isMapping with
      | false =>
          rw [mapping] at kind
          rw [mergeValue_of_no_object (isMapping_eq_false.1 mapping),
            settingAt?_of_no_object mapping, settingAt?_of_no_object kind]
          rfl
      | true =>
          rw [mapping] at kind
          obtain ⟨base, rfl⟩ := isMapping_eq_true.1 kind
          obtain ⟨layer, rfl⟩ := isMapping_eq_true.1 mapping
          rw [mergeValue_object, settingAt?, settingAt?, settingAt?,
            valueAt?_mergeLayer keyed.distinct]
          cases upper : valueAt? layer key with
          | none => rfl
          | some v =>
              cases lower : valueAt? base key with
              | none =>
                  rw [overlay, mergeValue_none]
                  cases at_path : settingAt? path v with
                  | none => simp [overlay, at_path]
                  | some w => simp [overlay, at_path]
              | some u =>
                  refine ih (keyed.valueAt? upper) fun rest a b at_a at_b => ?_
                  exact agree (key :: rest) a b (by rw [settingAt?, lower]; exact at_a)
                    (by rw [settingAt?, upper]; exact at_b)

/-- The layer's keys come behind those that are there. -/
theorem keys_mergeLayer :
    keys (mergeLayer base layer) = (keys layer).foldl addKey (keys base) := by
  induction layer generalizing base with
  | nil => rw [mergeLayer_nil]; rfl
  | cons e layer ih =>
      obtain ⟨k, v⟩ := e
      rw [mergeLayer_cons, ih, keys_put]
      rfl

theorem put_of_new (new : ∀ k' ∈ keys es, sameKey k' k = false) : put es k v = es ++ [(k, v)] := by
  induction es with
  | nil => rfl
  | cons e es ih =>
      obtain ⟨k', w⟩ := e
      obtain ⟨here, later⟩ := List.forall_mem_cons.1 new
      rw [put, if_neg (Bool.eq_false_iff.1 here), ih later]
      rfl

/-- What has only new keys is added as it is. -/
theorem mergeLayer_of_new (distinct : DistinctKeys (keys (base ++ layer))) :
    mergeLayer base layer = base ++ layer := by
  induction layer generalizing base with
  | nil => rw [mergeLayer_nil, List.append_nil]
  | cons e layer ih =>
      obtain ⟨k, v⟩ := e
      have new : ∀ k' ∈ keys base, sameKey k' k = false := by
        rw [keys, List.map_append] at distinct
        exact fun k' mem => (List.pairwise_append.1 distinct).2.2 k' mem k List.mem_cons_self
      rw [mergeLayer_cons, valueAt?_of_new new, mergeValue_none, put_of_new new]
      rw [ih (List.append_cons base _ _ ▸ distinct), ← List.append_cons]

/-- A layer laid over nothing is itself. -/
theorem mergeLayer_over_nothing (keyed : (Value.object layer).Keyed) :
    mergeLayer [] layer = layer :=
  mergeLayer_of_new keyed.distinct

/-! ### All layers -/

/-- What the layers have at a path, the lowest first. -/
def settingsAt (layers : List Entries) (path : List Scalar) : List Value :=
  layers.filterMap fun layer => settingAt? path (.object layer)

/-- The keys of an object. -/
def Value.keys : Value → List Scalar
  | .object es => Entries.keys es
  | _ => []

/-- The keys, each where it comes first. -/
def firstKeys (ks : List Scalar) : List Scalar := ks.foldl addKey []

/-- `Prevails found o`: `o` is what the values found in the layers, the lowest first, come to. -/
inductive Prevails : List Value → Option Value → Prop
  | nothing : Prevails [] none
  | setting {lower : List Value} {v : Value}
      (no_objects : ∀ w ∈ lower ++ [v], w.isMapping = false) : Prevails (lower ++ [v]) (some v)
  | mapping {found : List Value} {es : Entries} (there : found ≠ [])
      (objects : ∀ w ∈ found, w.isMapping = true)
      (keys : Entries.keys es = firstKeys (found.flatMap Value.keys)) :
      Prevails found (some (.object es))

/-- What prevails is of the kind of all that is found, and something is found. -/
theorem Prevails.kind (prevails : Prevails found (some v)) :
    found ≠ [] ∧ ∀ w ∈ found, w.isMapping = v.isMapping := by
  cases prevails with
  | setting no_objects =>
      have kind := no_objects v (by simp)
      exact ⟨by simp, fun w mem => (no_objects w mem).trans kind.symm⟩
  | mapping there objects keys => exact ⟨there, objects⟩

/-- Nothing prevails where nothing is found. -/
theorem Prevails.eq_none_iff (prevails : Prevails found above) : above = none ↔ found = [] := by
  cases prevails with
  | nothing => exact ⟨fun _ => rfl, fun _ => rfl⟩
  | setting no_objects => exact ⟨nofun, fun none => absurd none (by simp)⟩
  | mapping there => exact ⟨nofun, fun none => absurd none there⟩

/-- An object that prevails lists the keys of all that is found. -/
theorem Prevails.keys_eq (prevails : Prevails found (some (.object es))) :
    Entries.keys es = firstKeys (found.flatMap Value.keys) := by
  cases prevails with
  | setting no_objects => cases no_objects (.object es) (by simp)
  | mapping there objects keys => exact keys

/-- One value more is laid over what prevails. -/
theorem Prevails.concat (prevails : Prevails found below) (keyed : v.Keyed)
    (same : ∀ w ∈ found, w.isMapping = v.isMapping) :
    Prevails (found ++ [v]) (some (mergeValue below v)) := by
  have all {kind : Bool} (is_kind : v.isMapping = kind) :
      ∀ w ∈ found ++ [v], w.isMapping = kind := by
    intro w mem
    obtain lower | last := List.mem_append.1 mem
    · exact (same w lower).trans is_kind
    · rw [List.mem_singleton.1 last, is_kind]
  cases mapping : v.isMapping with
  | false =>
      rw [mergeValue_of_no_object (isMapping_eq_false.1 mapping)]
      exact .setting (all mapping)
  | true =>
      obtain ⟨layer, rfl⟩ := isMapping_eq_true.1 mapping
      have listed : ∀ base, keys base = firstKeys (found.flatMap Value.keys) →
          Prevails (found ++ [.object layer]) (some (.object (mergeLayer base layer))) := by
        intro base listed
        refine .mapping (by simp) (all mapping) ?_
        rw [keys_mergeLayer, listed, List.flatMap_append, firstKeys, firstKeys, List.foldl_append]
        simp [Value.keys]
      cases prevails with
      | nothing =>
          have alone := listed [] rfl
          rwa [mergeLayer_over_nothing keyed] at alone
      | @setting lower u no_objects =>
          have mem : u ∈ lower ++ [u] := by simp
          cases (no_objects u mem).symm.trans (same u mem)
      | mapping there objects keys => exact listed _ keys

theorem mem_settingsAt :
    v ∈ settingsAt layers path ↔ ∃ layer ∈ layers, settingAt? path (.object layer) = some v :=
  List.mem_filterMap

theorem settingsAt_concat : settingsAt (layers ++ [layer]) path
    = settingsAt layers path ++ (settingAt? path (.object layer)).toList := by
  cases found : settingAt? path (.object layer) with
  | none => simp [settingsAt, found]
  | some v => simp [settingsAt, found]

/-- The run: at each path there is what prevails of the layers. -/
theorem prevails_mergeLayers (keyed : ∀ layer ∈ base :: layers, (Value.object layer).Keyed)
    (agree : (base :: layers).Pairwise fun a b => Agree (.object a) (.object b))
    (path : List Scalar) : Prevails (settingsAt (base :: layers) path)
      (settingAt? path (.object (layers.foldl mergeLayer base))) := by
  induction layers using List.reverseRecOn generalizing path with
  | nil =>
      rw [List.foldl_nil, ← List.nil_append [base], settingsAt_concat]
      cases found : settingAt? path (.object base) with
      | none => exact .nothing
      | some v =>
          have keyed_v := (keyed base List.mem_cons_self).settingAt? found
          have alone := Prevails.nothing.concat keyed_v nofun
          rwa [mergeValue_none] at alone
  | append_singleton layers layer ih =>
      rw [← List.cons_append] at agree keyed ⊢
      obtain ⟨agree_lower, -, agree_over⟩ := List.pairwise_append.1 agree
      have agrees : ∀ l ∈ base :: layers, Agree (.object l) (.object layer) :=
        fun l mem => agree_over l mem layer List.mem_cons_self
      have keyed_layer : (Value.object layer).Keyed := keyed layer (by simp)
      have lower := ih (fun l mem => keyed l (List.mem_append_left _ mem)) agree_lower
      have agree_merged : Agree (.object (layers.foldl mergeLayer base)) (.object layer) := by
        intro path a b at_a at_b
        have prevails := lower path
        rw [at_a] at prevails
        obtain ⟨w, mem⟩ := List.exists_mem_of_ne_nil _ prevails.kind.1
        obtain ⟨l, at_l, here⟩ := mem_settingsAt.1 mem
        exact (prevails.kind.2 w mem).symm.trans (agrees l at_l path w b here at_b)
      rw [List.foldl_concat, ← mergeValue_object, settingAt?_mergeValue keyed_layer agree_merged,
        settingsAt_concat]
      cases found : settingAt? path (.object layer) with
      | none =>
          rw [overlay, Option.toList_none, List.append_nil]
          exact lower path
      | some v =>
          refine (lower path).concat (keyed_layer.settingAt? found) fun w mem => ?_
          obtain ⟨l, at_l, here⟩ := mem_settingsAt.1 mem
          exact agrees l at_l path w v here found

/-! ### The effective configuration -/

/-- What the last of the layers that have something other than an object at the path have there. -/
def lastSetting? (layers : List Entries) (path : List Scalar) : Option Value :=
  layers.reverse.findSome? fun layer =>
    (settingAt? path (.object layer)).filter fun v => !v.isMapping

theorem lastSetting?_eq :
    lastSetting? layers path
      = ((settingsAt layers path).filter fun v => !v.isMapping).getLast? := by
  rw [lastSetting?, ← List.head?_filterMap, List.filterMap_reverse, List.head?_reverse,
    settingsAt, List.filter_filterMap]

theorem Prevails.filter_eq (prevails : Prevails found above) :
    above.filter (fun v => !v.isMapping) = (found.filter fun v => !v.isMapping).getLast? := by
  cases prevails with
  | nothing => rfl
  | @setting lower v no_objects =>
      have all : (lower ++ [v]).filter (fun w => !w.isMapping) = lower ++ [v] :=
        List.filter_eq_self.2 fun w mem => by rw [no_objects w mem]; rfl
      have kept : (!v.isMapping) = true := by rw [no_objects v (by simp)]; rfl
      rw [all, List.getLast?_concat, Option.filter_some, if_pos kept]
  | mapping there objects =>
      have none : found.filter (fun w => !w.isMapping) = [] :=
        List.filter_eq_nil_iff.2 fun w mem => by simp [objects w mem]
      rw [none]
      rfl

theorem flatMap_keys_settingsAt : (settingsAt layers path).flatMap Value.keys
    = layers.flatMap fun layer => (settingAt? path (.object layer)).elim [] Value.keys := by
  induction layers with
  | nil => rfl
  | cons layer layers ih =>
      rw [settingsAt] at ih ⊢
      rw [List.flatMap_cons, ← ih]
      cases found : settingAt? path (.object layer) with
      | none => simp [found]
      | some v => simp [found]

/-- What is laid together from layers, the lowest first, follows their precedence.  At each path it
has the last setting that is no object; it has an object where a layer has one, and nothing where
no layer has anything; and an object lists the keys of the layers in order, each where it comes
first. -/
structure FollowsPrecedence (layers : List Entries) (merged : Entries) : Prop where
  setting : ∀ path v, v.isMapping = false →
    (settingAt? path (.object merged) = some v ↔ lastSetting? layers path = some v)
  mapping : ∀ path, (∃ es, settingAt? path (.object merged) = some (.object es)) ↔
    ∃ layer ∈ layers, ∃ es, settingAt? path (.object layer) = some (.object es)
  absent : ∀ path, settingAt? path (.object merged) = none ↔
    ∀ layer ∈ layers, settingAt? path (.object layer) = none
  order : ∀ path es, settingAt? path (.object merged) = some (.object es) →
    keys es = firstKeys
      (layers.flatMap fun layer => (settingAt? path (.object layer)).elim [] Value.keys)

/-- Layers that agree are laid together by precedence. -/
theorem followsPrecedence_mergeLayers
    (keyed : ∀ layer ∈ base :: layers, (Value.object layer).Keyed)
    (agree : (base :: layers).Pairwise fun a b => Agree (.object a) (.object b)) :
    FollowsPrecedence (base :: layers) (layers.foldl mergeLayer base) where
  setting path v no_object := by
    rw [lastSetting?_eq, ← (prevails_mergeLayers keyed agree path).filter_eq, Option.filter_eq_some_iff,
      no_object]
    simp
  mapping path := by
    have prevails := prevails_mergeLayers keyed agree path
    constructor
    · rintro ⟨es, at_path⟩
      rw [at_path] at prevails
      obtain ⟨w, mem⟩ := List.exists_mem_of_ne_nil _ prevails.kind.1
      obtain ⟨es', rfl⟩ := isMapping_eq_true.1 (prevails.kind.2 w mem)
      obtain ⟨layer, at_layer, found⟩ := mem_settingsAt.1 mem
      exact ⟨layer, at_layer, es', found⟩
    · rintro ⟨layer, at_layer, es, found⟩
      have mem := mem_settingsAt.2 ⟨layer, at_layer, found⟩
      cases at_path : settingAt? path (.object (layers.foldl mergeLayer base)) with
      | none =>
          rw [prevails.eq_none_iff.1 at_path] at mem
          cases mem
      | some v =>
          rw [at_path] at prevails
          obtain ⟨es', rfl⟩ := isMapping_eq_true.1 (prevails.kind.2 _ mem).symm
          exact ⟨es', rfl⟩
  absent path := by
    rw [(prevails_mergeLayers keyed agree path).eq_none_iff, settingsAt, List.filterMap_eq_nil_iff]
  order path es at_path := by
    have prevails := prevails_mergeLayers keyed agree path
    rw [at_path] at prevails
    rw [← flatMap_keys_settingsAt]
    exact prevails.keys_eq

/-- The layers of the configuration, the lowest first. -/
def configLayers (global : EngineConfig) (project : Option Entries) (given asked : Entries) :
    List Entries :=
  [global.entries, project.getD [], given, asked]

section Resolving

variable {app : Application} {h : Host} {files : ConfigFiles} {environment : Option Environment}
  {g : Anchors} {overrides : Value} {global : EngineConfig} {project : Option Entries}
  {given asked : Entries}
  (from_global : loadGlobal app h files = .ok global)
  (from_project : loadProject app h files = .ok project)
  (from_environment : environmentLayer app (environment.getD h.environment) = .ok given)
  (from_caller : overridesLayer g overrides = .ok asked)

include from_global from_project from_environment from_caller

/-- The configuration is what the layers together are read as. -/
theorem resolveConfig_eq_ok {c : EngineConfig} :
    (resolveConfig app h files environment g overrides).result = .ok c
      ↔ EngineConfig.ofEntries {} (resolvedEntries global (project.getD []) given asked)
        = .valid c := by
  have read_next {α β : Type} {x : Except Failure α} {a : α} {f : α → Traced β} (read : x = .ok a) :
      (Traced.ofExcept x >>= f).result = (f a).result := by
    rw [Traced.result_bind, Traced.result_ofExcept, read]
    rfl
  have noted {rest : Traced EngineConfig} : (if project.isSome then do
      Traced.note (.projectApplied h.workDirectory)
      rest
    else rest).result = rest.result := by
    split
    · rfl
    · rfl
  rw [resolveConfig, read_next from_global, read_next from_project, noted,
    read_next from_environment, read_next from_caller]
  cases EngineConfig.ofEntries {} (resolvedEntries global (project.getD []) given asked) with
  | valid c' => simp
  | faulty faults => simp

/-- **Precedence.**  Before it is checked, the configuration is laid together from the global one,
the project's, the environment's and the caller's by precedence, where these layers agree. -/
theorem resolveConfig_precedence (keyed : (Value.object asked).Keyed)
    (agree : (configLayers global project given asked).Pairwise
      fun a b => Agree (.object a) (.object b)) :
    (∀ c, (resolveConfig app h files environment g overrides).result = .ok c
      ↔ EngineConfig.ofEntries {} (resolvedEntries global (project.getD []) given asked)
        = .valid c)
      ∧ FollowsPrecedence (configLayers global project given asked)
          (resolvedEntries global (project.getD []) given asked) := by
  refine ⟨fun c => resolveConfig_eq_ok from_global from_project from_environment from_caller, ?_⟩
  have keyed_global := keyed_loadGlobal from_global
  have each : ∀ layer ∈ configLayers global project given asked, (Value.object layer).Keyed := by
    simp only [configLayers, List.forall_mem_cons]
    exact ⟨keyed_global, keyed_loadProject from_project, keyed_environmentLayer from_environment,
      keyed, nofun⟩
  rw [resolvedEntries, mergeLayers, List.foldl_cons, mergeLayer_over_nothing keyed_global]
  exact followsPrecedence_mergeLayers each agree

end Resolving

/-- A tool, and where it runs. -/
def toolApplication : Application := ⟨"tool", "TOOL_"⟩

@[inherit_doc toolApplication] def toolHost : Host :=
  ⟨"Linux", "/home/ann", "/work", [("TOOL_VALIDATION_STRICT", "yes"), ("TOOL_MOCK_SEED", "3")]⟩

/-- The files of the tool.  The team and the level are no settings of the engine. -/
def toolFiles : ConfigFiles where
  global? := some "\x7b\"mock\": \x7b\"seed\": 1\x7d, \"team\": \"tools\"\x7d"
  project? := some "\x7b\"validation\": \x7b\"strict\": false, \"level\": 2\x7d\x7d"

/-- The layers of the tool: the global one, the project's, the environment's and the caller's. -/
def toolGlobal : EngineConfig :=
  { mock := { seed := some 1 }, more := [(.string "team", .string "tools")] }

@[inherit_doc toolGlobal] def toolProject : Entries :=
  [(.string "validation", .object [(.string "strict", .bool false), (.string "level", .int 2)])]

@[inherit_doc toolGlobal] def toolGiven : Entries :=
  [(.string "validation", .object [(.string "strict", .bool true)]),
   (.string "mock", .object [(.string "seed", .int 3)])]

@[inherit_doc toolGlobal] def toolAsked : Entries := nestedAt ["mock", "seed"] .null

/-- The layers of the tool, the lowest first. -/
def toolLayers : List Entries := configLayers toolGlobal (some toolProject) toolGiven toolAsked

theorem resolveConfig_precedence_tool :
    loadGlobal toolApplication toolHost toolFiles = .ok toolGlobal
      ∧ loadProject toolApplication toolHost toolFiles = .ok (some toolProject)
      ∧ environmentLayer toolApplication toolHost.environment = .ok toolGiven
      ∧ overridesLayer {} (.object toolAsked) = .ok toolAsked
      ∧ (Value.object toolAsked).Keyed
      ∧ toolLayers.Pairwise (fun a b => Agree (.object a) (.object b))
      ∧ (∀ c, (resolveConfig toolApplication toolHost toolFiles none {} (.object toolAsked)).result
          = .ok c
        ↔ EngineConfig.ofEntries {} (resolvedEntries toolGlobal toolProject toolGiven toolAsked)
          = .valid c)
      ∧ FollowsPrecedence toolLayers
          (resolvedEntries toolGlobal toolProject toolGiven toolAsked) := by
  have from_global : loadGlobal toolApplication toolHost toolFiles = .ok toolGlobal := by cbv
  have from_project : loadProject toolApplication toolHost toolFiles = .ok (some toolProject) := by
    cbv
  have from_environment :
      environmentLayer toolApplication toolHost.environment = .ok toolGiven := by cbv
  have from_caller : overridesLayer {} (.object toolAsked) = .ok toolAsked := by cbv
  have keyed : (Value.object toolAsked).Keyed := keyed_nestedAt (.scalar _) _
  have agree : toolLayers.Pairwise fun a b => Agree (.object a) (.object b) :=
    List.Pairwise.imp agree_of_agrees (by decide)
  exact ⟨from_global, from_project, from_environment, from_caller, keyed, agree,
    resolveConfig_precedence from_global from_project from_environment from_caller keyed agree⟩

end SchemaCodegen
