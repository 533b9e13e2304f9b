import Mathlib.Logic.Relation
import SchemaCodegen.Reference.Occurrences

/-!
# References at any depth

`Anchors.references` walks over a copy of the data in which nothing is shared.  The copy
ends where a container is met inside itself, so a way through the data that goes round in a
circle has no counterpart in it.  Nothing is lost by that: a reference that a value holds at
any depth (`Holds`), reached in whatever way, is found (`Holds.mem_references`), and nothing
else is (`mem_references_iff`).

### What is load-bearing

A way to an object that enters an anchor again can be cut to what comes behind its **last
visit** of the anchor (`exists_last_visit`).  So it suffices to follow ways that keep clear
of the anchors entered before (`Fresh`), and on those the copy never ends early.
-/

namespace SchemaCodegen

open Relation

variable {g : Anchors} {u v w : Value} {seen : List Nat} {ref : String}

/-! ### Inside a value -/

/-- `PartOf g v u`: the value `u` is an item of the list `v` or stands under a key of the
object `v`. -/
def PartOf (g : Anchors) (v u : Value) : Prop :=
  (∃ xs, g.items? v = some xs ∧ u ∈ xs) ∨ ∃ es key, g.entries? v = some es ∧ (key, u) ∈ es

/-- `Inside g v u`: the value `u` can be reached from `v` by going on to parts. -/
def Inside (g : Anchors) : Value → Value → Prop := ReflTransGen (PartOf g)

/-- `Refers g v ref`: the value `v` is an object with the reference `ref`. -/
def Refers (g : Anchors) (v : Value) (ref : String) : Prop :=
  ∃ es, g.entries? v = some es ∧ Entries.string? es "$ref" = some ref

/-- `Holds g v ref`: the reference `ref` occurs inside the value `v`, at any depth. -/
def Holds (g : Anchors) (v : Value) (ref : String) : Prop := ∃ u, Inside g v u ∧ Refers g u ref

/-- What a part holds is held. -/
theorem Holds.of_part (part : PartOf g v w) (holds : Holds g w ref) : Holds g v ref := by
  obtain ⟨u, inside, refers⟩ := holds
  exact ⟨u, inside.head part, refers⟩

/-- What is seen is seen as it is. -/
theorem Anchors.look_look (g : Anchors) (v : Value) : g.look (g.look v) = g.look v := by
  cases seen : g.look v with
  | aliasTo n => exact absurd seen (g.look_ne_alias v n)
  | _ => rfl

theorem look_of_container? {n : Nat} {c : Container} (found : g.container? n = some c) :
    g.look (.aliasTo n) = c.value := by
  rw [Anchors.look, found]
  rfl

theorem items?_eq_some {xs : List Value} : g.items? v = some xs ↔ g.look v = .list xs := by
  unfold Anchors.items?
  cases g.look v <;> simp

theorem entries?_eq_some {es : Entries} : g.entries? v = some es ↔ g.look v = .object es := by
  unfold Anchors.entries?
  cases g.look v <;> simp

/-- A stored container has the parts of its alias. -/
theorem partOf_look : PartOf g (g.look v) u ↔ PartOf g v u := by
  unfold PartOf Anchors.items? Anchors.entries?
  rw [g.look_look]

/-- A stored container has the reference of its alias. -/
theorem refers_look : Refers g (g.look v) ref ↔ Refers g v ref := by
  unfold Refers Anchors.entries?
  rw [g.look_look]

/-- What a stored container holds is held by its alias. -/
theorem Holds.of_look (holds : Holds g (g.look v) ref) : Holds g v ref := by
  obtain ⟨u, inside, refers⟩ := holds
  obtain rfl | ⟨first, part, rest⟩ := inside.cases_head
  · exact ⟨v, .refl, refers_look.1 refers⟩
  · exact ⟨u, .head (partOf_look.1 part) rest, refers⟩

/-! ### The copy -/

theorem expandItems_eq_map (xs : List Value) :
    g.expandItems seen xs = xs.map (g.expand seen) := by
  induction xs with
  | nil => rw [Anchors.expandItems, List.map_nil]
  | cons v xs ih => rw [Anchors.expandItems, ih, List.map_cons]

theorem expandEntries_eq_map (es : Entries) :
    g.expandEntries seen es = es.map fun e => (e.1, g.expand seen e.2) := by
  induction es with
  | nil => rw [Anchors.expandEntries, List.map_nil]
  | cons e es ih => rw [Anchors.expandEntries, ih, List.map_cons]

/-- The copy of an alias that is entered for the first time is that of its container. -/
theorem expand_alias {n : Nat} {c : Container} (found : g.container? n = some c)
    (new : n ∉ seen) : g.expand seen (.aliasTo n) = g.expand (n :: seen) c.value := by
  rw [Anchors.expand]
  split
  · next none_found => rw [found] at none_found; cases none_found
  · next c' found' =>
      rw [found] at found'
      cases found'
      rw [if_neg new]

/-- The alias of a container that is entered already, or of none, stays. -/
theorem expand_alias_of_kept {n : Nat} (kept : g.container? n = none ∨ n ∈ seen) :
    g.expand seen (.aliasTo n) = .aliasTo n := by
  rw [Anchors.expand]
  split
  · rfl
  · next c found =>
      obtain missing | mem := kept
      · cases missing.symm.trans found
      · rw [if_pos mem]

/-- Induction along the copy: an alias stays, or its container is entered for the first time, and
any other data is copied part by part. -/
theorem expand_induct {motive : List Nat → Value → Prop}
    (scalar : ∀ seen s, motive seen (.scalar s)) (set : ∀ seen xs, motive seen (.set xs))
    (kept : ∀ seen n, g.container? n = none ∨ n ∈ seen → motive seen (.aliasTo n))
    (entered : ∀ seen n c, g.container? n = some c → n ∉ seen → motive (n :: seen) c.value →
      motive seen (.aliasTo n))
    (pair : ∀ seen a b, motive seen a → motive seen b → motive seen (.pair a b))
    (list : ∀ seen xs, (∀ x ∈ xs, motive seen x) → motive seen (.list xs))
    (object : ∀ seen es, (∀ e ∈ es, motive seen e.2) → motive seen (.object es))
    (seen : List Nat) (v : Value) : motive seen v := by
  induction left : g.unseen seen using Nat.strongRecOn generalizing seen v with
  | _ left entering =>
      subst left
      induction weight : v.weight using Nat.strongRecOn generalizing v with
      | _ weight lighter =>
          subst weight
          cases v with
          | scalar s => exact scalar seen s
          | set xs => exact set seen xs
          | aliasTo n =>
              cases found : g.container? n with
              | none => exact kept seen n (.inl found)
              | some c =>
                  by_cases mem : n ∈ seen
                  · exact kept seen n (.inr mem)
                  · have left := Anchors.unseen_cons_lt (Anchors.lt_size_of_container? found) mem
                    exact entered seen n c found mem (entering _ left _ _ rfl)
          | pair a b =>
              have whole : (Value.pair a b).weight = a.weight + b.weight + 1 := by rw [Value.weight]
              exact pair seen a b (lighter _ (by omega) a rfl) (lighter _ (by omega) b rfl)
          | list xs =>
              refine list seen xs fun x mem => lighter _ ?_ x rfl
              rw [Value.weight]
              exact Nat.lt_succ_of_le (Value.weight_le_weights mem)
          | object es =>
              refine object seen es fun e mem => lighter _ ?_ e.2 rfl
              rw [Value.weight]
              exact Nat.lt_succ_of_le (Value.weight_le_entryWeights mem)

/-- A stored container is copied to no scalar. -/
theorem expand_container_ne_scalar (c : Container) (s : Scalar) :
    g.expand seen c.value ≠ .scalar s := by
  cases c with
  | _ =>
      rw [Container.value, Anchors.expand]
      intro same
      cases same

/-- What has no parts is its own copy, and nothing else is copied to it. -/
theorem expand_eq_scalar {s : Scalar} : g.expand seen v = .scalar s ↔ v = .scalar s := by
  cases v with
  | scalar t | set xs => rw [Anchors.expand]
  | aliasTo n =>
      refine ⟨fun same => ?_, fun same => by cases same⟩
      by_cases kept : g.container? n = none ∨ n ∈ seen
      · rw [expand_alias_of_kept kept] at same
        cases same
      · obtain ⟨present, new⟩ := not_or.1 kept
        obtain ⟨c, found⟩ := Option.ne_none_iff_exists'.1 present
        rw [expand_alias found new] at same
        exact absurd same (expand_container_ne_scalar c s)
  | _ =>
      rw [Anchors.expand]
      constructor <;>
      · intro same
        cases same

/-- What is read off data without parts alone is read off its copy. -/
theorem apply_expand {α : Type} {f : Value → α} {other : α}
    (of_scalar : ∀ v, (∃ s, v = .scalar s) ∨ f v = other) : f (g.expand seen v) = f v := by
  obtain ⟨s, rfl⟩ | here := of_scalar v
  · rw [expand_eq_scalar.2 rfl]
  · obtain ⟨s, copy⟩ | there := of_scalar (g.expand seen v)
    · rw [expand_eq_scalar.1 copy, expand_eq_scalar.2 rfl]
    · rw [here, there]

theorem string?_expand : (g.expand seen v).string? = v.string? :=
  apply_expand fun
    | .scalar s => .inl ⟨s, rfl⟩
    | .set _ | .pair _ _ | .list _ | .object _ | .aliasTo _ => .inr rfl

/-- What stands under a key of the copy is the copy of what stands there. -/
theorem get?_expandEntries {es : Entries} {key : String} :
    Entries.get? (g.expandEntries seen es) key = (Entries.get? es key).map (g.expand seen) := by
  rw [expandEntries_eq_map]
  induction es with
  | nil => rfl
  | cons e es ih =>
      obtain ⟨k, v⟩ := e
      rw [List.map_cons, Entries.get?_cons, Entries.get?_cons]
      split
      · rfl
      · exact ih

/-- The copy of an object has its texts. -/
theorem string?_expandEntries {es : Entries} {key : String} :
    Entries.string? (g.expandEntries seen es) key = Entries.string? es key := by
  unfold Entries.string?
  rw [get?_expandEntries]
  cases Entries.get? es key with
  | none => rfl
  | some v => exact string?_expand

/-! ### References of the copy -/

theorem mem_itemReferences {xs : List Value} :
    ref ∈ Value.itemReferences xs ↔ ∃ v ∈ xs, ref ∈ v.references := by
  induction xs with
  | nil => simp [Value.itemReferences]
  | cons v xs ih => simp [Value.itemReferences, ih]

theorem mem_entryReferences {es : Entries} :
    ref ∈ Value.entryReferences es ↔ ∃ e ∈ es, ref ∈ e.2.references := by
  induction es with
  | nil => simp [Value.entryReferences]
  | cons e es ih => simp [Value.entryReferences, ih]

/-- The reference of an object is found in its copy. -/
theorem mem_references_own (plain : ∀ n, v ≠ .aliasTo n) (refers : Refers g v ref) :
    ref ∈ (g.expand seen v).references := by
  obtain ⟨es, entries, found⟩ := refers
  cases v with
  | object fs =>
      cases entries
      rw [Anchors.expand, Value.references, string?_expandEntries, found]
      exact List.mem_append_left _ List.mem_cons_self
  | aliasTo n => exact absurd rfl (plain n)
  | _ => cases entries

/-- What is found in the copy of a part is found in the copy. -/
theorem mem_references_part (plain : ∀ n, v ≠ .aliasTo n) (part : PartOf g v w)
    (mem : ref ∈ (g.expand seen w).references) : ref ∈ (g.expand seen v).references := by
  cases v with
  | list xs =>
      obtain ⟨_, items, at_item⟩ | ⟨_, _, entries, -⟩ := part
      · cases items
        rw [Anchors.expand, Value.references, expandItems_eq_map, mem_itemReferences]
        exact ⟨_, List.mem_map_of_mem at_item, mem⟩
      · cases entries
  | object es =>
      obtain ⟨_, items, -⟩ | ⟨_, key, entries, at_key⟩ := part
      · cases items
      · cases entries
        rw [Anchors.expand, Value.references, expandEntries_eq_map]
        refine List.mem_append_right _ (mem_entryReferences.2 ?_)
        exact ⟨_, List.mem_map_of_mem at_key, mem⟩
  | aliasTo n => exact absurd rfl (plain n)
  | _ => obtain ⟨_, items, -⟩ | ⟨_, _, entries, -⟩ := part <;> contradiction

/-! ### Ways that meet no anchor twice -/

/-- A walk that comes back to where it starts can be cut to what comes behind its last
visit there. -/
theorem exists_last_visit {α : Type} {R : α → α → Prop} {a b : α} (walk : ReflTransGen R a b) :
    b = a ∨ ∃ c, R a c ∧ c ≠ a ∧ ReflTransGen (fun x y => R x y ∧ y ≠ a) c b := by
  induction walk with
  | refl => exact .inl rfl
  | @tail b c _ step ih =>
      by_cases back : c = a
      · exact .inl back
      · refine .inr ?_
        obtain same | ⟨first, step_first, ne, rest⟩ := ih
        · exact ⟨c, same ▸ step, back, .refl⟩
        · exact ⟨first, step_first, ne, rest.tail ⟨step, back⟩⟩

/-- The value is none of the anchors that are entered. -/
def Fresh (seen : List Nat) (v : Value) : Prop := ∀ n ∈ seen, v ≠ .aliasTo n

/-- A step to a part that is none of the anchors entered. -/
def FreshPart (g : Anchors) (seen : List Nat) (v u : Value) : Prop := PartOf g v u ∧ Fresh seen u

theorem fresh_cons {n : Nat} (new : v ≠ .aliasTo n) (fresh : Fresh seen v) :
    Fresh (n :: seen) v := by
  intro m mem
  obtain rfl | mem := List.mem_cons.1 mem
  · exact new
  · exact fresh m mem

/-- From an alias to what is inside its container, one more anchor is kept clear of. -/
theorem freshPart_from_container {n : Nat} (walk : ReflTransGen (FreshPart g seen) (.aliasTo n) u)
    (refers : Refers g u ref) :
    ∃ u', Refers g u' ref
      ∧ ReflTransGen (FreshPart g (n :: seen)) (g.look (.aliasTo n)) u' := by
  obtain rfl | ⟨first, ⟨part, fresh⟩, ne, rest⟩ := exists_last_visit walk
  · exact ⟨_, refers_look.2 refers, .refl⟩
  · refine ⟨u, refers, .head ⟨partOf_look.2 part, fresh_cons ne fresh⟩ ?_⟩
    refine ReflTransGen.mono ?_ _ _ rest
    rintro x y ⟨⟨part, fresh⟩, ne⟩
    exact ⟨part, fresh_cons ne fresh⟩

/-- Nothing is inside an alias without a container. -/
theorem container_of_walk {n : Nat} (walk : ReflTransGen (FreshPart g seen) (.aliasTo n) u)
    (refers : Refers g u ref) : ∃ c, g.container? n = some c ∧ g.look (.aliasTo n) = c.value := by
  cases found : g.container? n with
  | some c => exact ⟨c, rfl, look_of_container? found⟩
  | none =>
      exfalso
      have nothing : g.look (.aliasTo n) = .null := by simp [Anchors.look, found]
      obtain ⟨u', refers, rest⟩ := freshPart_from_container walk refers
      rw [nothing] at rest
      obtain rfl | ⟨_, ⟨part, -⟩, -⟩ := rest.cases_head
      · obtain ⟨_, entries, -⟩ := refers
        cases entries
      · obtain ⟨_, items, -⟩ | ⟨_, _, entries, -⟩ := part
        · cases items
        · cases entries

/-- A value is an alias or it is not. -/
theorem alias_or_plain (v : Value) : (∃ n, v = .aliasTo n) ∨ ∀ n, v ≠ .aliasTo n := by
  cases v with
  | aliasTo n => exact .inl ⟨n, rfl⟩
  | _ => exact .inr fun _ => nofun

/-- A reference behind a way that keeps clear of the anchors entered is found in the copy
below them. -/
theorem mem_references_expand (fresh : Fresh seen v) (walk : ReflTransGen (FreshPart g seen) v u)
    (refers : Refers g u ref) : ref ∈ (g.expand seen v).references := by
  -- Entering an anchor starts over with fewer anchors left; any other step shortens the way.
  induction left : g.unseen seen using Nat.strongRecOn generalizing seen v u with
  | _ left inner =>
      subst left
      have behind_alias (n : Nat) (fresh : Fresh seen (.aliasTo n))
          (walk : ReflTransGen (FreshPart g seen) (.aliasTo n) u) :
          ref ∈ (g.expand seen (.aliasTo n)).references := by
        have new : n ∉ seen := fun mem => fresh n mem rfl
        obtain ⟨c, found, same⟩ := container_of_walk walk refers
        obtain ⟨u', refers', rest⟩ := freshPart_from_container walk refers
        rw [same] at rest
        rw [expand_alias found new]
        refine inner _ (Anchors.unseen_cons_lt (Anchors.lt_size_of_container? found) new)
          ?_ rest refers' rfl
        exact fun m _ => c.value_ne_alias m
      induction walk using ReflTransGen.head_induction_on with
      | refl =>
          obtain ⟨n, rfl⟩ | plain := alias_or_plain u
          · exact behind_alias n fresh .refl
          · exact mem_references_own plain refers
      | @head v w step rest ih =>
          obtain ⟨n, rfl⟩ | plain := alias_or_plain v
          · exact behind_alias n fresh (.head step rest)
          · exact mem_references_part plain step.1 (ih step.2)

/-- A reference that a value holds at any depth is among its references. -/
theorem Holds.mem_references (holds : Holds g v ref) : ref ∈ g.references v := by
  obtain ⟨u, inside, refers⟩ := holds
  refine mem_references_expand (fun _ mem => absurd mem List.not_mem_nil) ?_ refers
  exact ReflTransGen.mono
    (fun _ _ part => ⟨part, fun _ mem => absurd mem List.not_mem_nil⟩) _ _ inside

/-! ### Nothing but what is held -/

/-- A reference that is found in a copy is held by the data. -/
theorem holds_of_mem_references (mem : ref ∈ (g.expand seen v).references) : Holds g v ref := by
  induction seen, v using expand_induct (g := g) with
  | scalar seen s | set seen xs | pair seen a b =>
      rw [Anchors.expand] at mem
      cases mem
  | kept seen n stays =>
      rw [expand_alias_of_kept stays] at mem
      cases mem
  | entered seen n c found new ih =>
      rw [expand_alias found new] at mem
      refine .of_look ?_
      rw [look_of_container? found]
      exact ih mem
  | list seen xs ih =>
      rw [Anchors.expand, Value.references, expandItems_eq_map, mem_itemReferences] at mem
      obtain ⟨copy, at_copy, mem⟩ := mem
      obtain ⟨x, at_x, rfl⟩ := List.mem_map.1 at_copy
      exact .of_part (.inl ⟨xs, rfl, at_x⟩) (ih x at_x mem)
  | object seen es ih =>
      rw [Anchors.expand, Value.references, List.mem_append] at mem
      obtain own | inner := mem
      · rw [string?_expandEntries, Option.mem_toList] at own
        exact ⟨_, .refl, es, rfl, own⟩
      · rw [expandEntries_eq_map, mem_entryReferences] at inner
        obtain ⟨copy, at_copy, mem⟩ := inner
        obtain ⟨e, at_e, rfl⟩ := List.mem_map.1 at_copy
        exact .of_part (.inr ⟨es, e.1, rfl, at_e⟩) (ih e at_e mem)

/-- **The references of data**, in which containers may be shared and may contain themselves, are
the texts under `$ref` in the objects that can be reached through lists and objects. -/
theorem mem_references_iff (g : Anchors) (v : Value) (ref : String) :
    ref ∈ g.references v ↔ ∃ u, Inside g v u ∧ Refers g u ref :=
  ⟨holds_of_mem_references, Holds.mem_references⟩

end SchemaCodegen
