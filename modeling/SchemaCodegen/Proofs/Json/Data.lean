import SchemaCodegen.Json.Writer
import SchemaCodegen.Proofs.Data.Tree
import SchemaCodegen.Proofs.Traced

/-!
# JSON data

What a JSON text says is a tree of truth values, numbers and texts, of lists, and of objects
whose keys are texts (`Value.isJson`).  Such data has a JSON text again, in every layout
(`exists_write`), whereas a date, a byte string or a container inside itself has none.
-/

namespace SchemaCodegen

variable {g : Anchors} {es : Entries} {xs : List Value} {v : Value} {key : String}

/-- Data without parts that JSON can say. -/
def Scalar.isJson : Scalar → Bool
  | .null | .bool _ | .int _ | .float _ | .string _ => true
  | .date _ | .timestamp _ | .bytes _ => false

mutual

/-- The value is JSON data. -/
def Value.isJson : Value → Bool
  | .scalar s => s.isJson
  | .list xs => Value.areJson xs
  | .object es => Value.haveJson es
  | .set _ | .pair _ _ | .aliasTo _ => false

/-- All items are JSON data. -/
def Value.areJson : List Value → Bool
  | [] => true
  | v :: rest => v.isJson && areJson rest

/-- All keys are texts, and all values JSON data. -/
def Value.haveJson : List (Scalar × Value) → Bool
  | [] => true
  | (k, v) :: rest => (Value.scalar k).string?.isSome && v.isJson && haveJson rest

end

/-! ### Parts -/

theorem areJson_iff : Value.areJson xs = true ↔ ∀ x ∈ xs, x.isJson = true := by
  induction xs with
  | nil => simp [Value.areJson]
  | cons x xs ih => simp [Value.areJson, ih]

theorem haveJson_iff : Value.haveJson es = true
    ↔ ∀ e ∈ es, (Value.scalar e.1).string?.isSome = true ∧ e.2.isJson = true := by
  induction es with
  | nil => simp [Value.haveJson]
  | cons e es ih => simp [Value.haveJson, ih]

mutual

/-- JSON data is a tree. -/
theorem isTree_of_isJson : (v : Value) → v.isJson = true → v.isTree = true
  | .scalar _, _ => rfl
  | .list xs, json => areTrees_of_areJson xs json
  | .object es, json => haveTrees_of_haveJson es json

theorem areTrees_of_areJson : (xs : List Value) → Value.areJson xs = true →
    Value.areTrees xs = true
  | [], _ => rfl
  | v :: rest, json => by
      rw [Value.areJson, Bool.and_eq_true] at json
      rw [Value.areTrees, isTree_of_isJson v json.1, areTrees_of_areJson rest json.2]
      rfl

theorem haveTrees_of_haveJson : (es : List (Scalar × Value)) → Value.haveJson es = true →
    Value.haveTrees es = true
  | [], _ => rfl
  | (k, v) :: rest, json => by
      rw [Value.haveJson, Bool.and_eq_true, Bool.and_eq_true] at json
      rw [Value.haveTrees, isTree_of_isJson v json.1.2, haveTrees_of_haveJson rest json.2]
      rfl

end

/-- The parts of JSON data are JSON data. -/
theorem PartOf.isJson {u : Value} (part : PartOf g v u) (json : v.isJson = true) :
    u.isJson = true := by
  have tree := isTree_of_isJson v json
  obtain ⟨xs, items, mem⟩ | ⟨es, key, entries, mem⟩ := part
  · rw [eq_list_of_items? tree items, Value.isJson] at json
    exact areJson_iff.1 json u mem
  · rw [eq_object_of_entries? tree entries, Value.isJson] at json
    exact (haveJson_iff.1 json _ mem).2

/-! ### Texts -/

/-- A scalar of JSON data has a text. -/
theorem exists_scalarText (style : Json.Style) {s : Scalar} (json : s.isJson = true) :
    ∃ text, Json.scalarText style s = .ok text := by
  cases s <;> first | exact ⟨_, rfl⟩ | cases json

mutual

/-- JSON data has a text at every depth. -/
theorem exists_valueText (style : Json.Style) (level : Nat) : (v : Value) → v.isJson = true →
    ∃ text, Json.valueText style level v = .ok text
  | .scalar _, json => exists_scalarText style json
  | .list xs, json => by
      obtain ⟨parts, inner⟩ := exists_itemTexts style (level + 1) xs json
      exact ⟨_, bind_eq_ok.2 ⟨parts, inner, rfl⟩⟩
  | .object es, json => by
      obtain ⟨parts, inner⟩ := exists_entryTexts style (level + 1) es json
      exact ⟨_, bind_eq_ok.2 ⟨parts, inner, rfl⟩⟩

theorem exists_itemTexts (style : Json.Style) (level : Nat) : (xs : List Value) →
    Value.areJson xs = true → ∃ texts, Json.itemTexts style level xs = .ok texts
  | [], _ => ⟨[], rfl⟩
  | v :: rest, json => by
      rw [Value.areJson, Bool.and_eq_true] at json
      obtain ⟨text, first⟩ := exists_valueText style level v json.1
      obtain ⟨texts, later⟩ := exists_itemTexts style level rest json.2
      exact ⟨_, bind_eq_ok.2 ⟨text, first, bind_eq_ok.2 ⟨texts, later, rfl⟩⟩⟩

theorem exists_entryTexts (style : Json.Style) (level : Nat) : (es : List (Scalar × Value)) →
    Value.haveJson es = true → ∃ texts, Json.entryTexts style level es = .ok texts
  | [], _ => ⟨[], rfl⟩
  | (.string key, v) :: rest, json => by
      rw [Value.haveJson, Bool.and_eq_true, Bool.and_eq_true] at json
      obtain ⟨text, first⟩ := exists_valueText style level v json.1.2
      obtain ⟨texts, later⟩ := exists_entryTexts style level rest json.2
      exact ⟨_, bind_eq_ok.2 ⟨_, rfl, bind_eq_ok.2 ⟨text, first, bind_eq_ok.2 ⟨texts, later, rfl⟩⟩⟩⟩

end

/-- **JSON data can be written** as JSON. -/
theorem exists_write (style : Json.Style) (g : Anchors) (json : v.isJson = true) :
    ∃ text, Json.write style g v = .ok text := by
  rw [Json.write, unshare_of_isTree (isTree_of_isJson v json)]
  exact exists_valueText style 0 v json

end SchemaCodegen
