import SchemaCodegen.Proofs.Reference.Places
import SchemaCodegen.Proofs.Descent

/-!
# What references refer to

A pointer goes on from a value to one of its parts at a time, and a look-up by name takes one
such step (`of_locate`).  So whatever a reference resolves to is inside the document
(`inside_of_resolve`), at the place that it is located at (`stands_of_locate`).  A chain of
references therefore never leaves the document either (`of_followReference`), and the
schema at its end is an object and no reference.

Looking up a reference may fail on an index that is no number, but never for want of depth.
-/

namespace SchemaCodegen

open Relation

variable {g : Anchors} {v t document : Value} {roots : List Value} {ref : String}

/-! ### One reference -/

theorem eq_of_present {l found : Located} (h : l.present = some found) : l = found := by
  unfold Located.present at h
  split at h
  · cases h
  · exact Option.some.inj h

section Located

variable {P : Located → Prop} {l next : Located}
  (parts : ∀ l i u, P l → g.partAt? l.value i = some u → P (l.part i u))

include parts

/-- What holds of an object holds of the value found under a key. -/
theorem of_under? {es : Entries} {key : String} (holds : P l)
    (entries : g.entries? l.value = some es) (h : l.under? 0 es key = some next) : P next := by
  have numbered (i : Nat) (fs : Entries) (h : l.under? i fs key = some next) :
      ∃ j k u, fs[j]? = some (k, u) ∧ next = l.part (i + j) u := by
    induction fs generalizing i with
    | nil => cases h
    | cons e fs ih =>
        obtain ⟨k, w⟩ := e
        rw [Located.under?] at h
        split at h
        · cases h
          exact ⟨0, k, w, rfl, rfl⟩
        · obtain ⟨j, k', u, here, rfl⟩ := ih (i + 1) h
          exact ⟨j + 1, k', u, here, by rw [Nat.add_right_comm, Nat.add_assoc]⟩
  obtain ⟨j, k, u, here, rfl⟩ := numbered 0 es h
  rw [Nat.zero_add]
  exact parts l j u holds (partAt?_of_entries? entries here)

/-- What holds of a value holds of what a step of a pointer leads to. -/
theorem of_step? {segment : String} (holds : P l)
    (h : l.step? g segment = .ok (some next)) : P next := by
  unfold Located.step? at h
  split at h
  · next es seen =>
      refine of_under? parts holds ?_ (Except.ok.inj h)
      rw [Anchors.entries?, seen]
  · next xs seen =>
      cases index : segmentIndex? segment with
      | error e =>
          rw [index] at h
          cases h
      | ok found =>
          rw [index] at h
          obtain ⟨i, -, h⟩ := Option.bind_eq_some_iff.1 (Except.ok.inj h)
          obtain ⟨x, at_index, rfl⟩ := Option.map_eq_some_iff.1 h
          refine parts l i x holds (partAt?_of_items? ?_ at_index)
          rw [Anchors.items?, seen]
  · cases h

/-- What holds of a value holds of what a pointer leads to. -/
theorem of_follow? {segments : List String} (holds : P l)
    (h : l.follow? g segments = .ok (some next)) : P next := by
  induction segments generalizing l with
  | nil =>
      cases h
      exact holds
  | cons segment rest ih =>
      rw [Located.follow?] at h
      obtain ⟨below, step, h⟩ := bind_eq_ok.1 h
      cases below with
      | none => cases h
      | some below => exact ih (of_step? parts holds step) h

/-- What holds of a document holds of what is looked up in it by name. -/
theorem of_lookupName? (holds : P l) (h : lookupName? g ref l = some next) : P next := by
  obtain ⟨es, entries, h⟩ := Option.bind_eq_some_iff.1 h
  obtain ⟨root, -, h⟩ := List.exists_of_findSome?_eq_some h
  split at h
  · obtain ⟨name, -, h⟩ := Option.bind_eq_some_iff.1 h
    exact of_under? parts holds entries h
  · cases h

/-- What holds of a document, and of the parts of whatever it holds of, holds of all that
references refer to. -/
theorem of_locate (holds : P l) (h : (locate g ref l).result = .ok (some next)) : P next := by
  unfold locate at h
  cases parsed : Reference.parse ref with
  | whole =>
      rw [parsed] at h
      rw [← eq_of_present (Except.ok.inj h)]
      exact holds
  | pointer segments =>
      rw [parsed] at h
      obtain ⟨walked, follows, h⟩ := Traced.result_bind_eq_ok.1 h
      cases walked with
      | some end_point =>
          rw [← eq_of_present (Except.ok.inj h)]
          exact of_follow? parts holds follows
      | none =>
          dsimp only at h
          cases named : lookupName? g ref l with
          | some at_name =>
              rw [named] at h
              rw [← eq_of_present (Except.ok.inj h)]
              exact of_lookupName? parts holds named
          | none =>
              rw [named] at h
              cases h
  | malformed =>
      rw [parsed] at h
      cases h
  | external =>
      rw [parsed] at h
      cases h

end Located

/-- What a reference refers to is inside the document. -/
theorem inside_of_locate {document found : Located}
    (h : (locate g ref document).result = .ok (some found)) :
    Inside g document.value found.value :=
  of_locate (P := fun l => Inside g document.value l.value)
    (fun _ _ _ inside here => inside.tail (partOf_of_partAt? here)) .refl h

/-- What a reference refers to stands in the document. -/
theorem stands_of_locate {own : Value} {found : Located}
    (h : (locate g ref ⟨.document, [], document⟩).result = .ok (some found)) :
    Stands g own (some document) found := by
  have whole : Stands g own (some document) ⟨.document, [], document⟩ := ⟨document, rfl, rfl⟩
  exact of_locate (fun _ _ _ => Stands.part) whole h

/-- What a reference resolves to is inside the document. -/
theorem inside_of_resolve (h : (resolve g ref document).result = .ok (some t)) :
    Inside g document t := by
  obtain ⟨found, located, h⟩ := Traced.result_bind_eq_ok.1 h
  obtain ⟨l, rfl, rfl⟩ := Option.map_eq_some_iff.1 (Except.ok.inj h)
  exact inside_of_locate located

/-! ### Chains of references -/

/-- A value is a reference exactly when it refers. -/
theorem reference?_eq_some : reference? g v = some ref ↔ Refers g v ref := by
  unfold reference? Refers
  rw [Option.bind_eq_some_iff]

/-- A chain of references ends in an object that is no reference, inside the document unless
the chain is empty. -/
theorem of_followFresh {fresh : List String}
    (h : (followFresh g document fresh v).result = .ok (some t)) :
    (t = v ∨ Inside g document t) ∧ g.isObject t = true ∧ reference? g t = none := by
  induction left : fresh.length using Nat.strongRecOn generalizing fresh v with
  | _ left fewer =>
      subst left
      rw [followFresh] at h
      cases refers : reference? g v with
      | none =>
          rw [refers] at h
          dsimp only at h
          split at h
          · next object =>
              cases h
              exact ⟨.inl rfl, object, refers⟩
          · cases h
      | some ref =>
          rw [refers] at h
          dsimp only at h
          split at h
          · next new =>
              obtain ⟨found, resolved, h⟩ := Traced.result_bind_eq_ok.1 h
              cases found with
              | none => cases h
              | some next =>
                  obtain ⟨same | inside, rest⟩ := fewer _ (length_taking_lt new) h rfl
                  · exact ⟨.inr (same ▸ inside_of_resolve resolved), rest⟩
                  · exact ⟨.inr inside, rest⟩
          · cases h

/-- The schema that a reference leads to is inside the document, an object and no reference. -/
theorem of_followReference (refers : reference? g v = some ref)
    (h : (followReference g v document).result = .ok (some t)) :
    Inside g document t ∧ g.isObject t = true ∧ reference? g t = none := by
  obtain ⟨rfl | inside, object, plain⟩ := of_followFresh h
  · cases refers.symm.trans plain
  · exact ⟨inside, object, plain⟩

/-! ### Looking up ends -/

open Traced

theorem segmentIndex?_ne_tooDeep (segment : String) :
    segmentIndex? segment ≠ .error .tooDeep := by
  unfold segmentIndex?
  dsimp only
  split
  · nofun
  · split
    · nofun
    · split <;> nofun

theorem step?_ne_tooDeep (l : Located) (segment : String) :
    l.step? g segment ≠ .error .tooDeep := by
  unfold Located.step?
  split
  · nofun
  · intro h
    cases index : segmentIndex? segment with
    | error e =>
        rw [index] at h
        cases h
        exact segmentIndex?_ne_tooDeep segment index
    | ok found =>
        rw [index] at h
        cases h
  · nofun

theorem follow?_ne_tooDeep (l : Located) (segments : List String) :
    l.follow? g segments ≠ .error .tooDeep := by
  induction segments generalizing l with
  | nil => nofun
  | cons segment rest ih =>
      rw [Located.follow?]
      cases step : l.step? g segment with
      | error e =>
          rintro ⟨⟩
          exact step?_ne_tooDeep l segment step
      | ok next =>
          cases next with
          | none => nofun
          | some next => exact ih next

theorem ends_locate (document : Located) : (locate g ref document).Ends := by
  unfold locate
  split
  · exact ends_pure _
  · exact ends_bind (ends_of_ok rfl) fun _ _ => ends_pure _
  · exact ends_bind (ends_of_ok rfl) fun _ _ => ends_pure _
  · refine ends_bind (follow?_ne_tooDeep document _) fun walked _ => ?_
    split
    · exact ends_pure _
    · split
      · exact ends_pure _
      · exact ends_bind (ends_of_ok rfl) fun _ _ => ends_pure _

theorem ends_resolve (g : Anchors) (ref : String) (document : Value) :
    (resolve g ref document).Ends := ends_bind (ends_locate _) fun _ _ => ends_pure _

theorem ends_followFresh (fresh : List String) : (followFresh g document fresh v).Ends := by
  induction left : fresh.length using Nat.strongRecOn generalizing fresh v with
  | _ left fewer =>
      subst left
      rw [followFresh]
      split
      · exact ends_pure _
      · split
        · next new =>
            refine ends_bind (ends_resolve _ _ _) fun found _ => ?_
            split
            · exact fewer _ (length_taking_lt new) _ rfl
            · exact ends_bind (ends_of_ok rfl) fun _ _ => ends_pure _
        · exact ends_bind (ends_of_ok rfl) fun _ _ => ends_pure _

/-- Following a chain of references does not fail for want of depth. -/
theorem ends_followReference (g : Anchors) (v document : Value) :
    (followReference g v document).Ends := ends_followFresh _

end SchemaCodegen
