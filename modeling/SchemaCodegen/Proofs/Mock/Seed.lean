import Mathlib
import SchemaCodegen.Mock.Twister

/-!
# The state of a seed

A seed of one word fills the state in three sweeps over its words: they are grown from a first one,
the seed is worked into them, and they are stirred.  A sweep replaces each word by what it makes
with the word before it, which has been replaced already (`swept`).

The generator keeps its words in an array, and behind the last place goes on at the second one, with
the last word for the first.  Along lists the sweeps are plain recursions (`ofKey_singleton`), so
that what a seed draws can be computed (`below_two_ofSeed_zero`).
-/

namespace SchemaCodegen.Twister

variable {step : Filling → Filling} {f : UInt32 → UInt32 → Nat → UInt32} {front rest : List UInt32}
  {before w : UInt32}

/-! ### Sweeps along lists -/

/-- Words replaced one after the other: each by what it makes with the word before it and its
place. -/
def swept (f : UInt32 → UInt32 → Nat → UInt32) : (before : UInt32) → (place : Nat) →
    List UInt32 → List UInt32
  | _, _, [] => []
  | before, place, w :: rest => f before w place :: swept f (f before w place) (place + 1) rest

theorem length_swept (f : UInt32 → UInt32 → Nat → UInt32) (before : UInt32) (place : Nat)
    (ws : List UInt32) : (swept f before place ws).length = ws.length := by
  induction ws generalizing before place with
  | nil => rfl
  | cons w rest ih => rw [swept, List.length_cons, List.length_cons, ih]

/-- What a word grows to, whatever stood at its place. -/
def growing (before _ : UInt32) (place : Nat) : UInt32 :=
  1812433253 * mixed before + UInt32.ofNat place

/-- What a word becomes with a key of one word. -/
def taking (key before w : UInt32) (_ : Nat) : UInt32 := (w ^^^ (mixed before * 1664525)) + key

/-- What a word is stirred to. -/
def stirring (before w : UInt32) (place : Nat) : UInt32 :=
  (w ^^^ (mixed before * 1566083941)) - UInt32.ofNat place

/-- The word behind others. -/
theorem word_append (fits : front.length < size) :
    word (front ++ w :: rest).toArray front.length = w := by
  simp [word, Nat.mod_eq_of_lt fits]

theorem word_append_cons (fits : front.length + 1 < size) :
    word (front ++ before :: w :: rest).toArray (front.length + 1) = w := by
  have longer : word ((front ++ [before]) ++ w :: rest).toArray (front ++ [before]).length = w :=
    word_append (by simpa using fits)
  simpa using longer

/-! ### Growing -/

theorem foldl_growing (n : Nat) (front : List UInt32) (before : UInt32)
    (fits : front.length + n < size) :
    (List.range' front.length n).foldl
        (fun ws i => ws.push (1812433253 * mixed (word ws i) + UInt32.ofNat (i + 1)))
        (front ++ [before]).toArray
      = (front ++ before
          :: swept growing before (front.length + 1) (List.replicate n 0)).toArray := by
  induction n generalizing front before with
  | zero => rfl
  | succ n ih =>
      rw [List.range'_succ, List.foldl_cons, word_append (by omega), List.push_toArray]
      have later := ih (front ++ [before]) (growing before 0 (front.length + 1))
        (by rw [List.length_append, List.length_singleton]; omega)
      simpa [List.replicate_succ, swept, growing] using later

/-- The grown words are swept from the first one. -/
theorem grown_eq (start : UInt32) :
    grown start = (start :: swept growing start 1 (List.replicate (size - 1) 0)).toArray := by
  rw [grown, List.range_eq_range']
  exact foldl_growing (size - 1) [] start (by decide)

/-! ### Filling -/

/-- A step of filling with a key of one word replaces a word by what it makes with the word before
it and its place. -/
def Sweeps (step : Filling → Filling) (f : UInt32 → UInt32 → Nat → UInt32) : Prop :=
  ∀ ws place, step ⟨ws, place, 0⟩ = Filling.advance
    ⟨ws.setIfInBounds place (f (word ws (place - 1)) (word ws place) place), place, 0⟩ 1

theorem sweeps_takeKey (key : UInt32) : Sweeps (Filling.takeKey [key]) (taking key) := by
  intro ws place
  rw [Filling.takeKey]
  simp [taking]

theorem sweeps_stir : Sweeps (Filling.stir 1) stirring := fun _ _ => rfl

/-- The word at the place of a step is replaced. -/
theorem Sweeps.step_eq (sweeps : Sweeps step f) (fits : front.length + 1 < size) :
    step ⟨(front ++ before :: w :: rest).toArray, front.length + 1, 0⟩
      = Filling.advance
        ⟨(front ++ before :: f before w (front.length + 1) :: rest).toArray, front.length + 1, 0⟩
        1 := by
  rw [sweeps, Nat.add_sub_cancel, word_append (by omega), word_append_cons fits,
    List.setIfInBounds_toArray, List.set_append_right _ _ (by omega), Nat.add_sub_cancel_left]
  rfl

/-- Before the last place a step goes on to the next one. -/
theorem Sweeps.step_inside (sweeps : Sweeps step f) (front : List UInt32)
    (inside : front.length + 2 < size) :
    step ⟨(front ++ before :: w :: rest).toArray, front.length + 1, 0⟩
      = ⟨(front ++ before :: f before w (front.length + 1) :: rest).toArray,
          front.length + 2, 0⟩ := by
  rw [sweeps.step_eq (by omega), Filling.advance]
  exact if_pos inside

/-- Behind the last place a step goes on at the second one, with the last word for the first. -/
theorem Sweeps.step_last (sweeps : Sweeps step f) (last : front.length + 2 = size) :
    step ⟨(front ++ [before, w]).toArray, front.length + 1, 0⟩
      = ⟨((front ++ [before, f before w (front.length + 1)]).set 0
          (f before w (front.length + 1))).toArray, 1, 0⟩ := by
  have at_end : size - 1 = front.length + 1 := by omega
  rw [sweeps.step_eq (by omega), Filling.advance]
  dsimp only
  rw [if_neg (by omega), at_end, word_append_cons (by omega), List.setIfInBounds_toArray]
  rfl

/-- Steps to the end of the state sweep what is left of it; then the last word is the first one as
well, and filling goes on at the second place. -/
theorem Sweeps.repeated_rest (sweeps : Sweeps step f) (front : List UInt32) (before : UInt32)
    (some_left : rest ≠ []) (whole : front.length + 1 + rest.length = size) :
    repeated step rest.length ⟨(front ++ before :: rest).toArray, front.length + 1, 0⟩
      = ⟨((front ++ before :: swept f before (front.length + 1) rest).set 0
          ((swept f before (front.length + 1) rest).getLastD before)).toArray, 1, 0⟩ := by
  induction rest generalizing front before with
  | nil => exact absurd rfl some_left
  | cons w rest ih =>
      rw [List.length_cons] at whole
      rw [List.length_cons, repeated, swept, List.getLastD_cons]
      cases rest with
      | nil =>
          exact sweeps.step_last whole
      | cons next rest =>
          rw [List.length_cons] at whole
          rw [sweeps.step_inside front (by omega)]
          have later := ih (front ++ [before]) (f before w (front.length + 1))
            (List.cons_ne_nil _ _) (by simp; omega)
          simpa using later

theorem repeated_add {α : Type} (f : α → α) (m n : Nat) (a : α) :
    repeated f (m + n) a = repeated f n (repeated f m a) := by
  induction m generalizing a with
  | zero => rw [Nat.zero_add, repeated]
  | succ m ih => rw [Nat.succ_add, repeated, repeated, ih]

/-- Steps from the second place to the end and one more sweep all words, the second one twice. -/
theorem Sweeps.repeated_from_second (sweeps : Sweeps step f) (whole : rest.length + 2 = size) :
    repeated step size ⟨(before :: w :: rest).toArray, 1, 0⟩
      = let last := (swept f before 1 (w :: rest)).getLastD before
        ⟨(last :: f last (f before w 1) 1 :: swept f (f before w 1) 2 rest).toArray, 2, 0⟩ := by
  have to_end := sweeps.repeated_rest [] before (List.cons_ne_nil w rest)
    (by rw [List.length_nil, List.length_cons]; omega)
  have rounds : size = (w :: rest).length + 1 := whole.symm
  rw [rounds, repeated_add]
  refine (congrArg (repeated step 1) to_end).trans ?_
  exact sweeps.step_inside [] (by decide)

/-- Steps from the third place to the end and one more sweep all words but the first. -/
theorem Sweeps.repeated_from_third (sweeps : Sweeps step f) {first : UInt32}
    (whole : rest.length + 2 = size) :
    repeated step (size - 1) ⟨(first :: before :: rest).toArray, 2, 0⟩
      = let last := (swept f before 2 rest).getLastD before
        ⟨(last :: f last before 1 :: swept f before 2 rest).toArray, 2, 0⟩ := by
  have some_left : rest ≠ [] := by
    rintro rfl
    exact absurd whole (by decide)
  have to_end := sweeps.repeated_rest [first] before some_left
    (by rw [List.length_singleton]; omega)
  have rounds : size - 1 = rest.length + 1 := by omega
  rw [rounds, repeated_add]
  refine (congrArg (repeated step 1) to_end).trans ?_
  exact sweeps.step_inside [] (by decide)

/-- The words that a key of one word fills: grown from a first one, swept with the key, and
stirred. -/
def filledWords (key : UInt32) : List UInt32 :=
  let grown := swept growing 19650218 1 (List.replicate (size - 1) 0)
  let keyed := swept (taking key) 19650218 1 grown
  let second := taking key (keyed.getLastD 19650218) (keyed.headD 0) 1
  let stirred := swept stirring second 2 keyed.tail
  0x80000000 :: stirring (stirred.getLastD second) second 1 :: stirred

theorem one_lt_size_filledWords (key : UInt32) : 1 < (filledWords key).toArray.size := by
  simp [filledWords]

/-- **The state of a key of one word.** -/
theorem ofKey_singleton (key : UInt32) : ofKey [key] = ⟨(filledWords key).toArray, size⟩ := by
  have as_many : (swept growing 19650218 1 (List.replicate (size - 1) 0)).length = size - 1 := by
    rw [length_swept, List.length_replicate]
  rw [ofKey, grown_eq, filledWords]
  generalize swept growing 19650218 1 (List.replicate (size - 1) 0) = grown at as_many ⊢
  cases grown with
  | nil => cases as_many
  | cons w rest =>
      have whole : rest.length + 2 = size := by
        rw [List.length_cons] at as_many
        omega
      have rounds : max size [key].length = size := rfl
      have keyed_whole :
          (swept (taking key) (taking key 19650218 w 1) 2 rest).length + 2 = size := by
        rw [length_swept, whole]
      rw [rounds, (sweeps_takeKey key).repeated_from_second whole]
      dsimp only
      rw [List.length_singleton, sweeps_stir.repeated_from_third keyed_whole]
      rfl

/-! ### Drawing -/

/-- A word of a new state, from the old ones at its place, behind it and far behind it. -/
def twisted (w next distant : UInt32) : UInt32 :=
  let y := (w &&& 0x80000000) ||| (next &&& 0x7fffffff)
  distant ^^^ (y >>> 1) ^^^ (if y &&& 1 == 1 then 0x9908b0df else 0)

/-- The new word at a place. -/
def renewed (ws : Array UInt32) (place : Nat) : UInt32 :=
  twisted (word ws place) (word ws (place + 1)) (word ws (place + 397))

/-- A state is twisted word after word. -/
theorem twist_eq (ws : Array UInt32) : twist ws
    = (List.range size).foldl (fun ws i => ws.setIfInBounds i (renewed ws i)) ws := rfl

section Places

variable {place : Nat} {ws : Array UInt32} (new : Array UInt32 → Nat → UInt32)

theorem size_foldl_set (places : List Nat) (ws : Array UInt32) :
    (places.foldl (fun ws i => ws.setIfInBounds i (new ws i)) ws).size = ws.size := by
  induction places generalizing ws with
  | nil => rfl
  | cons i places ih => rw [List.foldl_cons, ih, Array.size_setIfInBounds]

/-- Words set at other places leave a word as it is. -/
theorem word_foldl_set (inside : place < size) (places : List Nat)
    (others : ∀ i ∈ places, i ≠ place) (ws : Array UInt32) :
    word (places.foldl (fun ws i => ws.setIfInBounds i (new ws i)) ws) place = word ws place := by
  induction places generalizing ws with
  | nil => rfl
  | cons i places ih =>
      obtain ⟨here, rest⟩ := List.forall_mem_cons.1 others
      rw [List.foldl_cons, ih rest]
      simp [word, Nat.mod_eq_of_lt inside, Array.getElem?_setIfInBounds_ne here]

end Places

theorem range_eq_append_cons {place n : Nat} (inside : place < n) :
    List.range n = List.range place ++ place :: List.range' (place + 1) (n - place - 1) := by
  have cut := List.range'_append_1 (s := 0) (m := place) (n := n - place - 1 + 1)
  rw [Nat.zero_add, List.range'_succ] at cut
  rw [List.range_eq_range', List.range_eq_range', cut]
  congr 1
  omega

/-- Words near the front of a new state are made from old ones only. -/
theorem word_twist {ws : Array UInt32} {place : Nat} (near : place + 397 < size)
    (inside : place < ws.size) : word (twist ws) place
      = twisted (word ws place) (word ws (place + 1)) (word ws (place + 397)) := by
  rw [twist_eq, range_eq_append_cons (show place < size by omega), List.foldl_append,
    List.foldl_cons]
  have later : ∀ i ∈ List.range' (place + 1) (size - place - 1), i ≠ place := by
    intro i mem
    have := List.mem_range'_1.1 mem
    omega
  rw [word_foldl_set renewed (by omega) _ later]
  generalize earlier_eq : (List.range place).foldl
    (fun ws i => ws.setIfInBounds i (renewed ws i)) ws = earlier
  have still_inside : place < earlier.size := by rwa [← earlier_eq, size_foldl_set]
  -- The words set so far stand before the place, and those it is made from do not.
  have old (i : Nat) (le : place ≤ i) (fits : i < size) : word earlier i = word ws i := by
    rw [← earlier_eq]
    exact word_foldl_set renewed fits _ (fun j mem => by have := List.mem_range.1 mem; omega) ws
  calc word (earlier.setIfInBounds place (renewed earlier place)) place
      = renewed earlier place := by
        have in_state : place % size = place := Nat.mod_eq_of_lt (by omega)
        simp [word, in_state, still_inside]
    _ = twisted (word ws place) (word ws (place + 1)) (word ws (place + 397)) := by
        rw [renewed, old place (by omega) (by omega), old _ (by omega) (by omega),
          old _ (by omega) near]

/-- A state that is only filled is twisted before its first word is handed out. -/
theorem run_word_of_filled (ws : Array UInt32) :
    Draw.word.run ⟨ws, size⟩ = (temper (word (twist ws) 0), ⟨twist ws, 1⟩) := by
  show (temper (word (if size < size then _ else _ : Twister).words _), _) = _
  rw [if_neg (Nat.lt_irrefl _)]

theorem run_word_of_lt {ws : Array UInt32} {place : Nat} (inside : place < size) :
    Draw.word.run ⟨ws, place⟩ = (temper (word ws place), ⟨ws, place + 1⟩) := by
  show (temper (word (if place < size then _ else _ : Twister).words _), _) = _
  rw [if_pos inside]

/-- Two bits are those at the front of a word. -/
theorem run_bits_two (t : Twister) : (Draw.bits 2).run t
    = ((Draw.word.run t).1.toNat >>> 30, (Draw.word.run t).2) := by
  rw [Draw.bits]
  rfl

/-- A number below two is tried for with two bits. -/
theorem run_belowWithin_two (tries : Nat) (t : Twister) : (Draw.belowWithin 2 (tries + 1)).run t
    = if ((Draw.bits 2).run t).1 < 2 then (Draw.bits 2).run t
      else (Draw.belowWithin 2 tries).run ((Draw.bits 2).run t).2 := by
  show (if ((Draw.bits 2).run t).1 < 2 then pure ((Draw.bits 2).run t).1
    else Draw.belowWithin 2 tries : Draw Nat).run ((Draw.bits 2).run t).2 = _
  split
  · rfl
  · rfl

/-- A number below two from a filled state whose first two bits are too many. -/
theorem run_below_two_of_filled {ws : Array UInt32}
    (first : 2 ≤ (temper (word (twist ws) 0)).toNat >>> 30)
    (second : (temper (word (twist ws) 1)).toNat >>> 30 < 2) :
    ((Draw.below 2).run ⟨ws, size⟩).1 = (temper (word (twist ws) 1)).toNat >>> 30 := by
  have tries : Draw.below 2 = Draw.belowWithin 2 (998 + 1 + 1) := rfl
  rw [tries, run_belowWithin_two, run_bits_two, run_word_of_filled, if_neg (Nat.not_lt.2 first),
    run_belowWithin_two, run_bits_two, run_word_of_lt (by decide), if_pos second]

/-- With the seed zero the first two bits are three and the next two are one, which is drawn below
two. -/
theorem below_two_ofSeed_zero : ((Draw.below 2).run (ofSeed 0)).1 = 1 := by
  have key : magnitudeWords 0 = [0] := by
    rw [magnitudeWords, dif_neg (by decide)]
    rfl
  have state : ofSeed 0 = ⟨(filledWords 0).toArray, size⟩ := by
    rw [← ofKey_singleton, ← key]
    rfl
  have has_two := one_lt_size_filledWords 0
  have first : (temper (word (twist (filledWords 0).toArray) 0)).toNat >>> 30 = 3 := by
    rw [word_twist (by decide) (Nat.lt_of_succ_lt has_two)]
    decide +kernel
  have second : (temper (word (twist (filledWords 0).toArray) 1)).toNat >>> 30 = 1 := by
    rw [word_twist (by decide) has_two]
    decide +kernel
  have too_many : 2 ≤ (temper (word (twist (filledWords 0).toArray) 0)).toNat >>> 30 :=
    first.symm ▸ Nat.le_succ 2
  rw [state, run_below_two_of_filled too_many (second.trans_lt Nat.one_lt_two), second]

end SchemaCodegen.Twister
