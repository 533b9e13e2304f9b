/-!
# Surrogates without a partner

A JSON escape may name half of a surrogate pair, which is no character.  Such a half
`U+D800 + k` is kept as the private-use character `U+10F800 + k`, at the same place in
the last 2048 code points; writers that escape give it back as the half it stands for.
-/

namespace SchemaCodegen.Text

/-- The first character that stands for half of a surrogate pair. -/
def firstHalf : Nat := 0x10f800

/-- The character that stands for the half with code `n`, `0xD800 ≤ n ≤ 0xDFFF`. -/
def ofHalf (n : Nat) : Char := Char.ofNat (firstHalf + (n - 0xd800))

/-- The code unit of a character: for a stand-in the half it stands for. -/
def codeOf (c : Char) : Nat :=
  if firstHalf ≤ c.toNat then c.toNat - firstHalf + 0xd800 else c.toNat

/-- A pair of halves joined into a character. -/
def joinHalves (high low : Nat) : Char :=
  Char.ofNat (0x10000 + (high - 0xd800) * 0x400 + (low - 0xdc00))

/-- A stand-in gives back the half it stands for. -/
theorem codeOf_ofHalf {n : Nat} (low : 0xd800 ≤ n) (high : n ≤ 0xdfff) :
    codeOf (ofHalf n) = n := by
  have hv : Nat.isValidChar (firstHalf + (n - 0xd800)) := by
    unfold firstHalf Nat.isValidChar; omega
  have : (ofHalf n).toNat = firstHalf + (n - 0xd800) := by
    rw [ofHalf, Char.ofNat, dif_pos hv]
    rfl
  unfold codeOf
  rw [this]
  unfold firstHalf
  split <;> omega

end SchemaCodegen.Text
