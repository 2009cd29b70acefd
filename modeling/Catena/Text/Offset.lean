/-!
# Byte offsets in a text

Positions in a text are counted in bytes of its UTF-8 encoding. An offset need not
fall between two characters, nor inside the text: `splitAtByte` cuts at the last
character boundary that is not above it.

* `splitAtByte_append`: the two parts make up the text;
* `byteLength_splitAtByte_le`: the first part does not reach beyond the offset;
* `splitAtByte_maximal`: one more character would;
* `splitAtByte_byteLength`: at a character boundary, the text is cut there.
-/

namespace Catena.Text

/-- The number of bytes that a text takes in UTF-8. -/
def byteLength : List Char → Nat
  | [] => 0
  | c :: s => c.utf8Size + byteLength s

/-- A text cut at the greatest character boundary not above the byte offset. -/
def splitAtByte : Nat → List Char → List Char × List Char
  | _, [] => ([], [])
  | n, c :: s =>
    if c.utf8Size ≤ n then
      let (before, after) := splitAtByte (n - c.utf8Size) s
      (c :: before, after)
    else ([], c :: s)

/-- The character that starts exactly at a byte offset, if one does. -/
def charAtByte? (n : Nat) (s : List Char) : Option Char :=
  let (before, after) := splitAtByte n s
  if byteLength before = n then after.head? else none

@[simp]
theorem byteLength_append (s t : List Char) :
    byteLength (s ++ t) = byteLength s + byteLength t := by
  induction s with
  | nil => simp [byteLength]
  | cons c s ih => simp [byteLength, ih, Nat.add_assoc]

theorem splitAtByte_append (n : Nat) (s : List Char) :
    (splitAtByte n s).1 ++ (splitAtByte n s).2 = s := by
  induction s generalizing n with
  | nil => rfl
  | cons c s ih =>
    unfold splitAtByte
    split
    · simp [ih]
    · rfl

theorem byteLength_splitAtByte_le (n : Nat) (s : List Char) :
    byteLength (splitAtByte n s).1 ≤ n := by
  induction s generalizing n with
  | nil => simp [splitAtByte, byteLength]
  | cons c s ih =>
    unfold splitAtByte
    split
    · have := ih (n - c.utf8Size)
      simp only [byteLength]
      omega
    · simp [byteLength]

theorem splitAtByte_maximal {n : Nat} {s : List Char} {c : Char} {t : List Char}
    (h : (splitAtByte n s).2 = c :: t) :
    n < byteLength (splitAtByte n s).1 + c.utf8Size := by
  induction s generalizing n with
  | nil => simp [splitAtByte] at h
  | cons d s ih =>
    unfold splitAtByte at h ⊢
    split
    · rename_i hd
      simp only [hd, if_true] at h
      have := ih h
      simp only [byteLength]
      omega
    · rename_i hd
      simp only [hd, if_false] at h
      obtain ⟨rfl, -⟩ := List.cons.inj h
      simp only [byteLength]
      omega

@[simp]
theorem splitAtByte_byteLength (s t : List Char) :
    splitAtByte (byteLength s) (s ++ t) = (s, t) := by
  induction s with
  | nil =>
    cases t with
    | nil => rfl
    | cons c t => exact if_neg (Nat.not_le.2 c.utf8Size_pos)
  | cons c s ih => simp [splitAtByte, byteLength, ih]

/-- At the character boundary behind a text, the next character starts. -/
theorem charAtByte?_byteLength (s : List Char) (c : Char) (t : List Char) :
    charAtByte? (byteLength s) (s ++ c :: t) = some c := by
  simp [charAtByte?]

end Catena.Text
