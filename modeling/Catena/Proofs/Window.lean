import Catena.Parser.Error
import Mathlib.Order.Bounds.Basic

/-!
# The window around an error

An error shows a window of the text around a byte offset. Its start is a character boundary,
its length is counted in characters, and whether text is left out behind it can be told by a
count of bytes. All three agree, also where characters take several bytes, since the text is
cut into the same three parts (`ParseError.IsCut`) whichever way it is done: at the last
boundary that a fold over the characters reaches (`ParseError.window`), or at the first one that
a search back over the bytes meets (`ParseError.byteWindow?`). The latter takes a part of the
text from an offset on, which fails off a boundary.

The window begins at most three bytes before it should, so that it reaches the offset long
before its hundred characters are used up.

* `ParseError.IsCut.byteWindow?_eq`: the search over the bytes never fails, and gives the same
  window;
* `ParseError.atOffset_wellFormed`: what an error at an offset shows, for every text and every
  offset.
-/

namespace Catena

/-! ### Character boundaries -/

namespace Text

variable {n : Nat} {c : Char} {s t : List Char}

theorem utf8ByteSize_ofList (s : List Char) : (String.ofList s).utf8ByteSize = byteLength s := by
  induction s with
  | nil => rfl
  | cons c s ih =>
    rw [byteLength, ← ih, String.ofList_cons, String.utf8ByteSize_append,
      String.utf8ByteSize_singleton]

theorem byteLength_toList (source : String) : byteLength source.toList = source.utf8ByteSize := by
  rw [← utf8ByteSize_ofList, String.ofList_toList]

theorem length_le_byteLength (s : List Char) : s.length ≤ byteLength s := by
  induction s with
  | nil => exact Nat.le_refl 0
  | cons c s ih =>
    have := c.utf8Size_pos
    simp only [List.length_cons, byteLength]
    omega

theorem byteLength_eq_zero : byteLength s = 0 ↔ s = [] := by
  constructor
  · intro h
    have := length_le_byteLength s
    exact List.length_eq_zero_iff.1 (by omega)
  · rintro rfl
    rfl

theorem charAtByte?_eq_some_iff :
    charAtByte? n s = some c ↔ ∃ u v, s = u ++ c :: v ∧ byteLength u = n := by
  constructor
  · intro h
    simp only [charAtByte?] at h
    split at h
    · rename_i hn
      obtain ⟨v, hv⟩ := List.head?_eq_some_iff.1 h
      exact ⟨(splitAtByte n s).1, v, by rw [← hv, splitAtByte_append], hn⟩
    · cases h
  · rintro ⟨u, v, rfl, rfl⟩
    exact charAtByte?_byteLength u c v

/-- A beginning of a text is in front of the cut if it does not reach beyond the offset. -/
theorem prefix_splitAtByte (h : s <+: t) (hn : byteLength s ≤ n) : s <+: (splitAtByte n t).1 := by
  induction s generalizing t n with
  | nil => exact List.nil_prefix
  | cons c s ih =>
    obtain ⟨u, rfl⟩ := h
    rw [byteLength] at hn
    rw [List.cons_append, splitAtByte, if_pos (Nat.le_trans (Nat.le_add_right _ _) hn)]
    exact List.cons_prefix_cons.2 ⟨rfl, ih ⟨u, rfl⟩ (by omega)⟩

/-- The character boundaries of a text that are not above a byte offset. -/
def boundaries (source : String) (n : Nat) : Set Nat :=
  {m | m ≤ n ∧ (⟨m⟩ : String.Pos.Raw).IsValid source}

/-- The last character boundary at or below a byte offset, looked for byte by byte. -/
def boundaryBelow (source : String) : Nat → Nat
  | 0 => 0
  | n + 1 => if (⟨n + 1⟩ : String.Pos.Raw).IsValid source then n + 1 else boundaryBelow source n

theorem isGreatest_boundaryBelow (source : String) (n : Nat) :
    IsGreatest (boundaries source n) (boundaryBelow source n) := by
  induction n with
  | zero => exact ⟨⟨Nat.le_refl 0, String.Pos.Raw.isValid_zero⟩, fun m hm => hm.1⟩
  | succ n ih =>
    unfold boundaryBelow
    split
    · rename_i h
      exact ⟨⟨Nat.le_refl _, h⟩, fun m hm => hm.1⟩
    · rename_i h
      refine ⟨⟨Nat.le_succ_of_le ih.1.1, ih.1.2⟩, fun m hm => ih.2 ⟨?_, hm.2⟩⟩
      rcases Nat.le_succ_iff.1 hm.1 with hle | rfl
      · exact hle
      · exact absurd hm.2 h

theorem isGreatest_splitAtByte (source : String) (n : Nat) :
    IsGreatest (boundaries source (min n source.utf8ByteSize))
      (byteLength (splitAtByte n source.toList).1) := by
  have happ := splitAtByte_append n source.toList
  refine ⟨⟨Nat.le_min.2 ⟨byteLength_splitAtByte_le _ _, ?_⟩, ?_⟩, ?_⟩
  · rw [← byteLength_toList, ← happ, byteLength_append, happ]
    exact Nat.le_add_right _ _
  · refine String.Pos.Raw.isValid_iff_exists_append.2
      ⟨.ofList (splitAtByte n source.toList).1, .ofList (splitAtByte n source.toList).2, ?_, ?_⟩
    · rw [← String.ofList_append, happ, String.ofList_toList]
    · rw [String.rawEndPos, utf8ByteSize_ofList]
  · -- What is in front of another boundary is in front of the cut.
    rintro m ⟨hm, hv⟩
    obtain ⟨u, v, rfl, hu⟩ := String.Pos.Raw.isValid_iff_exists_append.1 hv
    obtain rfl : m = u.utf8ByteSize := congrArg String.Pos.Raw.byteIdx hu
    rw [String.toList_append]
    obtain ⟨w, hw⟩ := prefix_splitAtByte (n := n) (List.prefix_append u.toList v.toList)
      (by rw [byteLength_toList]; exact (Nat.le_min.1 hm).1)
    rw [← hw, byteLength_append, byteLength_toList]
    exact Nat.le_add_right _ _

/-- A text from a byte offset on; `none` if the offset is no character boundary of it. -/
def fromByte? (source : String) (n : Nat) : Option String :=
  if h : (⟨n⟩ : String.Pos.Raw).IsValid source then some (source.sliceFrom ⟨⟨n⟩, h⟩).copy
  else none

theorem fromByte?_append (front back : String) :
    fromByte? (front ++ back) front.utf8ByteSize = some back := by
  have h : (⟨front.utf8ByteSize⟩ : String.Pos.Raw).IsValid (front ++ back) :=
    String.Pos.Raw.isValid_iff_exists_append.2 ⟨front, back, rfl, rfl⟩
  rw [fromByte?, dif_pos h]
  have hs := String.Pos.splits (⟨⟨front.utf8ByteSize⟩, h⟩ : (front ++ back).Pos)
  exact congrArg some (hs.eq_right ⟨rfl, rfl⟩)

/-- A text with another one in the place of every occurrence of a character. -/
def replaceChar (c : Char) (t s : List Char) : List Char :=
  s.flatMap fun d => if d = c then t else [d]

end Text

/-! ### The window -/

namespace ParseError

open Text

theorem onOneLine_append (s t : List Char) : onOneLine (s ++ t) = onOneLine s ++ onOneLine t :=
  List.flatMap_append

/-- To put a text on one line is to replace line feeds, and then carriage returns. -/
theorem onOneLine_eq (s : List Char) :
    onOneLine s = replaceChar '\r' [] (replaceChar '\n' ['\\', 'n'] s) := by
  induction s with
  | nil => rfl
  | cons c s ih =>
    simp only [onOneLine, replaceChar, List.flatMap_cons, List.flatMap_append] at ih ⊢
    rw [ih]
    split <;> simp

/-- The window around a byte offset, cut out of the bytes of a text. Its start is looked for byte
    by byte, and a count of bytes tells whether text is left out behind it. -/
def byteWindow? (source : String) (offset : Nat) : Option String :=
  let start := boundaryBelow source (min (offset - contextBefore) source.utf8ByteSize)
  (fromByte? source start).map fun after =>
    let shown := String.ofList (after.toList.take contextLength)
    let whole := (if 0 < start then "[...]" else "") ++ shown ++
      (if start + shown.utf8ByteSize < source.utf8ByteSize then "[...]" else "")
    .ofList (replaceChar '\r' [] (replaceChar '\n' ['\\', 'n'] whole.toList))

/-- A text is cut into what is in front of the window around a byte offset, what is shown in it,
    and what is behind it. -/
structure IsCut (source : String) (offset : Nat) (before shown rest : String) : Prop where
  source_eq : source = before ++ shown ++ rest
  /-- The window begins at the last character boundary up to twenty bytes before the offset. -/
  start : IsGreatest (boundaries source (min (offset - 20) source.utf8ByteSize))
    before.utf8ByteSize
  /-- A hundred characters are shown, or all if there are fewer. -/
  length_eq : shown.length = min 100 (shown ++ rest).length

theorem exists_isCut (source : String) (offset : Nat) :
    ∃ before shown rest, IsCut source offset before shown rest := by
  let cut := splitAtByte (offset - 20) source.toList
  refine ⟨.ofList cut.1, .ofList (cut.2.take 100), .ofList (cut.2.drop 100), ?_, ?_, ?_⟩
  · rw [← String.ofList_append, ← String.ofList_append, List.append_assoc, List.take_append_drop,
      splitAtByte_append, String.ofList_toList]
  · rw [utf8ByteSize_ofList]
    exact isGreatest_splitAtByte source _
  · rw [← String.ofList_append, List.take_append_drop, String.length_ofList, String.length_ofList,
      List.length_take]

namespace IsCut

variable {offset : Nat} {source before shown rest : String} {c : Char} {u v : List Char}

theorem toList_eq (h : IsCut source offset before shown rest) :
    source.toList = before.toList ++ (shown.toList ++ rest.toList) := by
  rw [h.source_eq, String.toList_append, String.toList_append, List.append_assoc]

theorem utf8ByteSize_eq (h : IsCut source offset before shown rest) :
    source.utf8ByteSize = before.utf8ByteSize + shown.utf8ByteSize + rest.utf8ByteSize := by
  rw [h.source_eq, String.utf8ByteSize_append, String.utf8ByteSize_append]

theorem splitAtByte_eq (h : IsCut source offset before shown rest) :
    splitAtByte (offset - contextBefore) source.toList =
      (before.toList, shown.toList ++ rest.toList) := by
  have hle : byteLength before.toList ≤ offset - contextBefore := by
    rw [byteLength_toList]
    exact (Nat.le_min.1 h.start.1.1).1
  have heq := (isGreatest_splitAtByte source (offset - contextBefore)).unique h.start
  obtain ⟨w, hw⟩ := prefix_splitAtByte ⟨_, h.toList_eq.symm⟩ hle
  rw [← hw, byteLength_append, byteLength_toList] at heq
  obtain rfl := byteLength_eq_zero.1 (Nat.left_eq_add.1 heq.symm)
  rw [List.append_nil] at hw
  have happ := splitAtByte_append (offset - contextBefore) source.toList
  rw [← hw] at happ
  exact Prod.ext hw.symm (List.append_cancel_left (happ.trans h.toList_eq))

theorem take_eq (h : IsCut source offset before shown rest) :
    (shown.toList ++ rest.toList).take contextLength = shown.toList := by
  have hl : shown.length = min contextLength (shown ++ rest).length := h.length_eq
  rw [← String.length_toList, ← String.length_toList, String.toList_append] at hl
  rw [List.take_eq_take_min, ← hl, List.take_left]

theorem drop_eq (h : IsCut source offset before shown rest) :
    (shown.toList ++ rest.toList).drop contextLength = rest.toList := by
  have hd := List.take_append_drop contextLength (shown.toList ++ rest.toList)
  rw [h.take_eq] at hd
  exact List.append_cancel_left hd

/-- The window is what is shown, on one line, with an ellipsis for what is not. -/
theorem window_eq (h : IsCut source offset before shown rest) :
    String.ofList (window source.toList offset) =
      (if 0 < before.utf8ByteSize then "[...]" else "") ++
        .ofList (replaceChar '\r' [] (replaceChar '\n' ['\\', 'n'] shown.toList)) ++
        (if rest = "" then "" else "[...]") := by
  have hb : before.toList.isEmpty = true ↔ ¬0 < before.utf8ByteSize := by
    rw [List.isEmpty_iff, String.toList_eq_nil_iff, ← String.utf8ByteSize_eq_zero_iff,
      Nat.not_lt, Nat.le_zero]
  have hr : rest.toList.isEmpty = true ↔ rest = "" := by
    rw [List.isEmpty_iff, String.toList_eq_nil_iff]
  simp only [window, h.splitAtByte_eq, h.take_eq, h.drop_eq, onOneLine_eq, String.ofList_append,
    hb, hr]
  congr 2
  · rw [ite_not, apply_ite String.ofList]
    rfl
  · rw [apply_ite String.ofList]
    rfl

/-- To cut the window out of the bytes does not fail, and makes no difference. -/
theorem byteWindow?_eq (h : IsCut source offset before shown rest) :
    byteWindow? source offset = some (.ofList (window source.toList offset)) := by
  have hstart : boundaryBelow source (min (offset - contextBefore) source.utf8ByteSize) =
      before.utf8ByteSize :=
    (isGreatest_boundaryBelow source _).unique h.start
  have hfrom : fromByte? source before.utf8ByteSize = some (shown ++ rest) := by
    rw [h.source_eq, String.append_assoc]
    exact fromByte?_append before (shown ++ rest)
  have hlt : before.utf8ByteSize + shown.utf8ByteSize < source.utf8ByteSize ↔ rest ≠ "" := by
    rw [h.utf8ByteSize_eq, ← String.utf8ByteSize_eq_zero_iff.ne]
    omega
  have hmark (p : Prop) [Decidable p] : onOneLine (if p then "[...]" else "").toList =
      (if p then "[...]" else "").toList := by
    split <;> rfl
  rw [h.window_eq]
  simp only [byteWindow?, hstart, hfrom, Option.map_some, String.toList_append, h.take_eq,
    String.ofList_toList, hlt, ← onOneLine_eq, onOneLine_append, hmark, String.ofList_append,
    ite_not]

/-- The offset is near the start of the window: the twenty bytes in front of it, and less than
    the bytes of one character. -/
theorem offset_lt (h : IsCut source offset before shown rest)
    (hne : shown.toList ++ rest.toList ≠ []) : offset < before.utf8ByteSize + (20 + 4) := by
  obtain ⟨c, s, hs⟩ := List.exists_cons_of_ne_nil hne
  have hmax := splitAtByte_maximal (n := offset - contextBefore) (s := source.toList)
    (by rw [h.splitAtByte_eq]; exact hs)
  rw [h.splitAtByte_eq, byteLength_toList, contextBefore] at hmax
  have := c.utf8Size_le_four
  omega

/-- What is at the offset is shown in the window. -/
theorem exists_shown_eq (h : IsCut source offset before shown rest)
    (hs : source.toList = u ++ c :: v) (hu : byteLength u = offset) :
    ∃ front back, shown.toList = front ++ c :: back ∧ u = before.toList ++ front := by
  have hle : byteLength before.toList ≤ offset := by
    rw [byteLength_toList]
    exact Nat.le_trans (Nat.le_min.1 h.start.1.1).1 (Nat.sub_le _ _)
  have hpre := prefix_splitAtByte ⟨_, h.toList_eq.symm⟩ hle
  rw [hs, ← hu, splitAtByte_byteLength] at hpre
  obtain ⟨front, rfl⟩ := hpre
  have happ : shown.toList ++ rest.toList = front ++ c :: v := by
    rw [h.toList_eq, List.append_assoc] at hs
    exact List.append_cancel_left hs
  have hnear := h.offset_lt (by simp [happ])
  rw [← hu, byteLength_append, byteLength_toList] at hnear
  have hlen := length_le_byteLength front
  obtain ⟨k, hk⟩ := Nat.exists_eq_add_of_lt (show front.length < contextLength by
    rw [contextLength]; omega)
  have htake := h.take_eq
  rw [happ, hk, Nat.add_assoc, List.take_length_add_append, List.take_succ_cons] at htake
  exact ⟨front, v.take k, htake.symm, rfl⟩

/-- The character that is found is the one at the offset, and it lies in the window. -/
theorem found_eq_some_iff (h : IsCut source offset before shown rest) (kind : Kind)
    (message found : String) :
    (atOffset kind message source.toList offset).found = some found ↔
      ∃ front c back, shown = front ++ String.singleton c ++ back ∧
        (before ++ front).utf8ByteSize = offset ∧ found = String.singleton c := by
  simp only [atOffset, Option.map_eq_some_iff, charAtByte?_eq_some_iff]
  constructor
  · rintro ⟨c, ⟨u, v, hs, hu⟩, rfl⟩
    obtain ⟨front, back, hshown, rfl⟩ := h.exists_shown_eq hs hu
    refine ⟨.ofList front, c, .ofList back, String.toList_inj.1 (by simp [hshown]), ?_, rfl⟩
    rw [← hu, byteLength_append, byteLength_toList, String.utf8ByteSize_append,
      utf8ByteSize_ofList]
  · rintro ⟨front, c, back, rfl, hf, rfl⟩
    refine ⟨c, ⟨(before ++ front).toList, (back ++ rest).toList, ?_, ?_⟩, rfl⟩
    · rw [h.source_eq]
      simp
    · rw [byteLength_toList, hf]

end IsCut

theorem isSome_found_iff (kind : Kind) (message source : String) (offset : Nat) :
    (atOffset kind message source.toList offset).found.isSome ↔
      (⟨offset⟩ : String.Pos.Raw).IsValid source ∧ offset < source.utf8ByteSize := by
  rw [atOffset, Option.isSome_map, Option.isSome_iff_exists]
  simp only [charAtByte?_eq_some_iff]
  constructor
  · rintro ⟨c, u, v, hs, rfl⟩
    have heq : source = .ofList u ++ .ofList (c :: v) := by
      rw [← String.ofList_append, ← hs, String.ofList_toList]
    refine ⟨String.Pos.Raw.isValid_iff_exists_append.2 ⟨_, _, heq, ?_⟩, ?_⟩
    · rw [String.rawEndPos, utf8ByteSize_ofList]
    · have := c.utf8Size_pos
      rw [heq, String.utf8ByteSize_append, utf8ByteSize_ofList, utf8ByteSize_ofList, byteLength]
      omega
  · rintro ⟨hv, hlt⟩
    obtain ⟨front, back, rfl, hf⟩ := String.Pos.Raw.isValid_iff_exists_append.1 hv
    obtain rfl : offset = front.utf8ByteSize := congrArg String.Pos.Raw.byteIdx hf
    have hback : back.toList ≠ [] := by
      intro hb
      rw [String.toList_eq_nil_iff.1 hb] at hlt
      simp at hlt
    obtain ⟨c, v, hc⟩ := List.exists_cons_of_ne_nil hback
    exact ⟨c, front.toList, v, by rw [String.toList_append, hc], byteLength_toList front⟩

/-- An error at any offset of any text shows a window that begins at a character boundary, the
    last one twenty bytes before the offset or earlier, and has the next hundred characters, on
    one line. An ellipsis stands on either side exactly where text is left out. A character is
    found exactly if one begins at the offset, and it is in the window. -/
theorem atOffset_wellFormed (kind : Kind) (message source : String) (offset : Nat) :
    byteWindow? source offset = (atOffset kind message source.toList offset).context ∧
      (∃ before shown rest, IsCut source offset before shown rest ∧
        (atOffset kind message source.toList offset).context =
          some ((if 0 < before.utf8ByteSize then "[...]" else "") ++
            .ofList (replaceChar '\r' [] (replaceChar '\n' ['\\', 'n'] shown.toList)) ++
            (if rest = "" then "" else "[...]")) ∧
        ∀ found, (atOffset kind message source.toList offset).found = some found ↔
          ∃ front c back, shown = front ++ String.singleton c ++ back ∧
            (before ++ front).utf8ByteSize = offset ∧ found = String.singleton c) ∧
      ((atOffset kind message source.toList offset).found.isSome ↔
        (⟨offset⟩ : String.Pos.Raw).IsValid source ∧ offset < source.utf8ByteSize) := by
  obtain ⟨before, shown, rest, h⟩ := exists_isCut source offset
  exact ⟨h.byteWindow?_eq, ⟨before, shown, rest, h, congrArg some h.window_eq,
    h.found_eq_some_iff kind message⟩, isSome_found_iff kind message source offset⟩

end ParseError

end Catena
