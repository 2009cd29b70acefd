import Catena.Proofs.Diagnosis
import Mathlib

/-!
# What the count of brackets tells

Where a quote cannot be read, the error says of it that it is unclosed or that it is
malformed. What decides this is a count of brackets over all the text that follows, in which
the contents of strings are skipped (`Parser.tally`): the count comes out even exactly if
no string is open at the end and no bracket is left without its partner
(`Parser.balanced_eq_false_iff`).

A quote that is called malformed is thus closed. One that is called unclosed may be closed as
well: then it is the text behind it in which a string or a bracket is left open.

* `Parser.parse_error_quote`: what an error tells about the bracket that it names;
* `Parser.parse_error_quote_closed`: a quote that is closed and is called unclosed.
-/

namespace Catena

open Grammar (text)

/-! ### Messages -/

namespace Complaint

variable {k k' : Complaint} {p q : Nat}

/-- The first letters of a message. They tell the complaints about a quote from all others. -/
def initials : Complaint → List Char
  | tooDeep _ => ['Q', 'u', 'o']
  | unterminatedString => ['U', 'n', 't']
  | unclosedQuote => ['U', 'n', 'c']
  | malformedQuote => ['M', 'a', 'l']
  | strayClosing | strayBar | leftover => ['U', 'n', 'e']
  | missingSymbolName => ['E', 'x', 'p']

theorem take_toList_append {s t : String} {n : Nat} (h : n ≤ s.toList.length) :
    (s ++ t).toList.take n = s.toList.take n := by
  rw [String.toList_append, List.take_append_of_le_length h]

theorem take_message (k : Complaint) (p : Nat) : (k.message p).toList.take 3 = k.initials := by
  cases k with
  | tooDeep n =>
    refine (take_toList_append (s := "Quote nesting too deep (max depth: " ++ toString n) ?_).trans
      (take_toList_append (by decide))
    rw [String.toList_append, List.length_append]
    exact Nat.le_add_right_of_le (by decide)
  | _ => exact take_toList_append (by decide)

/-- A message about a quote tells which of the two complaints it is, and the position. -/
theorem eq_of_message_eq (hk : k' = unclosedQuote ∨ k' = malformedQuote)
    (h : k.message p = k'.message q) : k = k' ∧ p = q := by
  have hi : k.initials = k'.initials := by rw [← take_message k p, h, take_message]
  rcases hk with rfl | rfl
  · cases k with
    | unclosedQuote => exact ⟨rfl, Nat.repr_inj.1 ((String.append_right_inj _).1 h)⟩
    | _ => simp [initials] at hi
  · cases k with
    | malformedQuote => exact ⟨rfl, Nat.repr_inj.1 ((String.append_right_inj _).1 h)⟩
    | _ => simp [initials] at hi

end Complaint

/-! ### Counting -/

namespace Parser

/-- How many brackets are open at a place, and the mark of the string that is open there. -/
@[ext]
structure Tally where
  depth : Nat := 0
  mark : Option Char := none
deriving DecidableEq

/-- One more character: brackets count outside strings only. -/
def Tally.next (a : Tally) (c : Char) : Tally :=
  match a.mark with
  | some m => { a with mark := if c = m then none else some m }
  | none =>
    if c = '\'' ∨ c = '\"' then { a with mark := some c }
    else if c = '[' then { a with depth := a.depth + 1 }
    else if c = ']' then { a with depth := a.depth - 1 }
    else a

/-- The count at the end of a text. -/
def tally (s : List Char) : Tally := s.foldl Tally.next {}

/-- The bracket at the front of a text is closed: the count is back at zero somewhere behind
    it. -/
def Closes (s : List Char) : Prop := ∃ u, u <+: s ∧ u ≠ [] ∧ (tally u).depth = 0

/-- Something in a text is open at its end: a string, or a bracket that is not closed. -/
inductive LeftOpen (s : List Char) : Prop
  | string : (tally s).mark ≠ none → LeftOpen s
  | bracket {u v} : s = u ++ '[' :: v → (tally u).mark = none → ¬ Closes ('[' :: v) → LeftOpen s

variable {s t u v : List Char} {c : Char} {a b : Tally} {d : Nat} {mark : Option Char}

theorem tally_append_of_eq (h : tally u = {}) : tally (u ++ v) = tally v := by
  rw [tally, List.foldl_append, ← tally, h, tally]

theorem tally_concat : tally (s ++ [c]) = (tally s).next c := by
  rw [tally, List.foldl_append, List.foldl_cons, List.foldl_nil, ← tally]

theorem tally_append_opening (h : (tally u).mark = none) :
    tally (u ++ '[' :: v) = v.foldl Tally.next ⟨(tally u).depth + 1, none⟩ := by
  rw [tally, List.foldl_append, ← tally, List.foldl_cons]
  simp [Tally.next, h]

/-- With more brackets open in front, no fewer are open at the end. -/
theorem foldl_next_mono (hd : a.depth ≤ b.depth) (hm : a.mark = b.mark) :
    (s.foldl Tally.next a).depth ≤ (s.foldl Tally.next b).depth ∧
      (s.foldl Tally.next a).mark = (s.foldl Tally.next b).mark := by
  induction s generalizing a b with
  | nil => exact ⟨hd, hm⟩
  | cons c s ih =>
    refine ih ?_ ?_ <;> grind [Tally.next]

/-- The count of brackets is the one that decides. -/
theorem balanced_eq_foldl :
    balanced d mark s = decide (s.foldl Tally.next ⟨d, mark⟩ = {}) := by
  induction s generalizing d mark with
  | nil => cases mark <;> simp [balanced, Tally.ext_iff, beq_eq_decide]
  | cons c s ih =>
    rw [List.foldl_cons]
    cases mark with
    | some m => rw [balanced, ih]; rfl
    | none =>
      simp only [balanced, ih, Tally.next]
      split_ifs <;> rfl

theorem balanced_eq_tally : balanced 0 none s = decide (tally s = {}) :=
  balanced_eq_foldl

/-- If a bracket is left open, the outermost one is: the count in front of it is zero. -/
theorem exists_not_closes (h : (tally s).depth ≠ 0) :
    ∃ u v, s = u ++ '[' :: v ∧ tally u = {} ∧ ¬ Closes ('[' :: v) := by
  induction s using List.reverseRecOn with
  | nil => exact absurd rfl h
  | append_singleton s c ih =>
    by_cases hs : (tally s).depth = 0
    · -- The last character opens the bracket.
      obtain ⟨hm, rfl⟩ : (tally s).mark = none ∧ c = '[' := by
        rw [tally_concat] at h
        grind [Tally.next]
      refine ⟨s, [], rfl, Tally.ext hs hm, ?_⟩
      rintro ⟨u, hu, hne, hd⟩
      have hu : u <+: [] ++ ['['] := hu
      rcases List.prefix_concat_iff.1 hu with rfl | hu
      · exact absurd hd (by decide)
      · exact hne (List.prefix_nil.1 hu)
    · obtain ⟨u, v, rfl, hu, hv⟩ := ih hs
      refine ⟨u, v ++ [c], by simp, hu, ?_⟩
      rintro ⟨w, hw, hne, hd⟩
      have hw : w <+: '[' :: v ++ [c] := hw
      rcases List.prefix_concat_iff.1 hw with rfl | hw
      · rw [List.append_assoc, tally_append_of_eq hu] at h
        exact h hd
      · exact hv ⟨w, hw, hne, hd⟩

/-- The count does not come out even exactly if something is left open. -/
theorem balanced_eq_false_iff : balanced 0 none s = false ↔ LeftOpen s := by
  rw [balanced_eq_tally, decide_eq_false_iff_not]
  constructor
  · intro h
    by_cases hm : (tally s).mark = none
    · obtain ⟨u, v, hs, hu, hv⟩ := exists_not_closes fun hd => h (Tally.ext hd hm)
      exact .bracket hs (by rw [hu]) hv
    · exact .string hm
  · intro h he
    cases h with
    | string hm => exact hm (by rw [he])
    | @bracket u v hs hm hv =>
      -- From the bracket on, the count is no lower than it is behind the bracket alone.
      have hle := (foldl_next_mono (s := v) (a := ⟨1, none⟩) (b := ⟨(tally u).depth + 1, none⟩)
        (Nat.le_add_left _ _) rfl).1
      rw [← tally_append_opening hm, ← hs, he] at hle
      exact hv ⟨_, List.prefix_refl _, List.cons_ne_nil _ _, Nat.le_zero.1 hle⟩

/-- Where the count is back at zero, it came there at a closing bracket, outside of strings. -/
theorem Closes.exists_tally_eq (h : Closes ('[' :: t)) :
    ∃ u v, '[' :: t = u ++ v ∧ u ≠ [] ∧ tally u = {} := by
  obtain ⟨u, hu, hne, hd⟩ := h
  induction u using List.reverseRecOn with
  | nil => exact absurd rfl hne
  | append_singleton u c ih =>
    by_cases hm : (tally (u ++ [c])).mark = none
    · obtain ⟨v, hv⟩ := hu
      exact ⟨_, v, hv.symm, hne, Tally.ext hd hm⟩
    · -- The last character begins a string, so the count was at zero in front of it.
      have hd' : (tally u).depth = 0 := by
        rw [tally_concat] at hd hm
        grind [Tally.next]
      by_cases hu' : u = []
      · subst hu'
        obtain ⟨rfl, -⟩ := List.cons_prefix_cons.1 hu
        exact absurd hd (by decide)
      · exact ih ((List.prefix_append u [c]).trans hu) hu' hd'

/-- Behind a quote that is closed the count begins anew. -/
theorem Closes.exists_leftOpen (h : Closes ('[' :: t)) (ht : LeftOpen ('[' :: t)) :
    ∃ u v, '[' :: t = u ++ v ∧ u ≠ [] ∧ tally u = {} ∧ LeftOpen v := by
  obtain ⟨u, v, hs, hne, hu⟩ := h.exists_tally_eq
  refine ⟨u, v, hs, hne, hu, ?_⟩
  rw [← balanced_eq_false_iff, balanced_eq_tally] at ht ⊢
  rwa [hs, tally_append_of_eq hu] at ht

/-! ### Quotes that cannot be read -/

variable {limit : Nat} {source : String} {e : ParseError} {k : Complaint}

/-- A complaint about a quote is one about a text that begins with a bracket, and tells
    whether something is left open in that text. -/
theorem leftOpen_of_complaint (h : complaint s = .unclosedQuote ∨ complaint s = .malformedQuote) :
    ∃ t, s = '[' :: t ∧ (complaint s = .unclosedQuote ↔ LeftOpen s) := by
  rcases s with _ | ⟨c, t⟩
  · rcases h with h | h <;> cases h
  obtain rfl : c = '[' := by
    unfold complaint at h
    grind
  refine ⟨t, rfl, ?_⟩
  rw [complaint_opening, ← balanced_eq_false_iff]
  split <;> simp_all

theorem exists_message_of_parse_error (h : parse limit source = .error e) :
    ∃ (k : Complaint) (p : Nat), e.kind = k.kind ∧ e.message = k.message p := by
  rw [parse, parseChars] at h
  cases ha : assemble limit source.toList with
  | ok items =>
    rw [ha] at h
    cases h
  | error stop =>
    rw [ha] at h
    cases h
    exact ⟨_, _, rfl, rfl⟩

/-- An error about a quote is at a bracket, and tells whether something is left open in the
    text from there on. -/
theorem exists_opening_of_message (h : parse limit source = .error e)
    (hk : k = .unclosedQuote ∨ k = .malformedQuote) {p : Nat} (hm : e.message = k.message p) :
    e.kind = k.kind ∧ ∃ s t, source.toList = s ++ '[' :: t ∧ Text.byteLength s = p ∧
      (k = .unclosedQuote ↔ LeftOpen ('[' :: t)) := by
  obtain ⟨k', p', hkind, hm'⟩ := exists_message_of_parse_error h
  obtain ⟨rfl, rfl⟩ := Complaint.eq_of_message_eq hk (hm'.symm.trans hm)
  have hne : e.kind ≠ .tooDeeplyNested := by
    rw [hkind]
    rcases hk with rfl | rfl <;> nofun
  obtain ⟨ns, c, r, n, hd, -, hr, he⟩ := exists_stuck_of_parse_error h hne
  rw [errorAt_append] at he
  subst he
  obtain ⟨hc, hp⟩ := Complaint.eq_of_message_eq hk hm
  obtain ⟨t, ht, hl⟩ := leftOpen_of_complaint (hc ▸ hk : complaint (c :: r) = _ ∨ _ = _)
  rw [ht] at hl hc
  exact ⟨hkind, text ns, t, ht ▸ hd.eq, hp, hc ▸ hl⟩

/-- What an error tells about the bracket at a position that it names. If it calls the quote
    unclosed, its bracket is not closed, or it is, and something behind it is left open. If it
    calls the quote malformed, its bracket is closed, and nothing is left open. -/
structure TellsOfQuote (source : String) (e : ParseError) (p : Nat) : Prop where
  unclosed : e.message = s!"Unclosed quote starting at position {p}" →
    e.kind = .incomplete ∧ ∃ s t, source.toList = s ++ '[' :: t ∧ Text.byteLength s = p ∧
      (¬ Closes ('[' :: t) ∨
        ∃ u v, '[' :: t = u ++ v ∧ u ≠ [] ∧ tally u = {} ∧ LeftOpen v)
  malformed : e.message = s!"Malformed quote at position {p}" →
    e.kind = .invalidSyntax ∧ ∃ s t, source.toList = s ++ '[' :: t ∧ Text.byteLength s = p ∧
      Closes ('[' :: t) ∧ ¬ LeftOpen ('[' :: t)

/-- An error that calls a quote malformed is right about it. One that calls a quote unclosed
    is right if nothing is left open in the text behind that quote. -/
theorem parse_error_quote (h : parse limit source = .error e) (p : Nat) :
    TellsOfQuote source e p := by
  constructor
  · intro hm
    obtain ⟨hkind, s, t, hs, hp, hl⟩ := exists_opening_of_message (k := .unclosedQuote) h
      (.inl rfl) hm
    refine ⟨hkind, s, t, hs, hp, ?_⟩
    by_cases hc : Closes ('[' :: t)
    · exact .inr (hc.exists_leftOpen (hl.1 rfl))
    · exact .inl hc
  · intro hm
    obtain ⟨hkind, s, t, hs, hp, hl⟩ := exists_opening_of_message (k := .malformedQuote) h
      (.inr rfl) hm
    have hn : ¬ LeftOpen ('[' :: t) := fun ho => absurd (hl.2 ho) nofun
    refine ⟨hkind, s, t, hs, hp, ?_, hn⟩
    by_contra hc
    exact hn (.bracket (u := []) rfl rfl hc)

theorem parse_error_quote_malformed :
    ∃ e, parse defaultDepth "é [a | '[' | b] :c" = .error e ∧
      e.message = "Malformed quote at position 3" ∧
      TellsOfQuote "é [a | '[' | b] :c" e 3 := by
  have h : parse defaultDepth "é [a | '[' | b] :c" = .error
      (errorAt "é [a | '[' | b] :c".toList (.malformedQuote, "[a | '[' | b] :c".toList)) := by
    with_unfolding_all rfl
  exact ⟨_, h, by with_unfolding_all rfl, parse_error_quote h 3⟩

/-- A quote that is closed is called unclosed because of a bracket behind it. -/
theorem parse_error_quote_closed :
    ∃ e, parse defaultDepth "[a | b | c] [" = .error e ∧ e.kind = .incomplete ∧
      e.message = "Unclosed quote starting at position 0" ∧
      ∃ t, "[a | b | c] [".toList = '[' :: t ∧ Closes ('[' :: t) := by
  have h : parse defaultDepth "[a | b | c] [" =
      .error (errorAt "[a | b | c] [".toList (.unclosedQuote, "[a | b | c] [".toList)) := by
    with_unfolding_all rfl
  refine ⟨_, h, rfl, by with_unfolding_all rfl, "a | b | c] [".toList, by decide, ?_⟩
  exact ⟨"[a | b | c]".toList, by decide, by decide, by decide⟩

end Parser

end Catena
