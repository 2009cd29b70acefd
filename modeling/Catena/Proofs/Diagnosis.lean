import Catena.Proofs.Cut
import Mathlib.Order.Bounds.Defs

/-!
# What a parse error tells

Reading stops in front of a text that is stuck, and the error is about that text. What is in
front of it is the longest beginning of the source that is a program, since a beginning that
is longer is stuck as well.

Whether an open quote is unclosed or malformed is told by counting brackets, without regard
to the grammar. On a sequence the two agree: the count behind it is the one in front of it
(`Grammar.Derives.balanced_eq`), and where a text breaks off, a bracket or a string is open
(`Grammar.Stuck.balanced_eq_false`).

* `Parser.parse_error_at_longest`: an error is at the end of the longest beginning that is a
  program;
* `Parser.parse_beginning`: the beginning of a program is a program or incomplete.
-/

namespace Catena

open Grammar (Node Leaf Derives LeafAt Obstacle BreaksOff Stuck depth values text)

/-! ### Brackets -/

namespace Parser

variable {s t : List Char} {c : Char} {d : Nat}

theorem balanced_cons (hs : c ≠ '\'' ∧ c ≠ '\"') (hb : c ≠ '[' ∧ c ≠ ']') :
    balanced d none (c :: s) = balanced d none s := by
  simp [balanced, hs, hb]

theorem balanced_opening : balanced d none ('[' :: s) = balanced (d + 1) none s := by
  simp [balanced]

theorem balanced_closing : balanced (d + 1) none (']' :: s) = balanced d none s := by
  simp [balanced]

theorem balanced_bar : balanced d none ('|' :: s) = balanced d none s := by
  simp [balanced]

theorem balanced_mark (hc : c = '\'' ∨ c = '\"') :
    balanced d none (c :: s) = balanced d (some c) s := by
  rw [balanced, if_pos hc]

theorem balanced_separator (hc : Text.isSeparator c = true) :
    balanced d none (c :: s) = balanced d none s := by
  have hm : ∀ m, Text.isSeparator m = false → c ≠ m := by
    rintro m hm rfl
    rw [hm] at hc
    cases hc
  exact balanced_cons ⟨hm _ rfl, hm _ rfl⟩ ⟨hm _ rfl, hm _ rfl⟩

theorem balanced_plain (h : ∀ c ∈ t, Text.isNameChar c = true ∨ c.isDigit = true) :
    balanced d none (t ++ s) = balanced d none s := by
  induction t with
  | nil => rfl
  | cons c t ih =>
    rw [List.forall_mem_cons] at h
    have hm : ∀ m, Text.isNameChar m = false → m.isDigit = false → c ≠ m := by
      rintro m hn hd rfl
      simp [hn, hd] at h
    rw [List.cons_append,
      balanced_cons ⟨hm _ rfl rfl, hm _ rfl rfl⟩ ⟨hm _ rfl rfl, hm _ rfl rfl⟩, ih h.2]

/-- In a string nothing is counted. -/
theorem balanced_string (h : c ∉ t) :
    balanced d (some c) (t ++ c :: s) = balanced d none s := by
  induction t with
  | nil => simp [balanced]
  | cons x t ih =>
    rw [List.mem_cons, not_or] at h
    rw [List.cons_append, balanced, if_neg (Ne.symm h.1), ih h.2]

theorem balanced_unterminated (h : c ∉ s) : balanced d (some c) s = false := by
  induction s with
  | nil => simp [balanced]
  | cons x s ih =>
    rw [List.mem_cons, not_or] at h
    rw [balanced, if_neg (Ne.symm h.1), ih h.2]

end Parser

namespace Grammar

open Catena.Parser (balanced)

variable {s rest : List Char} {ns : List Node} {l : Leaf} {lv : Level} {d n : Nat}

theorem LeafAt.balanced_eq (h : LeafAt s l rest) : balanced d none s = balanced d none rest := by
  cases h with
  | @number n _ _ hl =>
    rw [hl.eq]
    exact Parser.balanced_plain fun c hc => Numeral.mem_text hc
  | symbol hl =>
    rw [hl.eq, Parser.balanced_cons (by decide) (by decide)]
    exact Parser.balanced_plain fun c hc => .inl ((isName_iff.1 hl.mem).2 c hc)
  | string hm hc => rw [Parser.balanced_mark hm, Parser.balanced_string hc]
  | atom _ hl =>
    rw [hl.eq]
    exact Parser.balanced_plain fun c hc => .inl ((isName_iff.1 hl.mem).2 c hc)

/-- A sequence leaves the count of open brackets where it was. -/
theorem Derives.balanced_eq (h : Derives s ns rest) :
    balanced d none s = balanced d none rest := by
  induction h generalizing d with
  | done => rfl
  | blank hc _ ih => rw [Parser.balanced_separator hc, ih]
  | leaf hl _ ih => rw [hl.balanced_eq, ih]
  | block _ _ ihb ih => rw [Parser.balanced_opening, ihb, Parser.balanced_closing, ih]
  | clause _ _ _ ihp ihb ih =>
    rw [Parser.balanced_opening, ihp, Parser.balanced_bar, ihb, Parser.balanced_closing, ih]

/-- Where a text breaks off in a quote, or a quote begins in which it breaks off, the count
    does not come out even. -/
theorem Stuck.balanced_eq_false (h : Stuck BreaksOff lv n s) (hd : 0 < d ∨ s.head? = some '[') :
    balanced d none s = false := by
  induction h generalizing d with
  | here he =>
    cases he with
    | ended => simpa [balanced, Nat.pos_iff_ne_zero] using hd
    | symbol => simpa [balanced, Nat.pos_iff_ne_zero] using hd
    | string hm hs => rw [Parser.balanced_mark hm, Parser.balanced_unterminated hs]
  | body hb _ ih => rw [Parser.balanced_opening, hb.balanced_eq, ih (.inl d.succ_pos)]
  | clause hp hb _ ih =>
    rw [Parser.balanced_opening, hp.balanced_eq, Parser.balanced_bar, hb.balanced_eq,
      ih (.inl d.succ_pos)]

end Grammar

/-! ### Complaints -/

namespace Complaint

/-- A message says the same of every position that it names. -/
theorem exists_words {k : Complaint} (hk : k.kind ≠ .tooDeeplyNested) :
    ∃ words, ∀ p, k.message p = words ++ " at position " ++ toString p := by
  cases k with
  | tooDeep => exact absurd rfl hk
  | unterminatedString => exact ⟨"Unterminated string starting", fun _ => rfl⟩
  | unclosedQuote => exact ⟨"Unclosed quote starting", fun _ => rfl⟩
  | malformedQuote => exact ⟨"Malformed quote", fun _ => rfl⟩
  | strayClosing => exact ⟨"Unexpected ']'", fun _ => rfl⟩
  | strayBar => exact ⟨"Unexpected '|' outside a quote", fun _ => rfl⟩
  | missingSymbolName => exact ⟨"Expected a symbol name after ':'", fun _ => rfl⟩
  | leftover => exact ⟨"Unexpected input", fun _ => rfl⟩

/-- The message of a complaint ends with the position, unless it is about the depth. -/
theorem exists_message_eq {k : Complaint} (hk : k.kind ≠ .tooDeeplyNested) (p : Nat) :
    ∃ words, k.message p = words ++ " at position " ++ toString p :=
  (exists_words hk).imp fun _ h => h p

end Complaint

namespace Parser

variable {limit n : Nat} {source : String} {s r : List Char} {ns : List Node} {c : Char}
  {e : ParseError} {items : List Value}

theorem complaint_opening :
    complaint ('[' :: s) =
      if balanced 0 none ('[' :: s) then .malformedQuote else .unclosedQuote := by
  simp [complaint]

theorem complaint_closing : complaint (']' :: s) = .strayClosing := by
  simp [complaint]

theorem complaint_bar : complaint ('|' :: s) = .strayBar := by
  simp [complaint]

theorem complaint_symbol : complaint (':' :: s) = .missingSymbolName := by
  simp [complaint]

theorem complaint_string (hc : c = '\'' ∨ c = '\"') (h : c ∉ s) :
    complaint (c :: s) = .unterminatedString :=
  if_pos ⟨hc, h⟩

/-- The marks at which reading can stop. -/
def stoppers : List Char := ['[', ']', '|', ':', '\'', '\"']

theorem complaint_of_stuck (h : Stuck Obstacle .outside n (c :: s)) :
    c ∈ stoppers ∧
      ((complaint (c :: s)).kind = .incomplete ∨ (complaint (c :: s)).kind = .invalidSyntax) := by
  have opening : (complaint ('[' :: s)).kind = .incomplete ∨
      (complaint ('[' :: s)).kind = .invalidSyntax := by
    rw [complaint_opening]
    split
    · exact .inr rfl
    · exact .inl rfl
  cases h with
  | body => exact ⟨by decide, opening⟩
  | clause => exact ⟨by decide, opening⟩
  | here he =>
    cases he with
    | symbol => exact ⟨by decide, .inr (by rw [complaint_symbol]; rfl)⟩
    | closing => exact ⟨by decide, .inr (by rw [complaint_closing]; rfl)⟩
    | bar => exact ⟨by decide, .inr (by rw [complaint_bar]; rfl)⟩
    | string hm hs =>
      refine ⟨?_, .inl (by rw [complaint_string hm hs]; rfl)⟩
      rcases hm with rfl | rfl <;> decide

/-- Where a text breaks off, more text is asked for, or a name for a colon at its end. -/
theorem complaint_of_breaksOff (h : Stuck BreaksOff .outside n s) (hs : s ≠ []) :
    complaint s = .unterminatedString ∨ complaint s = .unclosedQuote ∨ s = [':'] := by
  have opening : ∀ {s}, Stuck BreaksOff .outside n ('[' :: s) →
      complaint ('[' :: s) = .unclosedQuote := by
    intro s h
    rw [complaint_opening, h.balanced_eq_false (.inr rfl)]
    rfl
  cases h with
  | body hb hr => exact .inr (.inl (opening (.body hb hr)))
  | clause hp hb hr => exact .inr (.inl (opening (.clause hp hb hr)))
  | here he =>
    cases he with
    | ended => exact absurd rfl hs
    | symbol => exact .inr (.inr rfl)
    | string hm hc => exact .inl (complaint_string hm hc)

/-! ### Errors -/

/-- If there is room, a text is a program or there is an error where it is stuck. -/
theorem parse_eq_of_stuck (h : Derives source.toList ns r) (hr : Stuck Obstacle .outside n r)
    (hn : max (depth ns) n ≤ limit) :
    parse limit source =
      if r = [] then .ok (values ns) else .error (errorAt source.toList (complaint r, r)) := by
  rw [parse, parseChars, assemble_eq_of_stuck h hr hn]
  split <;> rfl

theorem exists_parse_eq_of_tooDeep (h : Derives source.toList ns r)
    (hr : Stuck Obstacle .outside n r) (hn : limit < max (depth ns) n) :
    ∃ e, parse limit source = .error e ∧ e.kind = .tooDeeplyNested := by
  obtain ⟨text, ht⟩ := assemble_eq_tooDeep h hr hn
  exact ⟨_, by rw [parse, parseChars, ht]; rfl, rfl⟩

/-- The place of an error is the length of what is in front of it. -/
theorem errorAt_append (k : Complaint) (s t : List Char) :
    errorAt (s ++ t) (k, t) =
      .atOffset k.kind (k.message (Text.byteLength s)) (s ++ t) (Text.byteLength s) := by
  simp [errorAt]

/-- An error of a text with room for its quotes: where it is stuck. -/
theorem exists_stuck_of_parse_error (h : parse limit source = .error e)
    (hk : e.kind ≠ .tooDeeplyNested) :
    ∃ ns c r n, Derives source.toList ns (c :: r) ∧ depth ns ≤ limit ∧
      Stuck Obstacle .outside n (c :: r) ∧
      e = errorAt (text ns ++ c :: r) (complaint (c :: r), c :: r) := by
  obtain ⟨ns, r, n, hd, hr⟩ := Grammar.exists_stuck source.toList
  by_cases hn : max (depth ns) n ≤ limit
  · rw [parse_eq_of_stuck hd hr hn, hd.eq] at h
    rcases r with _ | ⟨c, r⟩
    · cases h
    · cases h
      exact ⟨ns, c, r, n, hd, (Nat.max_le.1 hn).1, hr, rfl⟩
  · obtain ⟨e', he, hk'⟩ := exists_parse_eq_of_tooDeep hd hr (Nat.lt_of_not_le hn)
    rw [h] at he
    cases he
    exact absurd hk' hk

/-- What is in front of a text that is stuck is a program. -/
theorem exists_parse_text (h : Derives s ns r) (hn : depth ns ≤ limit) :
    ∃ items, parse limit (String.ofList (text ns)) = .ok items := by
  refine ⟨values ns, parse_eq_ok_iff_derives.2 ⟨ns, ?_, hn, rfl⟩⟩
  simpa using Derives.truncate (r := []) (t := r) h

/-- An error points at the end of the longest beginning of the source that is a program:
    its message names the length of that beginning in bytes, and the character behind it,
    one of the marks at which reading stops, is what was found. -/
structure PointsAtEnd (limit : Nat) (source : String) (e : ParseError) (p : Nat) : Prop where
  message : ∃ words, e.message = words ++ " at position " ++ toString p
  longest : IsGreatest {k | ∃ s, s <+: source.toList ∧
    (∃ items, parse limit (String.ofList s) = .ok items) ∧ Text.byteLength s = k} p
  found : ∃ s c t, source.toList = s ++ c :: t ∧ Text.byteLength s = p ∧
    e.found = some (String.ofList [c]) ∧ c ∈ stoppers
  kind : e.kind = .incomplete ∨ e.kind = .invalidSyntax

/-- An error that is not about the depth points at the end of the longest beginning of the
    source that is a program. -/
theorem parse_error_at_longest (h : parse limit source = .error e)
    (hk : e.kind ≠ .tooDeeplyNested) : ∃ p, PointsAtEnd limit source e p := by
  obtain ⟨ns, c, r, n, hd, hn, hr, he⟩ := exists_stuck_of_parse_error h hk
  have hs := hd.eq
  rw [errorAt_append] at he
  subst he
  obtain ⟨hc, hkind⟩ := complaint_of_stuck hr
  refine ⟨Text.byteLength (text ns), Complaint.exists_message_eq hk _,
    ⟨⟨_, ⟨_, hs.symm⟩, exists_parse_text hd hn, rfl⟩, ?_⟩, ?_, hkind⟩
  · rintro _ ⟨s, ⟨t, ht⟩, ⟨items, hp⟩, rfl⟩
    obtain ⟨ms, hm, -, -⟩ := parse_eq_ok_iff_derives.1 hp
    rw [String.toList_ofList] at hm
    obtain ⟨b, hb⟩ := hr.exists_text_eq hd hm ht.symm
    rw [hb, Text.byteLength_append]
    exact Nat.le_add_right _ _
  · refine ⟨_, c, r, hs, rfl, ?_, hc⟩
    simp [ParseError.atOffset, Text.charAtByte?_byteLength]

theorem parse_error_at_longest_stray :
    ∃ e, parse defaultDepth "'é' ] b" = .error e ∧ e.kind = .invalidSyntax ∧
      ∃ p, PointsAtEnd defaultDepth "'é' ] b" e p := by
  have hl : LeafAt ('\'' :: (['é'] ++ '\'' :: [' ', ']', ' ', 'b'])) (.string '\'' ['é']) _ :=
    .string (.inl rfl) (by decide)
  have hd : Derives "'é' ] b".toList [.leaf (.string '\'' ['é']), .blank ' '] [']', ' ', 'b'] :=
    .leaf hl (.blank rfl .done)
  have hp : parse defaultDepth "'é' ] b" = _ :=
    parse_eq_of_stuck hd (.here (.closing rfl)) (by decide)
  exact ⟨_, hp, rfl, parse_error_at_longest hp nofun⟩

/-- How the beginning of a program can fail: it is incomplete, with a string or a quote open
    at its end, or it ends with a colon that has no name yet. -/
inductive AsksForMore (front : String) (e : ParseError) : Prop
  | string {p : Nat} : e.kind = .incomplete →
    e.message = s!"Unterminated string starting at position {p}" → AsksForMore front e
  | quote {p : Nat} : e.kind = .incomplete →
    e.message = s!"Unclosed quote starting at position {p}" → AsksForMore front e
  | symbol {s : List Char} : front.toList = s ++ [':'] → e.kind = .invalidSyntax →
    e.message = s!"Expected a symbol name after ':' at position {Text.byteLength s}" →
    AsksForMore front e

/-- The beginning of a program is a program, or what is wrong with it is that it ends. -/
theorem parse_beginning {front back : String} (h : parse limit (front ++ back) = .ok items) :
    (∃ vs, parse limit front = .ok vs) ∨
      ∃ e, parse limit front = .error e ∧ AsksForMore front e := by
  obtain ⟨ns, hd, hn, -⟩ := parse_eq_ok_iff_derives.1 h
  have hu : text ns = front.toList ++ back.toList := by
    rw [← String.toList_append, hd.eq, List.append_nil]
  obtain ⟨ms, r, k, hm, hr, hk⟩ : Grammar.Unfinished .outside (depth ns) front.toList :=
    hd.unfinished hu
  have hp := parse_eq_of_stuck hm (hr.mono fun _ _ => BreaksOff.obstacle) (hk.trans hn)
  by_cases hne : r = []
  · exact .inl ⟨_, by rw [hp, if_pos hne]⟩
  rw [if_neg hne, hm.eq, errorAt_append] at hp
  refine .inr ⟨_, hp, ?_⟩
  rcases complaint_of_breaksOff hr hne with hc | hc | rfl
  · exact hc ▸ .string rfl rfl
  · exact hc ▸ .quote rfl rfl
  · exact complaint_symbol ▸ .symbol hm.eq rfl rfl

theorem parse_beginning_string :
    parse defaultDepth ("[:a \" ]" ++ "\"]") = .ok [.quote [] [.sym "a", .str " ]"]] ∧
      ((∃ vs, parse defaultDepth "[:a \" ]" = .ok vs) ∨
        ∃ e, parse defaultDepth "[:a \" ]" = .error e ∧ AsksForMore "[:a \" ]" e) := by
  have h : parse defaultDepth ("[:a \" ]" ++ "\"]") = .ok [.quote [] [.sym "a", .str " ]"]] := by
    with_unfolding_all rfl
  exact ⟨h, parse_beginning h⟩

end Parser

end Catena
