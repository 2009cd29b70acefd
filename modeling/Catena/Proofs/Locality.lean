import Catena.Proofs.Diagnosis
import Catena.Proofs.Printing

/-!
# Parsing is local

How a text is read depends neither on how much room there is for its quotes, as long as
there is enough, nor on what has been read in front of it.

For every text there is a depth from which on the limit makes no difference: with less room
the text is nested too deeply, with as much or more it is read in one and the same way
(`Parser.parse_threshold`).

A separator ends every item in front of it, since none contains one (`Grammar.Derives.extend`).
What follows is assembled as if it stood alone (`Assembly.resume_after`), and where it cannot
be read, it is so at the same place of it (`Assembly.Reads.suffix_of_error`). So the parse of
two texts with separators between them is that of the one and of the other
(`Parser.parse_append_separated`).
-/

namespace Catena

open Grammar (Node Derives LeafAt TokenAt values depth)

/-! ### Room -/

namespace Parser

open Grammar (Obstacle Stuck)

/-- The limit on the depth of quotes is a threshold. With less room than a text needs, it is
    nested too deeply; with as much as it needs or more, the limit makes no difference. A
    program needs as much as its values are deep. -/
theorem parse_threshold (source : String) : ∃ room,
    (∀ limit < room, ∃ e, parse limit source = .error e ∧ e.kind = .tooDeeplyNested) ∧
    (∀ limit, room ≤ limit → parse limit source = parse room source) ∧
    (∀ e, parse room source = .error e → e.kind ≠ .tooDeeplyNested) ∧
    ∀ items, parse room source = .ok items → Value.nestingOf items = room := by
  obtain ⟨ns, r, n, hd, hr⟩ := Grammar.exists_stuck source.toList
  have hroom := parse_eq_of_stuck hd hr le_rfl
  refine ⟨max (depth ns) n, fun limit hl => exists_parse_eq_of_tooDeep hd hr hl,
    fun limit hl => (parse_eq_of_stuck hd hr hl).trans hroom.symm, ?_, ?_⟩
  · intro e he
    rw [hroom] at he
    rcases r with _ | ⟨c, r⟩
    · cases he
    · cases he
      rcases (complaint_of_stuck hr).2 with hk | hk
      · exact fun h => absurd (hk.symm.trans h) nofun
      · exact fun h => absurd (hk.symm.trans h) nofun
  · intro items hi
    rw [hroom] at hi
    rcases r with _ | ⟨c, r⟩
    · cases hi
      -- No quote is open at the end of a program.
      cases hr with
      | here => rw [Value.nestingOf_values hd, Nat.max_zero]
    · cases hi

end Parser

/-! ### Behind an item -/

namespace Grammar

variable {s t w rest : List Char} {ns : List Node} {l : Leaf} {c : Char}

theorem not_mem_of_isNumeral (hc : Text.isSeparator c = true) (hw : IsNumeral w) : c ∉ w := by
  obtain ⟨n, rfl⟩ := hw
  intro hm
  rcases Numeral.mem_text hm with hn | hd
  · rw [Text.not_isNameChar_of_isSeparator hc] at hn
    cases hn
  · simp only [Text.isSeparator, Bool.or_eq_true, beq_iff_eq] at hc
    rcases hc with ((rfl | rfl) | rfl) | rfl <;> cases hd

theorem not_mem_of_isName (hc : Text.isSeparator c = true) (hw : IsName w) : c ∉ w := by
  intro hm
  have hn := (isName_iff.1 hw).2 c hm
  rw [Text.not_isNameChar_of_isSeparator hc] at hn
  cases hn

/-- What does not contain a character does not reach beyond it. -/
theorem Longest.extend {L : List Char → Prop} (h : Longest L s w rest)
    (hL : ∀ w, L w → c ∉ w) : Longest L (s ++ c :: t) w (rest ++ c :: t) := by
  refine ⟨by rw [h.eq, List.append_assoc], h.mem, fun w' rest' he hw' => ?_⟩
  -- Another beginning ends in front of the character, or it contains it.
  rcases append_eq_append_cons he.symm with ⟨b, hb⟩ | ⟨b, hb, -⟩
  · exact h.maximal w' b hb hw'
  · exact absurd (by simp [hb]) (hL w' hw')

theorem LeafAt.extend (h : LeafAt s l rest) (hc : Text.isSeparator c = true) :
    LeafAt (s ++ c :: t) l (rest ++ c :: t) := by
  cases h with
  | number hl => exact .number (hl.extend fun _ => not_mem_of_isNumeral hc)
  | symbol hl => exact .symbol (hl.extend fun _ => not_mem_of_isName hc)
  | string hm ht => simpa using LeafAt.string hm ht
  | atom hn hl =>
    refine .atom (fun w rest' he hw => ?_) (hl.extend fun _ => not_mem_of_isName hc)
    rcases append_eq_append_cons he.symm with ⟨b, hb⟩ | ⟨b, hb, -⟩
    · exact hn w b hb hw
    · exact absurd (by simp [hb]) (not_mem_of_isNumeral hc hw)

/-- What is derived stays so if a separator and any text follow. -/
theorem Derives.extend (h : Derives s ns rest) (hc : Text.isSeparator c = true) :
    Derives (s ++ c :: t) ns (rest ++ c :: t) := by
  induction h with
  | done => exact .done
  | blank hb _ ih => exact .blank hb ih
  | leaf hl _ ih => exact .leaf (hl.extend hc) ih
  | block _ _ ihb ih => exact .block ihb ih
  | clause _ _ _ ihp ihb ih => exact .clause ihp ihb ih

end Grammar

/-! ### Behind a sequence -/

namespace Stop

/-- The text in front of which assembling stops. -/
def text : Stop → List Char
  | tooDeep text => text
  | unreadable text => text

end Stop

/-- What is left to read begins in an open quote. -/
theorem Frame.Reads.suffix {f : Frame} {s : List Char} (h : f.Reads s) : s <:+ f.start := by
  cases h with
  | @body t _ ns hb =>
    exact ⟨'[' :: Grammar.text ns, by rw [hb.eq, List.cons_append]⟩
  | @clause t u _ ps ns hp hb =>
    exact ⟨'[' :: (Grammar.text ps ++ '|' :: Grammar.text ns), by simp [hp.eq, hb.eq]⟩

namespace Assembly

variable {limit : Nat} {a : Assembly} {s source : List Char} {l : Lexeme} {vs : List Value}
  {t : Token} {stop : Stop}

/-- An assembly with values in front of all those read outside all quotes. -/
def after (vs : List Value) (a : Assembly) : Assembly :=
  { a with latest := a.latest ++ vs.reverse }

theorem add_after {v : Value} : (a.after vs).add v = (a.add v).after vs := by
  rcases a with ⟨latest, _ | ⟨f, fs⟩⟩ <;> rfl

theorem take_after : take limit (a.after vs) l = (take limit a l).map (after vs) := by
  obtain ⟨t, text⟩ := l
  cases t with
  | item v => exact congrArg Except.ok add_after
  | opening =>
    by_cases h : a.frames.length < limit
    · rw [take_opening h, take_opening (a := a.after vs) h]
      rfl
    · rw [take_opening_full h, take_opening_full (a := a.after vs) h]
      rfl
  | closing =>
    rcases a with ⟨latest, _ | ⟨f, fs⟩⟩
    · rfl
    · exact congrArg Except.ok (add_after (a := ⟨latest, fs⟩))
  | bar =>
    rcases a with ⟨latest, _ | ⟨f, fs⟩⟩
    · rfl
    · by_cases hf : f.pattern.isSome = true <;> simp [take, after, place, hf, Except.map]

theorem finish_after : (a.after vs).finish s = (a.finish s).map (vs ++ ·) := by
  unfold finish
  by_cases h : (a.frames.isEmpty && s.isEmpty) = true
  · rw [if_pos h, if_pos (show ((a.after vs).frames.isEmpty && s.isEmpty) = true from h)]
    simp [after, Except.map]
  · rw [if_neg h, if_neg (show ¬ ((a.after vs).frames.isEmpty && s.isEmpty) = true from h)]
    rfl

/-- What has been read in front makes no difference to what comes next. -/
theorem resume_after : resume limit (a.after vs) s = (resume limit a s).map (vs ++ ·) := by
  unfold resume
  generalize (lexemes s).1 = ls, (lexemes s).2 = rest
  induction ls generalizing a with
  | nil => exact finish_after
  | cons l ls ih =>
    rw [List.foldlM_cons, List.foldlM_cons, take_after]
    cases take limit a l with
    | error stop => rfl
    | ok a' => exact ih

/-! ### The place of an error -/

theorem Reads.suffix (h : Reads source a s) : s <:+ source := by
  induction h with
  | outside ho => exact ⟨_, ho.eq.symm⟩
  | inside _ hf ih => exact hf.suffix.trans ih

theorem Reads.place_suffix (h : Reads source a s) : a.place s <:+ source := by
  induction h with
  | outside ho => exact ⟨_, ho.eq.symm⟩
  | inside _ _ ih => simpa [place, List.getLast?_cons] using ih

/-- Assembling stops in front of a token, behind it, or in front of an open quote. -/
theorem take_error (h : take limit a ⟨t, s⟩ = .error stop) :
    stop.text <:+ s ∨ stop.text = a.place s := by
  cases t with
  | item v => cases h
  | opening =>
    by_cases hf : a.frames.length < limit
    · rw [take_opening hf] at h
      cases h
    · rw [take_opening_full hf] at h
      cases h
      exact .inl (List.drop_suffix 1 s)
  | closing =>
    rcases a with ⟨latest, _ | ⟨f, fs⟩⟩
    · cases h
      exact .inl (List.suffix_refl s)
    · cases h
  | bar =>
    rcases a with ⟨latest, _ | ⟨f, fs⟩⟩
    · cases h
      exact .inl (List.suffix_refl s)
    · by_cases hf : f.pattern.isSome = true
      · simp only [take, hf, if_true, Except.error.injEq] at h
        exact .inr (h ▸ rfl)
      · simp [take, hf] at h

/-- Assembling stops in front of an end of the text. -/
theorem Reads.suffix_of_error (h : Reads source a s) (hr : resume limit a s = .error stop) :
    stop.text <:+ source := by
  obtain ⟨a', s', h', hf | ⟨t, stop', ha, he⟩⟩ := h.exists_end limit
  · rw [hf, finish] at hr
    split at hr
    · cases hr
    · cases hr
      exact h'.place_suffix
  · rw [he] at hr
    cases hr
    rcases take_error ha with hs | hp
    · exact hs.trans h'.suffix
    · exact hp ▸ h'.place_suffix

end Assembly

/-! ### Two texts -/

namespace Parser

variable {limit : Nat} {items : List Value} {front blanks : String} {s t : List Char}
  {k : Complaint}

theorem resume_blanks {a : Assembly} (h : ∀ c ∈ s, Text.isSeparator c = true) :
    Assembly.resume limit a (s ++ t) = Assembly.resume limit a t := by
  induction s with
  | nil => rfl
  | cons c s ih =>
    rw [List.forall_mem_cons] at h
    rw [List.cons_append, Assembly.resume_separator h.1, ih h.2]

/-- Behind a program and a separator, a text is assembled as it is alone. -/
theorem assemble_append (h : parse limit front = .ok items) (hs : s ≠ [])
    (hb : ∀ c ∈ s, Text.isSeparator c = true) :
    assemble limit (front.toList ++ (s ++ t)) = (assemble limit t).map (items ++ ·) := by
  obtain ⟨ns, hd, hn, rfl⟩ := parse_eq_ok_iff_derives.1 h
  obtain ⟨c, u, rfl⟩ := List.exists_cons_of_ne_nil hs
  have hd := hd.extend (t := u ++ t) (hb c List.mem_cons_self)
  have ha : Assembly.addAll (values ns) {} = Assembly.after (values ns) {} := by
    simp [Assembly.addAll, Assembly.after]
  rw [Assembly.assemble_eq_resume, List.cons_append, hd.resume_eq _ (by simpa using hn),
    List.nil_append, ← List.cons_append, resume_blanks hb, ha, Assembly.resume_after,
    Assembly.assemble_eq_resume]

/-- A second error is the first one, but `n` bytes further on in the text. It is of the same
    kind, found at the same character, and its message names the place that many bytes later;
    the message about the depth names no place. -/
structure Shifted (n : Nat) (e e' : ParseError) : Prop where
  kind : e'.kind = e.kind
  found : e'.found = e.found
  tooDeep : e.kind = .tooDeeplyNested → e'.message = e.message
  message : e.kind ≠ .tooDeeplyNested → ∃ words p,
    e.message = words ++ " at position " ++ toString p ∧
    e'.message = words ++ " at position " ++ toString (n + p)

theorem found_errorAt :
    (errorAt (s ++ t) (k, t)).found = t.head?.map fun c => String.ofList [c] := by
  rw [errorAt_append]
  simp [ParseError.atOffset, Text.charAtByte?]

theorem message_errorAt :
    (errorAt (s ++ t) (k, t)).message = k.message (Text.byteLength s) := by
  rw [errorAt_append]
  rfl

/-- An error at one place of a text, and of that text with another one in front. -/
theorem shifted_errorAt {u : List Char} (h : t <:+ u) :
    Shifted (Text.byteLength s) (errorAt u (k, t)) (errorAt (s ++ u) (k, t)) := by
  obtain ⟨w, rfl⟩ := h
  have happ : s ++ (w ++ t) = (s ++ w) ++ t := (List.append_assoc s w t).symm
  refine ⟨rfl, ?_, fun hk => ?_, fun hk => ?_⟩
  · rw [happ, found_errorAt, found_errorAt]
  · rw [happ, message_errorAt, message_errorAt]
    cases k with
    | tooDeep => rfl
    | _ => cases hk
  · obtain ⟨words, hw⟩ := Complaint.exists_words hk
    refine ⟨words, Text.byteLength w, ?_, ?_⟩
    · rw [message_errorAt, hw]
    · rw [happ, message_errorAt, hw, Text.byteLength_append]

/-- The parse of two texts with separators between them. If the first is a program, its
    values stand in front of those of the second; and what is wrong with the second is wrong
    with the whole, as many bytes further on as there are in front of it. -/
theorem parse_append_separated (h : parse limit front = .ok items) (hne : blanks ≠ "")
    (hb : ∀ c ∈ blanks.toList, Text.isSeparator c = true) (back : String) :
    (∀ vs, parse limit back = .ok vs → parse limit (front ++ blanks ++ back) = .ok (items ++ vs)) ∧
    ∀ e, parse limit back = .error e → ∃ e', parse limit (front ++ blanks ++ back) = .error e' ∧
      Shifted (Text.byteLength (front ++ blanks).toList) e e' := by
  have hs : (front ++ blanks ++ back).toList =
      front.toList ++ (blanks.toList ++ back.toList) := by simp
  have ha := assemble_append (t := back.toList) h (by simpa using hne) hb
  rw [parse, parse, parseChars, parseChars, hs, ha]
  cases hr : assemble limit back.toList with
  | ok vs =>
    refine ⟨fun vs' hv => ?_, fun e he => ?_⟩
    · cases hv
      rfl
    · cases he
  | error stop =>
    refine ⟨fun vs hv => ?_, fun e he => ?_⟩
    · cases hv
    · cases he
      have hsuffix := Assembly.Reads.suffix_of_error (.outside .done) hr
      rw [String.toList_append, ← List.append_assoc]
      cases stop with
      | tooDeep text => exact ⟨_, rfl, shifted_errorAt hsuffix⟩
      | unreadable text => exact ⟨_, rfl, shifted_errorAt hsuffix⟩

theorem parse_append_separated_unclosed :
    parse defaultDepth "[x | 'é'] :a" = .ok [.quote [.atom "x"] [.str "é"], .sym "a"] ∧
      ∃ e e', parse defaultDepth "é [a" = .error e ∧
        parse defaultDepth ("[x | 'é'] :a" ++ " \n " ++ "é [a") = .error e' ∧ Shifted 16 e e' := by
  have h : parse defaultDepth "[x | 'é'] :a" = .ok [.quote [.atom "x"] [.str "é"], .sym "a"] := by
    with_unfolding_all rfl
  have he : parse defaultDepth "é [a" =
      .error (errorAt "é [a".toList (.unclosedQuote, "[a".toList)) := by
    with_unfolding_all rfl
  have hne : " \n " ≠ "" := by decide
  have hb : ∀ c ∈ " \n ".toList, Text.isSeparator c = true := by simp [Text.isSeparator]
  have hlength : Text.byteLength ("[x | 'é'] :a" ++ " \n ").toList = 16 := by decide
  obtain ⟨e', he', hs⟩ := (parse_append_separated h hne hb "é [a").2 _ he
  exact ⟨h, _, e', he, he', hlength ▸ hs⟩

end Parser

end Catena
