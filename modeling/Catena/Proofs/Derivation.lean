import Catena.Parser
import Catena.Proofs.Token

/-!
# Derivations and assembling

The parser takes one token after the other and keeps a frame for every open quote; the
grammar puts quotes together from derivations of their halves. Two facts tie them:

* a derivation is carried out by the assembly (`Grammar.Derives.resume_eq`), unless it
  contains a quote for which there is no room (`Grammar.Derives.resume_eq_tooDeep`);
* an assembly is at every time what has been read of the text (`Assembly.Reads`): outside
  all quotes, and in each open one, there is a derivation up to here. A token that is taken
  keeps this (`Assembly.Reads.take`), and at the end of the text a derivation of all of it
  is left (`Assembly.Reads.exists_derives`).

* `Parser.parse_exactly_grammar`: the texts that are read are those of the grammar, with
  the values of their only derivation.
-/

namespace Catena

open Grammar (Node Derives LeafAt TokenAt values depth)

/-! ### Derivations -/

namespace Grammar

/-- No sequence goes on at a text: it is empty, or a closing bracket or a bar is next. -/
inductive Closed : List Char → Prop
  | nil : Closed []
  | closing {s} : Closed (']' :: s)
  | bar {s} : Closed ('|' :: s)

variable {s t rest rest' : List Char} {ns ns' : List Node} {l : Leaf} {c : Char}

/-- Two sequences, one after the other, are a sequence. -/
theorem Derives.append (h : Derives s ns t) (h' : Derives t ns' rest) :
    Derives s (ns ++ ns') rest := by
  induction h with
  | done => exact h'
  | blank hc _ ih => exact .blank hc (ih h')
  | leaf hl _ ih => exact .leaf hl (ih h')
  | block hb _ _ ih => exact .block hb (ih h')
  | clause hp hb _ _ _ ih => exact .clause hp hb (ih h')

@[simp]
theorem values_append : values (ns ++ ns') = values ns ++ values ns' := by
  induction ns with
  | nil => rfl
  | cons n ns ih => simp [values, ih]

theorem LeafAt.not_closed (h : LeafAt s l rest) : ¬ Closed s := by
  rintro (_ | _ | _) <;> cases h.scan_eq

theorem not_closed_separator (h : Text.isSeparator c = true) : ¬ Closed (c :: s) := by
  rintro (_ | _ | _) <;> exact absurd h (by decide)

theorem not_leafAt_separator (h : Text.isSeparator c = true) : ¬ LeafAt (c :: s) l rest :=
  fun hl => absurd (hl.scan_eq.symm.trans (scan_separator h)) nofun

theorem not_leafAt_opening : ¬ LeafAt ('[' :: s) l rest :=
  fun hl => absurd (hl.scan_eq.symm.trans scan_opening) (by simp)

@[simp]
theorem depth_append : depth (ns ++ ns') = max (depth ns) (depth ns') := by
  induction ns with
  | nil => simp [depth]
  | cons n ns ih => simp [depth, ih, Nat.max_assoc]

/-- Where no sequence goes on, only the empty one is derived. -/
theorem Closed.eq_of_derives (hs : Closed s) (h : Derives s ns rest) : ns = [] ∧ rest = s := by
  cases h with
  | done => exact ⟨rfl, rfl⟩
  | blank hc _ => exact absurd hs (not_closed_separator hc)
  | leaf hl _ => exact absurd hs hl.not_closed
  | block _ _ => cases hs
  | clause _ _ _ => cases hs

/-- A derivation that goes on for as long as it can begins with every other one of its
    text. -/
theorem Derives.split (h : Derives s ns t) (h' : Derives s ns' rest) (hr : Closed rest) :
    ∃ ms, ns' = ns ++ ms ∧ Derives t ms rest := by
  induction h generalizing ns' rest with
  | done => exact ⟨ns', rfl, h'⟩
  | blank hc _ ih =>
    cases h' with
    | done => exact absurd hr (not_closed_separator hc)
    | blank _ h' =>
      obtain ⟨ms, rfl, hm⟩ := ih h' hr
      exact ⟨ms, rfl, hm⟩
    | leaf hl _ => exact absurd hl (not_leafAt_separator hc)
    | block _ _ => cases hc
    | clause _ _ _ => cases hc
  | leaf hl _ ih =>
    cases h' with
    | done => exact absurd hr hl.not_closed
    | blank hc _ => exact absurd hl (not_leafAt_separator hc)
    | leaf hl' h' =>
      obtain ⟨rfl, rfl⟩ := hl.unique hl'
      obtain ⟨ms, rfl, hm⟩ := ih h' hr
      exact ⟨ms, rfl, hm⟩
    | block _ _ => exact absurd hl not_leafAt_opening
    | clause _ _ _ => exact absurd hl not_leafAt_opening
  | block _ _ ihb ih =>
    cases h' with
    | done => cases hr
    | blank hc _ => cases hc
    | leaf hl _ => exact absurd hl not_leafAt_opening
    | block hb' h' =>
      obtain ⟨_, rfl, hm⟩ := ihb hb' .closing
      obtain ⟨rfl, he⟩ := Closed.closing.eq_of_derives hm
      cases he
      obtain ⟨ms, rfl, hm⟩ := ih h' hr
      exact ⟨ms, by rw [List.append_nil, List.cons_append], hm⟩
    | clause hp' _ _ =>
      obtain ⟨_, -, hm⟩ := ihb hp' .bar
      cases (Closed.closing.eq_of_derives hm).2
  | clause _ _ _ ihp ihb ih =>
    cases h' with
    | done => cases hr
    | blank hc _ => cases hc
    | leaf hl _ => exact absurd hl not_leafAt_opening
    | block hb' _ =>
      obtain ⟨_, -, hm⟩ := ihp hb' .closing
      cases (Closed.bar.eq_of_derives hm).2
    | clause hp' hb' h' =>
      obtain ⟨_, rfl, hm⟩ := ihp hp' .bar
      obtain ⟨rfl, he⟩ := Closed.bar.eq_of_derives hm
      cases he
      obtain ⟨_, rfl, hm⟩ := ihb hb' .closing
      obtain ⟨rfl, he⟩ := Closed.closing.eq_of_derives hm
      cases he
      obtain ⟨ms, rfl, hm⟩ := ih h' hr
      exact ⟨ms, by rw [List.append_nil, List.append_nil, List.cons_append], hm⟩

/-- A text has at most one derivation that goes on for as long as it can. -/
theorem Derives.unique (h : Derives s ns rest) (h' : Derives s ns' rest')
    (hr : Closed rest) (hr' : Closed rest') : ns = ns' ∧ rest = rest' := by
  obtain ⟨ms, rfl, hm⟩ := h.split h' hr'
  obtain ⟨rfl, rfl⟩ := hr.eq_of_derives hm
  exact ⟨(List.append_nil ns).symm, rfl⟩

end Grammar

/-! ### Taking the tokens of a text -/

section Lexemes

variable {s rest : List Char} {c : Char} {t : Token}

theorem lexemes_separator (h : Text.isSeparator c = true) : lexemes (c :: s) = lexemes s := by
  rw [lexemes.eq_1, lexemes.eq_1 s, List.dropWhile_cons_of_pos h]

theorem lexemes_token (h : Token.scan s = some (t, rest)) :
    lexemes s = (⟨t, s⟩ :: (lexemes rest).1, (lexemes rest).2) := by
  have hs : s.dropWhile Text.isSeparator = s := by
    cases s with
    | nil => rfl
    | cons c s =>
      refine List.dropWhile_cons_of_neg fun hc => ?_
      rw [Grammar.scan_separator hc] at h
      cases h
  rw [lexemes.eq_1]
  split
  · rename_i hn
    rw [hs, h] at hn
    cases hn
  · rename_i hn
    rw [hs, h] at hn
    cases hn
    rw [hs]

theorem lexemes_stuck (h : Token.scan s = none) (hs : Stops Text.isSeparator s) :
    lexemes s = ([], s) := by
  have hd : s.dropWhile Text.isSeparator = s := dropWhile_append (t := []) nofun hs
  rw [lexemes.eq_1]
  split
  · rw [hd]
  · rename_i hn
    rw [hd, h] at hn
    cases hn

end Lexemes

namespace Assembly

variable {limit : Nat} {a a' : Assembly} {s rest source : List Char} {c : Char} {t : Token}
  {vs ws items : List Value} {ns : List Node} {v : Value}

/-- What comes of an assembly that takes all tokens of a text. -/
def resume (limit : Nat) (a : Assembly) (s : List Char) : Except Stop (List Value) := do
  let a ← (lexemes s).1.foldlM (take limit) a
  a.finish (lexemes s).2

theorem assemble_eq_resume : assemble limit s = resume limit {} s := rfl

theorem resume_separator (h : Text.isSeparator c = true) :
    resume limit a (c :: s) = resume limit a s := by
  rw [resume, lexemes_separator h, resume]

theorem resume_token (h : Token.scan s = some (t, rest)) :
    resume limit a s = (take limit a ⟨t, s⟩).bind fun a => resume limit a rest := by
  rw [resume, lexemes_token h, List.foldlM_cons]
  exact bind_assoc (m := Except Stop) ..

theorem resume_stuck (h : Token.scan s = none) (hs : Stops Text.isSeparator s) :
    resume limit a s = a.finish s := by
  rw [resume, lexemes_stuck h hs]
  rfl

/-- An assembly with more values at its innermost level. -/
def addAll (vs : List Value) (a : Assembly) : Assembly :=
  match a.frames with
  | [] => { a with latest := vs.reverse ++ a.latest }
  | f :: fs => { a with frames := { f with latest := vs.reverse ++ f.latest } :: fs }

@[simp]
theorem addAll_nil : a.addAll [] = a := by
  rcases a with ⟨_, _ | _⟩ <;> rfl

theorem add_eq_addAll : a.add v = a.addAll [v] := rfl

@[simp]
theorem addAll_addAll : (a.addAll vs).addAll ws = a.addAll (vs ++ ws) := by
  rcases a with ⟨_, _ | _⟩ <;> simp [addAll]

@[simp]
theorem length_frames_addAll : (a.addAll vs).frames.length = a.frames.length := by
  rcases a with ⟨_, _ | _⟩ <;> rfl

/-- An assembly after an opening bracket, at which the text `start` begins. -/
def enter (start : List Char) (a : Assembly) : Assembly :=
  { a with frames := { start := start } :: a.frames }

@[simp]
theorem length_frames_enter : (a.enter s).frames.length = a.frames.length + 1 := rfl

/-- A bar takes what has been read of a quote for its pattern. -/
def bar (start : List Char) (pattern : List Value) (a : Assembly) : Assembly :=
  { a with frames := { start := start, pattern := some pattern } :: a.frames }

@[simp]
theorem length_frames_bar : (a.bar s vs).frames.length = a.frames.length + 1 := rfl

theorem take_opening (h : a.frames.length < limit) :
    take limit a ⟨.opening, s⟩ = .ok (a.enter s) :=
  if_pos h

theorem take_opening_full (h : ¬ a.frames.length < limit) :
    take limit a ⟨.opening, s⟩ = .error (.tooDeep (s.drop 1)) :=
  if_neg h

theorem resume_opening (h : a.frames.length < limit) :
    resume limit a ('[' :: s) = resume limit (a.enter ('[' :: s)) s := by
  rw [resume_token Grammar.scan_opening, take_opening h, Except.bind]

/-- A bracket for which there is no room stops the assembly, so one may take it that there
    is. -/
theorem exists_tooDeep_opening
    (h : a.frames.length < limit →
      ∃ text, resume limit (a.enter ('[' :: s)) s = .error (.tooDeep text)) :
    ∃ text, resume limit a ('[' :: s) = .error (.tooDeep text) := by
  by_cases hf : a.frames.length < limit
  · rw [resume_opening hf]
    exact h hf
  · exact ⟨_, by rw [resume_token Grammar.scan_opening, take_opening_full hf]; rfl⟩

theorem resume_closing_enter :
    resume limit ((a.enter s).addAll vs) (']' :: rest) =
      resume limit (a.addAll [.quote [] vs]) rest := by
  rw [resume_token Grammar.scan_closing]
  rcases a with ⟨_, _ | _⟩ <;> simp [take, enter, addAll, Frame.close, add, Except.bind]

theorem resume_bar :
    resume limit ((a.enter s).addAll vs) ('|' :: rest) = resume limit (a.bar s vs) rest := by
  rw [resume_token Grammar.scan_bar]
  simp [take, enter, addAll, bar, Except.bind]

theorem resume_closing_bar :
    resume limit ((a.bar s vs).addAll ws) (']' :: rest) =
      resume limit (a.addAll [.quote vs ws]) rest := by
  rw [resume_token Grammar.scan_closing]
  rcases a with ⟨_, _ | _⟩ <;> simp [take, bar, addAll, Frame.close, add, Except.bind]

end Assembly

namespace Grammar

open Assembly

variable {limit : Nat} {a : Assembly} {s rest : List Char} {ns : List Node}

/-- A sequence for which there is room adds its values to an assembly. -/
theorem Derives.resume_eq (h : Derives s ns rest) (a : Assembly)
    (hd : a.frames.length + depth ns ≤ limit) :
    resume limit a s = resume limit (a.addAll (values ns)) rest := by
  induction h generalizing a with
  | done => simp [values]
  | blank hc _ ih =>
    simp only [depth, Node.depth, Nat.zero_max] at hd
    rw [resume_separator hc, ih a hd]
    rfl
  | @leaf l _ _ ns _ hl _ ih =>
    simp only [depth, Node.depth, Nat.zero_max] at hd
    rw [resume_token hl.scan_eq]
    exact (ih (a.add l.value) (by simpa [add_eq_addAll] using hd)).trans
      (by simp [add_eq_addAll, values, Node.value?])
  | block _ _ ihb ih =>
    simp only [depth, Node.depth] at hd
    rw [resume_opening (by omega), ihb _ (by simp only [length_frames_enter]; omega),
      resume_closing_enter, ih _ (by simp only [length_frames_addAll]; omega)]
    simp [values, Node.value?]
  | clause _ _ _ ihp ihb ih =>
    simp only [depth, Node.depth] at hd
    rw [resume_opening (by omega), ihp _ (by simp only [length_frames_enter]; omega),
      resume_bar, ihb _ (by simp only [length_frames_bar]; omega), resume_closing_bar,
      ih _ (by simp only [length_frames_addAll]; omega)]
    simp [values, Node.value?]

/-- A sequence for which there is no room stops the assembly. -/
theorem Derives.resume_eq_tooDeep (h : Derives s ns rest) (a : Assembly)
    (ha : a.frames.length ≤ limit) (hd : limit < a.frames.length + depth ns) :
    ∃ text, resume limit a s = .error (.tooDeep text) := by
  induction h generalizing a with
  | done => simp only [depth] at hd; omega
  | blank hc _ ih =>
    simp only [depth, Node.depth, Nat.zero_max] at hd
    rw [resume_separator hc]
    exact ih a ha hd
  | @leaf l _ _ _ _ hl _ ih =>
    simp only [depth, Node.depth, Nat.zero_max] at hd
    rw [resume_token hl.scan_eq]
    exact ih (a.add l.value) (by simpa [add_eq_addAll] using ha)
      (by simpa [add_eq_addAll] using hd)
  | @block _ _ body _ _ hb _ ihb ih =>
    simp only [depth, Node.depth] at hd
    refine exists_tooDeep_opening fun hf => ?_
    by_cases hr : a.frames.length + 1 + depth body ≤ limit
    · -- The quote itself has room, so it is a later one that has none.
      rw [hb.resume_eq _ (by simpa using hr), resume_closing_enter]
      exact ih _ (by simpa using ha) (by simp only [length_frames_addAll]; omega)
    · exact ihb _ (by simpa using Nat.succ_le_of_lt hf) (by simpa using hr)
  | @clause _ _ _ pattern body _ _ hp hb _ ihp ihb ih =>
    simp only [depth, Node.depth] at hd
    refine exists_tooDeep_opening fun hf => ?_
    by_cases hr : a.frames.length + 1 + depth pattern ≤ limit
    · rw [hp.resume_eq _ (by simpa using hr), resume_bar]
      by_cases hr' : a.frames.length + 1 + depth body ≤ limit
      · rw [hb.resume_eq _ (by simpa using hr'), resume_closing_bar]
        exact ih _ (by simpa using ha) (by simp only [length_frames_addAll]; omega)
      · exact ihb _ (by simpa using Nat.succ_le_of_lt hf) (by simpa using hr')
    · exact ihp _ (by simpa using Nat.succ_le_of_lt hf) (by simpa using hr)

/-- A sequence is read, unless there is no room for it. -/
theorem Derives.exists_tooDeep (h : Derives s ns rest) (ha : a.frames.length ≤ limit)
    (hr : a.frames.length + depth ns ≤ limit →
      ∃ text, resume limit (a.addAll (values ns)) rest = .error (.tooDeep text)) :
    ∃ text, resume limit a s = .error (.tooDeep text) := by
  by_cases hd : a.frames.length + depth ns ≤ limit
  · rw [h.resume_eq a hd]
    exact hr hd
  · exact h.resume_eq_tooDeep a ha (Nat.lt_of_not_le hd)

end Grammar

/-! ### What has been read -/

/-- An open quote is what has been read of it: a derivation from its bracket, or from its
    bar, up to the text `s`. -/
inductive Frame.Reads : Frame → List Char → Prop
  | body {t s ns} : Derives t ns s → Reads ⟨'[' :: t, none, (values ns).reverse⟩ s
  | clause {t u s ps ns} : Derives t ps ('|' :: u) → Derives u ns s →
    Reads ⟨'[' :: t, some (values ps), (values ns).reverse⟩ s

namespace Assembly

/-- An assembly is what has been read of the text `source` up to the text `s`: each open
    quote from its bracket on, and outside all quotes up to the outermost bracket. -/
inductive Reads (source : List Char) : Assembly → List Char → Prop
  | outside {ns s} : Derives source ns s → Reads source ⟨(values ns).reverse, []⟩ s
  | inside {latest f fs s} : Reads source ⟨latest, fs⟩ f.start → f.Reads s →
    Reads source ⟨latest, f :: fs⟩ s

variable {limit : Nat} {a a' : Assembly} {s rest source : List Char} {t : Token}
  {items : List Value} {ns : List Node}

/-- What is derived next is added. -/
theorem Reads.addAll (h : Reads source a s) (hs : Derives s ns rest) :
    Reads source (a.addAll (values ns)) rest := by
  cases h with
  | outside ho => simpa [Assembly.addAll] using outside (ho.append hs)
  | inside ho hf =>
    refine inside ho ?_
    cases hf with
    | body hb => simpa using Frame.Reads.body (hb.append hs)
    | clause hp hb => simpa using Frame.Reads.clause hp (hb.append hs)

/-- A token that is taken has been read. -/
theorem Reads.take (h : Reads source a s) (ht : TokenAt s t rest)
    (ha : Assembly.take limit a ⟨t, s⟩ = .ok a') : Reads source a' rest := by
  cases ht with
  | item hl =>
    cases ha
    simpa [values, Node.value?, add_eq_addAll] using h.addAll (.leaf hl .done)
  | opening =>
    by_cases hf : a.frames.length < limit
    · rw [take_opening hf] at ha
      cases ha
      exact inside h (.body .done)
    · rw [take_opening_full hf] at ha
      cases ha
  | closing =>
    cases h with
    | outside ho => cases ha
    | inside ho hf =>
      cases ha
      cases hf with
      | body hb =>
        simpa [values, Node.value?, Frame.close, add_eq_addAll] using
          ho.addAll (.block hb .done)
      | clause hp hb =>
        simpa [values, Node.value?, Frame.close, add_eq_addAll] using
          ho.addAll (.clause hp hb .done)
  | bar =>
    cases h with
    | outside ho => cases ha
    | inside ho hf =>
      cases hf with
      | body hb =>
        cases ha
        exact inside ho (by simpa [values] using Frame.Reads.clause hb (.done (s := rest)))
      | clause hp hb => cases ha

/-- Reading goes on up to a token that is not taken, or to a place where none begins. -/
theorem Reads.exists_end (h : Reads source a s) (limit : Nat) :
    ∃ a' s', Reads source a' s' ∧ (resume limit a s = a'.finish s' ∨
      ∃ t stop, Assembly.take limit a' ⟨t, s'⟩ = .error stop ∧ resume limit a s = .error stop) := by
  induction hn : s.length using Nat.strongRecOn generalizing a s with
  | ind n ih =>
    cases ht : Token.scan s with
    | some r =>
      obtain ⟨t, rest⟩ := r
      rw [resume_token ht]
      cases ha : Assembly.take limit a ⟨t, s⟩ with
      | error stop => exact ⟨a, s, h, .inr ⟨t, stop, ha, rfl⟩⟩
      | ok a' =>
        exact ih rest.length (hn ▸ Token.length_scan_lt ht)
          (h.take (Grammar.scan_eq_some_iff.1 ht) ha) rfl
    | none =>
      by_cases hc : ∃ c u, s = c :: u ∧ Text.isSeparator c = true
      · obtain ⟨c, u, rfl, hc⟩ := hc
        rw [resume_separator hc]
        refine ih u.length (by simp [← hn]) ?_ rfl
        simpa [values, Node.value?] using h.addAll (.blank hc .done)
      · have hs : Stops Text.isSeparator s := by
          cases s with
          | nil => exact stops_nil
          | cons c u => simpa using fun h => hc ⟨c, u, rfl, h⟩
        exact ⟨a, s, h, .inl (resume_stuck ht hs)⟩

/-- An assembly that is completed has read the whole text. -/
theorem Reads.exists_derives (h : Reads source a s) (hr : resume limit a s = .ok items) :
    ∃ ns, Derives source ns [] ∧ values ns = items := by
  obtain ⟨a', s', h', hfin | ⟨t, stop, -, he⟩⟩ := h.exists_end limit
  · rw [hfin, finish] at hr
    split at hr
    · rename_i he
      simp only [Bool.and_eq_true, List.isEmpty_iff] at he
      obtain ⟨hframes, rfl⟩ := he
      cases h' with
      | outside ho =>
        cases hr
        exact ⟨_, ho, by simp⟩
      | inside => cases hframes
    · cases hr
  · rw [he] at hr
    cases hr

end Assembly

/-! ### Parsing -/

namespace Parser

variable {limit : Nat} {source : String} {items : List Value}

/-- The programs are the texts of the grammar in which quotes are not nested too deeply. -/
theorem parse_eq_ok_iff_derives :
    parse limit source = .ok items ↔
      ∃ ns, Derives source.toList ns [] ∧ depth ns ≤ limit ∧ values ns = items := by
  rw [parse, parseChars, Assembly.assemble_eq_resume]
  constructor
  · intro h
    cases hr : Assembly.resume limit {} source.toList with
    | error e => simp [hr, Except.mapError] at h
    | ok vs =>
      obtain rfl : vs = items := by simpa [hr, Except.mapError] using h
      obtain ⟨ns, hn, hv⟩ := Assembly.Reads.exists_derives (.outside .done) hr
      refine ⟨ns, hn, Nat.le_of_not_lt fun hd => ?_, hv⟩
      obtain ⟨text, he⟩ := hn.resume_eq_tooDeep {} (Nat.zero_le _) (by simpa using hd)
      rw [hr] at he
      cases he
  · rintro ⟨ns, hn, hd, rfl⟩
    rw [hn.resume_eq {} (by simpa using hd), Assembly.resume_stuck rfl stops_nil]
    simp [Assembly.addAll, Assembly.finish, Except.mapError]

/-- The programs are the texts of the grammar in which quotes are not nested too deeply.
    They are read as what their derivation stands for, and no text has two. -/
theorem parse_exactly_grammar (limit : Nat) (source : String) :
    (∀ items, parse limit source = .ok items ↔
      ∃ ns, Derives source.toList ns [] ∧ depth ns ≤ limit ∧ values ns = items) ∧
    ∀ ns ns', Derives source.toList ns [] → Derives source.toList ns' [] → ns = ns' :=
  ⟨fun _ => parse_eq_ok_iff_derives, fun _ _ h h' => (h.unique h' .nil .nil).1⟩

end Parser

end Catena
