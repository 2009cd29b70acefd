import Catena.Proofs.Derivation

/-!
# Where reading stops

Reading goes on for as long as it can, and stops in front of an *obstacle*: the end of the
text, a colon without a name, a mark without its partner, or a bracket or a bar that may not
stand at its place. What may stand there depends on the *level*: outside all quotes neither
a closing bracket nor a bar, in a quote a bar only if there has been none yet.

A text is *stuck* if an obstacle stands at its front, or a quote begins there in which
reading stops. Every text is a sequence, the longest that can be derived, with a text behind
it that is stuck (`Grammar.exists_stuck`), and what the parser answers depends on these two:

* `Parser.assemble_eq_of_stuck`: the values of the sequence, or an error at what is stuck;
* `Parser.assemble_eq_tooDeep`: unless there is no room for the quotes that are opened;
* `Grammar.Stuck.eq_nil_of_derives`: no sequence begins where a text is stuck.
-/

namespace Catena

open Grammar (Node Derives)

namespace Grammar

/-! ### Texts of derivations -/

/-- An item as it is written. -/
def Leaf.text : Leaf → List Char
  | number n => n.text
  | symbol name => ':' :: name
  | string mark content => mark :: (content ++ [mark])
  | atom name => name

mutual

/-- The text that a part of a derivation takes up. -/
def Node.text : Node → List Char
  | .blank c => [c]
  | .leaf l => l.text
  | .block body => '[' :: (text body ++ [']'])
  | .clause pattern body => '[' :: (text pattern ++ '|' :: (text body ++ [']']))

/-- The text that a derivation takes up. -/
def text : List Node → List Char
  | [] => []
  | n :: ns => n.text ++ text ns

end

theorem LeafAt.eq {s rest : List Char} {l : Leaf} (h : LeafAt s l rest) : s = l.text ++ rest := by
  cases h with
  | number h => exact h.eq
  | symbol h => rw [Leaf.text, List.cons_append, ← h.eq]
  | string _ _ => simp [Leaf.text]
  | atom _ h => exact h.eq

theorem Derives.eq {s rest : List Char} {ns : List Node} (h : Derives s ns rest) :
    s = text ns ++ rest := by
  induction h with
  | done => rfl
  | blank _ _ ih => simp [text, Node.text, ← ih]
  | leaf hl _ ih => rw [text, Node.text, List.append_assoc, ← ih, ← hl.eq]
  | block _ _ ihb ih => simp [text, Node.text, ← ih, ← ihb]
  | clause _ _ _ ihp ihb ih => simp [text, Node.text, ← ih, ← ihb, ← ihp]

theorem Derives.length_le {s rest : List Char} {ns : List Node} (h : Derives s ns rest) :
    rest.length ≤ s.length := by
  rw [h.eq, List.length_append]
  exact Nat.le_add_left _ _

/-! ### Obstacles -/

/-- A place in a program: outside all quotes, or in a quote in front of its bar or behind. -/
inductive Level where
  | outside
  /-- In a quote in which no bar has been read. -/
  | unbarred
  /-- In a quote behind its bar. -/
  | barred
deriving DecidableEq

/-- A text in front of which reading stops. -/
inductive Obstacle (lv : Level) : List Char → Prop
  | ended : Obstacle lv []
  | symbol {s} : Stops Text.isNameChar s → Obstacle lv (':' :: s)
  | string {mark s} : mark = '\'' ∨ mark = '\"' → mark ∉ s → Obstacle lv (mark :: s)
  | closing {s} : lv = .outside → Obstacle lv (']' :: s)
  | bar {s} : lv ≠ .unbarred → Obstacle lv ('|' :: s)

/-- What `E` describes stands at the front of a text, or in a quote that begins there and is
    not closed. The number is the depth of the quotes up to it. -/
inductive Stuck (E : Level → List Char → Prop) : Level → Nat → List Char → Prop
  | here {lv s} : E lv s → Stuck E lv 0 s
  | body {lv s ns r n} : Derives s ns r → Stuck E .unbarred n r →
    Stuck E lv (max (depth ns) n + 1) ('[' :: s)
  | clause {lv s s' ps ns r n} : Derives s ps ('|' :: s') → Derives s' ns r →
    Stuck E .barred n r → Stuck E lv (max (depth ps) (max (depth ns) n) + 1) ('[' :: s)

/-- A text in front of which the sequence at a level is over: it is the closing bracket of
    the quote, or the bar. -/
inductive Over : Level → List Char → Prop
  | closing {lv s} : lv ≠ .outside → Over lv (']' :: s)
  | bar {s} : Over .unbarred ('|' :: s)

variable {s r rest : List Char} {ns : List Node} {E E' : Level → List Char → Prop} {lv : Level}
  {n : Nat} {c : Char} {l : Leaf}

theorem Stuck.mono (hE : ∀ lv s, E lv s → E' lv s) (h : Stuck E lv n s) : Stuck E' lv n s := by
  induction h with
  | here he => exact .here (hE _ _ he)
  | body hb _ ih => exact .body hb ih
  | clause hp hb _ ih => exact .clause hp hb ih

theorem scan_symbol_eq_none (h : Stops Text.isNameChar s) : Token.scan (':' :: s) = none := by
  have hn : s.takeWhile Text.isNameChar = [] := takeWhile_append (t := []) nofun h
  rw [scan_cons_eq_scanMark rfl (by decide)]
  simp [Token.scanMark, Token.scanName, hn]

theorem scan_string_eq_none (hc : c = '\'' ∨ c = '\"') (h : c ∉ s) :
    Token.scan (c :: s) = none := by
  have hd : s.dropWhile (· != c) = [] := by
    rw [List.dropWhile_eq_nil_iff]
    intro x hx
    exact bne_iff_ne.2 fun he => h (he ▸ hx)
  rcases hc with rfl | rfl
  all_goals
    rw [scan_cons_eq_scanMark rfl (by decide)]
    simp [Token.scanMark, Token.scanString, hd]

theorem exists_longest_isName (h : ¬ Stops Text.isNameChar s) :
    ∃ name rest, Longest IsName s name rest := by
  have ht : s.takeWhile Text.isNameChar ≠ [] := by
    rcases s with _ | ⟨c, s⟩
    · exact absurd stops_nil h
    · rw [stops_cons, Bool.not_eq_false] at h
      simp [h]
  have hl := longest_isName (isName_iff.2 ⟨ht, fun c => List.mem_takeWhile_imp⟩)
    (stops_dropWhile (s := s))
  rw [List.takeWhile_append_dropWhile] at hl
  exact ⟨_, _, hl⟩

/-- A digit begins a number, and a name character a number or an atom. -/
theorem exists_leafAt (hc : Text.isNameChar c = true ∨ c.isDigit = true) :
    ∃ l rest, LeafAt (c :: s) l rest := by
  by_cases hn : ∃ t rest, c :: s = t ++ rest ∧ IsNumeral t
  · obtain ⟨_, rest, ht, n, rfl⟩ := hn
    obtain ⟨⟨x, r⟩, hx⟩ := Option.ne_none_iff_exists'.1
      (ht ▸ Numeral.scan_text_append_ne_none : Catena.Numeral.scan (c :: s) ≠ none)
    obtain ⟨n', hl, -⟩ := Numeral.scan_eq_some_iff.1 hx
    exact ⟨_, _, .number hl⟩
  · have hc : Text.isNameChar c = true := by
      refine hc.resolve_right fun hd => hn ⟨[c], s, rfl, ?_⟩
      exact ⟨⟨false, [c], [], List.cons_ne_nil _ _, by simpa using hd, nofun⟩, rfl⟩
    obtain ⟨name, rest, hl⟩ := exists_longest_isName (s := c :: s) (by simp [hc])
    exact ⟨_, _, .atom (fun t rest ht hi => hn ⟨t, rest, ht, hi⟩) hl⟩

/-- Where no token is scanned behind all separators, there is an obstacle. -/
theorem obstacle_of_scan_eq_none (h : Token.scan s = none) (hs : Stops Text.isSeparator s) :
    Obstacle lv s := by
  have hl : ∀ {l rest}, ¬ LeafAt s l rest := fun hl => by simp [hl.scan_eq] at h
  rcases s with _ | ⟨c, s⟩
  · exact .ended
  by_cases hc : Text.isNameChar c = true ∨ c.isDigit = true
  · obtain ⟨l, rest, he⟩ := exists_leafAt (s := s) hc
    exact absurd he hl
  rw [not_or, Bool.not_eq_true, Bool.not_eq_true] at hc
  have hr : Text.isReserved c = true := by simpa [Text.isNameChar, hc.2, stops_cons.1 hs] using hc.1
  simp only [Text.isReserved, Bool.or_eq_true, beq_iff_eq] at hr
  have hm : c = '\'' ∨ c = '\"' → Obstacle lv (c :: s) := by
    intro hm
    refine .string hm fun hc => ?_
    obtain ⟨t, r, rfl, ht⟩ := List.eq_append_cons_of_mem hc
    exact hl (.string hm ht)
  rcases hr with ((((rfl | rfl) | rfl) | rfl) | hq) | hq
  · rw [scan_opening] at h
    cases h
  · rw [scan_closing] at h
    cases h
  · rw [scan_bar] at h
    cases h
  · by_cases hn : Stops Text.isNameChar s
    · exact .symbol hn
    · obtain ⟨name, rest, hn⟩ := exists_longest_isName hn
      exact absurd (.symbol hn) hl
  · exact hm (.inl hq)
  · exact hm (.inr hq)

/-! ### Every text -/

/-- A sequence can be read off a text until it is over or reading stops. -/
def Settled (lv : Level) (s : List Char) : Prop :=
  ∃ ns r, Derives s ns r ∧ (Over lv r ∨ ∃ n, Stuck Obstacle lv n r)

/-- What stands behind an opening bracket decides how far the quote is read. -/
theorem settled_opening (h : ∀ lv s', s'.length ≤ s.length → Settled lv s') :
    Settled lv ('[' :: s) := by
  obtain ⟨ns, r, hd, hr⟩ := h .unbarred s le_rfl
  have hle := hd.length_le
  rcases hr.symm with ⟨n, hr⟩ | hr
  · exact ⟨[], _, .done, .inr ⟨_, .body hd hr⟩⟩
  cases hr with
  | @closing _ s' _ =>
    rw [List.length_cons] at hle
    obtain ⟨ms, r, hm, hr⟩ := h lv s' (by omega)
    exact ⟨_, r, .block hd hm, hr⟩
  | @bar s' =>
    rw [List.length_cons] at hle
    obtain ⟨ms, r, hm, hr⟩ := h .barred s' (by omega)
    have hle' := hm.length_le
    rcases hr.symm with ⟨n, hr⟩ | hr
    · exact ⟨[], _, .done, .inr ⟨_, .clause hd hm hr⟩⟩
    cases hr with
    | @closing _ s'' _ =>
      rw [List.length_cons] at hle'
      obtain ⟨qs, r, hq, hr⟩ := h lv s'' (by omega)
      exact ⟨_, r, .clause hd hm hq, hr⟩

theorem settled (lv : Level) (s : List Char) : Settled lv s := by
  induction hn : s.length using Nat.strongRecOn generalizing lv s with
  | ind k ih =>
    subst hn
    cases ht : Token.scan s with
    | none =>
      by_cases hc : Stops Text.isSeparator s
      · exact ⟨[], s, .done, .inr ⟨0, .here (obstacle_of_scan_eq_none ht hc)⟩⟩
      · rcases s with _ | ⟨c, s⟩
        · exact absurd stops_nil hc
        rw [stops_cons, Bool.not_eq_false] at hc
        obtain ⟨ns, r, hd, hr⟩ := ih s.length (by simp) lv s rfl
        exact ⟨_, r, .blank hc hd, hr⟩
    | some a =>
      obtain ⟨t, rest⟩ := a
      have hlt := Token.length_scan_lt ht
      cases scan_eq_some_iff.1 ht with
      | item hl =>
        obtain ⟨ns, r, hd, hr⟩ := ih _ hlt lv rest rfl
        exact ⟨_, r, .leaf hl hd, hr⟩
      | opening => exact settled_opening fun lv s' hs => ih _ (hs.trans_lt hlt) lv s' rfl
      | closing =>
        by_cases hlv : lv = .outside
        · exact ⟨[], _, .done, .inr ⟨0, .here (.closing hlv)⟩⟩
        · exact ⟨[], _, .done, .inl (.closing hlv)⟩
      | bar =>
        by_cases hlv : lv = .unbarred
        · subst hlv
          exact ⟨[], _, .done, .inl .bar⟩
        · exact ⟨[], _, .done, .inr ⟨0, .here (.bar hlv)⟩⟩

/-- Every text is a sequence with a text behind it that is stuck. -/
theorem exists_stuck (s : List Char) :
    ∃ ns r n, Derives s ns r ∧ Stuck Obstacle .outside n r := by
  obtain ⟨ns, r, hd, hr | ⟨n, hr⟩⟩ := settled .outside s
  · cases hr with
    | closing hlv => exact absurd rfl hlv
  · exact ⟨ns, r, n, hd, hr⟩

/-! ### No way on -/

/-- In front of an obstacle no token is scanned, or it is one that no sequence has. -/
theorem Obstacle.scan_ne_item (h : Obstacle lv s) {v : Value} :
    Token.scan s ≠ some (.item v, rest) := by
  cases h with
  | ended => nofun
  | symbol hs => simp [scan_symbol_eq_none hs]
  | string hm hs => simp [scan_string_eq_none hm hs]
  | closing _ => simp
  | bar _ => simp

theorem Obstacle.eq_nil_of_derives (h : Obstacle lv s) (hd : Derives s ns rest) : ns = [] := by
  cases hd with
  | done => rfl
  | blank hc _ =>
    cases h with
    | string hm _ => rcases hm with rfl | rfl <;> cases hc
    | _ => cases hc
  | leaf hl _ => exact absurd hl.scan_eq h.scan_ne_item
  | block _ _ => cases h with | string hm _ => rcases hm with hm | hm <;> cases hm
  | clause _ _ _ => cases h with | string hm _ => rcases hm with hm | hm <;> cases hm

/-- In a quote, a closing bracket is no obstacle. -/
theorem Stuck.ne_closing (h : Stuck Obstacle lv n s) (hlv : lv ≠ .outside) : s ≠ ']' :: rest := by
  rintro rfl
  cases h with
  | here h =>
    cases h with
    | string hm _ => rcases hm with hm | hm <;> cases hm
    | closing h => exact hlv h

/-- In a quote without a bar, a bar is no obstacle. -/
theorem Stuck.ne_bar (h : Stuck Obstacle .unbarred n s) : s ≠ '|' :: rest := by
  rintro rfl
  cases h with
  | here h =>
    cases h with
    | string hm _ => rcases hm with hm | hm <;> cases hm
    | bar h => exact h rfl

/-- Where a text is stuck, no sequence begins. -/
theorem Stuck.eq_nil_of_derives (h : Stuck Obstacle lv n s) (hd : Derives s ns rest) :
    ns = [] := by
  -- A quote that begins there would have to get past the obstacle in it.
  induction h generalizing ns rest with
  | here he => exact he.eq_nil_of_derives hd
  | body hb hs ih =>
    cases hd with
    | done => rfl
    | blank hc _ => cases hc
    | leaf hl _ => exact absurd hl not_leafAt_opening
    | block hb' _ =>
      obtain ⟨ms, -, hm⟩ := hb.split hb' .closing
      obtain rfl := ih hm
      exact absurd hm.eq (hs.ne_closing nofun)
    | clause hp' _ _ =>
      obtain ⟨ms, -, hm⟩ := hb.split hp' .bar
      obtain rfl := ih hm
      exact absurd hm.eq hs.ne_bar
  | clause hp hb hs ih =>
    cases hd with
    | done => rfl
    | blank hc _ => cases hc
    | leaf hl _ => exact absurd hl not_leafAt_opening
    | block hb' _ => cases (hp.unique hb' .bar .closing).2
    | clause hp' hb' _ =>
      obtain ⟨rfl, he⟩ := hp.unique hp' .bar .bar
      cases he
      obtain ⟨ms, -, hm⟩ := hb.split hb' .closing
      obtain rfl := ih hm
      exact absurd hm.eq (hs.ne_closing nofun)

end Grammar

/-! ### What the parser answers -/

namespace Assembly

open Grammar (Level Obstacle Stuck)

variable {limit n : Nat} {a : Assembly} {s t : List Char} {vs ps : List Value}

/-- The level at which an assembly goes on. -/
def level (a : Assembly) : Level :=
  match a.frames with
  | [] => .outside
  | f :: _ => if f.pattern.isSome then .barred else .unbarred

@[simp]
theorem level_enter : ((a.enter s).addAll vs).level = .unbarred := rfl

@[simp]
theorem level_bar : ((a.bar s ps).addAll vs).level = .barred := rfl

theorem place_enter : ((a.enter s).addAll vs).place t = a.place s := by
  rcases a with ⟨_, _ | ⟨f, fs⟩⟩
  · rfl
  · simp [place, enter, addAll, List.getLast?_cons]

theorem place_bar : ((a.bar s ps).addAll vs).place t = a.place s := by
  rcases a with ⟨_, _ | ⟨f, fs⟩⟩
  · rfl
  · simp [place, bar, addAll, List.getLast?_cons]

/-- An assembly is not completed at a text that is not empty, nor in an open quote. -/
theorem finish_eq_error (h : s ≠ [] ∨ a.frames ≠ []) :
    a.finish s = .error (.unreadable (a.place s)) := by
  unfold finish
  rw [if_neg]
  simp only [Bool.and_eq_true, List.isEmpty_iff, not_and_or]
  exact h.symm

theorem resume_obstacle (h : Obstacle a.level s) : resume limit a s = a.finish s := by
  cases h with
  | ended => exact resume_stuck rfl stops_nil
  | symbol hs => exact resume_stuck (Grammar.scan_symbol_eq_none hs) (stops_cons.2 rfl)
  | @string mark s hm hs =>
    refine resume_stuck (Grammar.scan_string_eq_none hm hs) ?_
    rcases hm with rfl | rfl <;> exact stops_cons.2 rfl
  | closing hlv =>
    rw [finish_eq_error (.inl (List.cons_ne_nil _ _)), resume_token Grammar.scan_closing]
    rcases a with ⟨_, _ | ⟨f, fs⟩⟩
    · rfl
    · unfold level at hlv
      split at hlv
      · contradiction
      · split at hlv <;> cases hlv
  | bar hlv =>
    rw [finish_eq_error (.inl (List.cons_ne_nil _ _)), resume_token Grammar.scan_bar]
    rcases a with ⟨_, _ | ⟨f, fs⟩⟩
    · rfl
    · have hf : f.pattern.isSome = true := by
        by_contra hf
        exact hlv (if_neg hf)
      simp [take, hf, Except.bind]

/-- Where a text is stuck and there is room for the quotes in it, reading stops. -/
theorem resume_eq_of_stuck (h : Stuck Obstacle a.level n s) (hn : a.frames.length + n ≤ limit) :
    resume limit a s = a.finish s := by
  generalize hlv : a.level = lv at h
  induction h generalizing a with
  | here he => exact resume_obstacle (hlv ▸ he)
  | body hb hs ih =>
    rw [resume_opening (by omega),
      hb.resume_eq _ (by simp only [length_frames_enter]; omega),
      ih (by simp only [length_frames_addAll, length_frames_enter]; omega) level_enter,
      finish_eq_error (.inr ?_), place_enter, finish_eq_error (.inl (List.cons_ne_nil _ _))]
    simp [enter, addAll]
  | clause hp hb hs ih =>
    rw [resume_opening (by omega),
      hp.resume_eq _ (by simp only [length_frames_enter]; omega), resume_bar,
      hb.resume_eq _ (by simp only [length_frames_bar]; omega),
      ih (by simp only [length_frames_addAll, length_frames_bar]; omega) level_bar,
      finish_eq_error (.inr ?_), place_bar, finish_eq_error (.inl (List.cons_ne_nil _ _))]
    simp [bar, addAll]

/-- Where a text is stuck and there is no room for the quotes in it, that is found first. -/
theorem resume_eq_tooDeep_of_stuck (h : Stuck Obstacle a.level n s)
    (ha : a.frames.length ≤ limit) (hn : limit < a.frames.length + n) :
    ∃ text, resume limit a s = .error (.tooDeep text) := by
  generalize hlv : a.level = lv at h
  induction h generalizing a with
  | here he => omega
  | body hb hs ih =>
    refine exists_tooDeep_opening fun hf => ?_
    refine hb.exists_tooDeep (Nat.succ_le_of_lt hf) fun hr => ?_
    simp only [length_frames_enter] at hr
    refine ih ?_ ?_ level_enter
    all_goals
      simp only [length_frames_addAll, length_frames_enter]
      omega
  | clause hp hb hs ih =>
    refine exists_tooDeep_opening fun hf => ?_
    refine hp.exists_tooDeep (Nat.succ_le_of_lt hf) fun hr => ?_
    rw [resume_bar]
    refine hb.exists_tooDeep (Nat.succ_le_of_lt hf) fun hr' => ?_
    simp only [length_frames_enter, length_frames_bar] at hr hr'
    refine ih ?_ ?_ level_bar
    all_goals
      simp only [length_frames_addAll, length_frames_bar]
      omega

end Assembly

namespace Parser

open Grammar (Stuck Obstacle depth values)

variable {limit n : Nat} {s r : List Char} {ns : List Node}

/-- If there is room, a text is read up to where it is stuck. -/
theorem assemble_eq_of_stuck (h : Derives s ns r) (hr : Stuck Obstacle .outside n r)
    (hn : max (depth ns) n ≤ limit) :
    assemble limit s = if r = [] then .ok (values ns) else .error (.unreadable r) := by
  have ha : Assembly.addAll (values ns) {} = ⟨(values ns).reverse, []⟩ := by
    simp [Assembly.addAll]
  obtain ⟨hd, hn⟩ := Nat.max_le.1 hn
  rw [Assembly.assemble_eq_resume, h.resume_eq _ (by simpa using hd), ha,
    Assembly.resume_eq_of_stuck (a := ⟨_, []⟩) hr (by simpa using hn)]
  split
  · subst r
    simp [Assembly.finish]
  · rename_i hne
    exact Assembly.finish_eq_error (.inl hne)

theorem assemble_eq_tooDeep (h : Derives s ns r) (hr : Stuck Obstacle .outside n r)
    (hn : limit < max (depth ns) n) : ∃ text, assemble limit s = .error (.tooDeep text) := by
  rw [Assembly.assemble_eq_resume]
  refine h.exists_tooDeep (Nat.zero_le _) fun hd => ?_
  simp only [List.length_nil, Nat.zero_add] at hd
  have hn : limit < n := by omega
  exact Assembly.resume_eq_tooDeep_of_stuck hr (Nat.zero_le _) (by simpa using hn)

end Parser

end Catena
