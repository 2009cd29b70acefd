import Catena.Proofs.Token
import Catena.Shell.Reader

/-!
# Reading quoted arguments

A command whose arguments stand in quotation marks is read as it is: the script is that one
command, with its name and with the arguments as texts (`Reader.readScript_quotedLine`),
whatever characters they have other than the mark itself. The readers are followed from the
inside to the outside, from a word (`Reader.word_quoted`) to a simple command
(`Reader.commandWith_quotedLine`) and to the line that it is on.
-/

namespace Catena.Shell

/-! ### Readers -/

namespace Reader

variable {α β σ : Type} {s rest t : List Char}

/-- A reader goes on with what another one has read, behind it. -/
theorem bind_eq_of_some {r : Reader α} {f : α → Reader β} {a : α} (h : r s = some (a, t)) :
    (r >>= f) s = f a t := by
  simp only [bind, StateT.bind, h, Option.bind_some]

theorem get_bind (f : List Char → Reader β) : (get >>= f) s = f s s := rfl

/-- The last step of a repetition gives its answer. -/
theorem iterate_eq_of_inr {step : σ → Reader (σ ⊕ α)} {x : σ} {a : α}
    (h : step x s = some (.inr a, rest)) : iterate step x s = some (a, rest) := by
  rw [iterate, h]

/-- A step that takes something is followed by the others. -/
theorem iterate_eq_of_inl {step : σ → Reader (σ ⊕ α)} {x y : σ}
    (h : step x s = some (.inl y, rest)) (hr : rest.length < s.length) :
    iterate step x s = iterate step y rest := by
  rw [iterate, h]
  exact if_pos hr

/-- No item at all. -/
theorem many_eq_of_none {item : Reader (Option α)} (h : item s = some (none, rest)) :
    many item s = some ([], rest) :=
  iterate_eq_of_inr (bind_eq_of_some h)

/-- One item and no more. -/
theorem many_eq_singleton {item : Reader (Option α)} {a : α} (h : item s = some (some a, t))
    (ht : t.length < s.length) (hr : item t = some (none, rest)) :
    many item s = some ([a], rest) :=
  (iterate_eq_of_inl (bind_eq_of_some h) ht).trans (iterate_eq_of_inr (bind_eq_of_some hr))

theorem accept_singleton (c : Char) : accept (String.singleton c) (c :: s) = some (true, s) := by
  simp [accept]

/-- The first mark is where the text ends. -/
theorem upTo_append {mark : Char} (ht : mark ∉ t) :
    upTo mark (t ++ mark :: rest) = some (String.ofList t, rest) := by
  have hp : ∀ c ∈ t, decide (c ≠ mark) = true := fun c hc =>
    decide_eq_true fun he => ht (he ▸ hc)
  have hs : Stops (fun c => decide (c ≠ mark)) (mark :: rest) := stops_cons.2 (by simp)
  have hr : takeRun (fun c => decide (c ≠ mark)) (t ++ mark :: rest) =
      some (String.ofList t, mark :: rest) := by
    rw [takeRun, takeWhile_append hp hs, dropWhile_append hp hs]
  have he : expect (String.singleton mark) (mark :: rest) = some ((), rest) :=
    (bind_eq_of_some (accept_singleton mark)).trans rfl
  exact (bind_eq_of_some hr).trans ((bind_eq_of_some he).trans rfl)

/-! ### Words -/

/-- Whether a word ends in front of a text: at its end, or at a blank. -/
def EndsWord (s : List Char) : Prop := s = [] ∨ ∃ r, s = ' ' :: r

/-- What ends a word ends any run that has no blanks. -/
theorem EndsWord.stops {p : Char → Bool} (h : EndsWord s) (hp : p ' ' = false) : Stops p s := by
  rcases h with rfl | ⟨r, rfl⟩
  · exact stops_nil
  · exact stops_cons.2 hp

variable {nested : Nested}

theorem wordPart_of_endsWord (h : EndsWord s) : nested.wordPart s = some (none, s) := by
  rcases h with rfl | ⟨r, rfl⟩ <;> rfl

/-- A quotation mark begins a part up to the next one. -/
theorem wordPart_cons_mark :
    nested.wordPart ('\'' :: s) =
      (upTo '\'' >>= fun t => pure (some [Piece.text t true]) : Reader _) s :=
  rfl

/-- A character that stands for itself begins a part of such characters. -/
theorem wordPart_cons_plain {c : Char} (hc : isPlain c = true) :
    nested.wordPart (c :: s) =
      (takeRun isPlain >>= fun t => pure (some [Piece.text t false]) : Reader _) (c :: s) := by
  have hm : isMeta c = false := by
    simp only [isPlain, Bool.and_eq_true, Bool.not_eq_true'] at hc
    exact hc.1
  generalize hu : c :: s = u
  rw [Nested.wordPart, get_bind]
  split
  case h_1 => cases hu
  case h_8 =>
    cases hu
    rw [if_neg (by simp [hm]), if_pos hc]
  all_goals
    cases hu
    cases hc

/-- What stands between quotation marks is a word as it is. -/
theorem word_quoted (ht : '\'' ∉ t) (hr : EndsWord rest) :
    nested.word ('\'' :: (t ++ '\'' :: rest)) = some ([.text (String.ofList t) true], rest) := by
  have hp : nested.wordPart ('\'' :: (t ++ '\'' :: rest)) =
      some (some [.text (String.ofList t) true], rest) :=
    wordPart_cons_mark.trans (bind_eq_of_some (upTo_append ht))
  have hlt : rest.length < ('\'' :: (t ++ '\'' :: rest)).length := by
    simp only [List.length_cons, List.length_append]
    omega
  have hm := many_eq_singleton hp hlt (wordPart_of_endsWord hr)
  exact (bind_eq_of_some hm).trans rfl

/-- A run of characters that stand for themselves is a word. -/
theorem word_plain {c : Char} (ht : ∀ d ∈ c :: t, isPlain d = true) (hr : EndsWord rest) :
    nested.word (c :: (t ++ rest)) = some ([.text (String.ofList (c :: t)) false], rest) := by
  have hs : Stops isPlain rest := hr.stops rfl
  have hr' : takeRun isPlain (c :: (t ++ rest)) = some (String.ofList (c :: t), rest) := by
    rw [takeRun, ← List.cons_append, takeWhile_append ht hs, dropWhile_append ht hs]
  have hp : nested.wordPart (c :: (t ++ rest)) =
      some (some [.text (String.ofList (c :: t)) false], rest) :=
    (wordPart_cons_plain (ht c List.mem_cons_self)).trans (bind_eq_of_some hr')
  have hlt : rest.length < (c :: (t ++ rest)).length := by
    simp only [List.length_cons, List.length_append]
    omega
  have hm := many_eq_singleton hp hlt (wordPart_of_endsWord hr)
  exact (bind_eq_of_some hm).trans rfl

/-! ### Simple commands -/

/-- In front of a character that stands for itself there is nothing to be skipped. -/
theorem skipBlanks_cons_plain {c : Char} (hc : isPlain c = true) (hn : c ≠ '#') :
    skipBlanks (c :: s) = some ((), c :: s) := by
  have hgo : skipBlanks.go (c :: s) = c :: s := by
    generalize hu : c :: s = u
    unfold skipBlanks.go
    split
    case h_4 => exact absurd (List.cons.inj hu).1 hn
    case h_5 => rfl
    all_goals
      cases hu
      cases hc
  rw [skipBlanks, hgo]

/-- A redirection begins with a digit or with its mark. -/
theorem acceptRedirection_cons {c : Char} (hd : c.isDigit = false) (hl : c ≠ '<')
    (hr : c ≠ '>') : acceptRedirection (c :: s) = some (none, c :: s) := by
  have hdigits : (c :: s).takeWhile Char.isDigit = [] := by simp [hd]
  unfold acceptRedirection
  extract_lets digits rest stream
  have hrest : rest = c :: s := by simp [rest, digits, hdigits]
  clear_value rest stream
  split
  case h_9 => rfl
  case h_1 | h_2 | h_3 | h_4 => exact absurd (List.cons.inj hrest).1.symm hl
  all_goals exact absurd (List.cons.inj hrest).1.symm hr

theorem redirection_eq_none (hs : skipBlanks s = some ((), t))
    (ht : acceptRedirection t = some (none, t)) : nested.redirection s = some (none, t) :=
  (bind_eq_of_some hs).trans (bind_eq_of_some ht)

/-- The next part of a simple command is a word. -/
theorem simplePart_eq_inl {parts : Nested.Parts} {p : Piece} {w : ScriptWord}
    (hr : nested.redirection s = some (none, t)) (hw : nested.word t = some (p :: w, rest)) :
    nested.simplePart parts s = some (.inl (parts.addWord (p :: w)), rest) :=
  (bind_eq_of_some hr).trans (bind_eq_of_some hw)

/-- A simple command ends where no word is. -/
theorem simplePart_eq_inr {parts : Nested.Parts} {c : Command}
    (hr : nested.redirection s = some (none, t)) (hw : nested.word t = some ([], rest))
    (hc : parts.command? = some c) : nested.simplePart parts s = some (.inr c, rest) := by
  refine (bind_eq_of_some hr).trans ((bind_eq_of_some hw).trans ?_)
  rw [hc]
  rfl

/-- Arguments in quotation marks, each behind a blank. -/
def quotedArguments : List String → List Char
  | [] => []
  | t :: ts => ' ' :: '\'' :: (t.toList ++ '\'' :: quotedArguments ts)

theorem endsWord_quotedArguments : ∀ args, EndsWord (quotedArguments args)
  | [] => .inl rfl
  | _ :: _ => .inr ⟨_, rfl⟩

/-- Behind the name of a command its arguments are no parentheses. -/
theorem dropWhile_quotedArguments_ne :
    ∀ (args : List String) (s : List Char),
      (quotedArguments args).dropWhile (· = ' ') ≠ '(' :: s
  | [], _ => nofun
  | _ :: _, _ => nofun

/-- The arguments that follow the first word of a command are read one by one. -/
theorem iterate_simplePart_quotedArguments {args : List String}
    (hargs : ∀ t ∈ args, '\'' ∉ t.toList) (w : ScriptWord) (words : List ScriptWord) :
    iterate nested.simplePart ⟨[], w :: words, []⟩ (quotedArguments args) =
      some (.simple [] ((w :: words).reverse ++ args.map fun t => [.text t true]), []) := by
  induction args generalizing w words with
  | nil =>
    refine iterate_eq_of_inr (simplePart_eq_inr (t := []) rfl ?_ ?_)
    · exact (bind_eq_of_some (many_eq_of_none (wordPart_of_endsWord (.inl rfl)))).trans rfl
    · simp [Nested.Parts.command?]
  | cons t args ih =>
    -- A blank, and then the mark: there is no redirection, but a word.
    have hs : nested.redirection (quotedArguments (t :: args)) =
        some (none, '\'' :: (t.toList ++ '\'' :: quotedArguments args)) :=
      redirection_eq_none rfl (acceptRedirection_cons rfl (by decide) (by decide))
    have hw : nested.word ('\'' :: (t.toList ++ '\'' :: quotedArguments args)) =
        some ([.text t true], quotedArguments args) := by
      rw [word_quoted (hargs t List.mem_cons_self) (endsWord_quotedArguments args),
        String.ofList_toList]
    have hlt : (quotedArguments args).length < (quotedArguments (t :: args)).length := by
      simp only [quotedArguments, List.length_cons, List.length_append]
      omega
    rw [iterate_eq_of_inl (simplePart_eq_inl hs hw) hlt]
    have := ih (fun t ht => hargs t (List.mem_cons_of_mem _ ht)) [.text t true] (w :: words)
    simpa [Nested.Parts.addWord] using this

/-! ### Lists of commands -/

/-- The words that mean something else than a command where a command may stand. -/
def reservedWords : List String :=
  ["\x7b", "if", "while", "until", "for", "case"] ++ closingWords

/-- A name by which a script can ask for a command as it is. -/
structure IsCommandName (name : String) : Prop where
  isNameStart_head : ∃ c t, name.toList = c :: t ∧ isNameStart c
  isNamePart_of_mem : ∀ c ∈ name.toList, isNamePart c
  not_mem_reservedWords : name ∉ reservedWords

/-- The characters of names are not in a list of others. -/
theorem not_mem_of_isNamePart {c : Char} (hc : isNamePart c = true) {l : List Char}
    (hl : l.all (fun d => !isNamePart d) = true) : c ∉ l := fun hm => by
  have := List.all_eq_true.1 hl c hm
  simp [hc] at this

/-- The characters of names stand for themselves. -/
theorem isPlain_of_isNamePart {c : Char} (hc : isNamePart c = true) : isPlain c = true := by
  have h₁ := not_mem_of_isNamePart hc (l := " \t\n;&|<>()".toList) (by decide)
  have h₂ := not_mem_of_isNamePart hc (l := "'\"\\$`".toList) (by decide)
  simp only [isPlain, isMeta, Bool.and_eq_true, Bool.not_eq_true', List.contains_eq_mem,
    decide_eq_false_iff_not]
  exact ⟨h₁, h₂⟩

theorem toNat_of_isUpper {c : Char} (hc : c.isUpper = true) : 0x41 ≤ c.toNat ∧ c.toNat ≤ 0x5A :=
  have h : c.val ≥ 'A'.val ∧ c.val ≤ 'Z'.val := of_decide_eq_true hc
  ⟨UInt32.le_iff_toNat_le.1 h.1, UInt32.le_iff_toNat_le.1 h.2⟩

theorem toNat_of_isLower {c : Char} (hc : c.isLower = true) : 0x61 ≤ c.toNat ∧ c.toNat ≤ 0x7A :=
  have h : c.val ≥ 'a'.val ∧ c.val ≤ 'z'.val :=
    (Bool.and_eq_true_iff.1 hc).imp of_decide_eq_true of_decide_eq_true
  ⟨UInt32.le_iff_toNat_le.1 h.1, UInt32.le_iff_toNat_le.1 h.2⟩

theorem toNat_of_isDigit {c : Char} (hc : c.isDigit = true) : 0x30 ≤ c.toNat ∧ c.toNat ≤ 0x39 :=
  have h : c.val ≥ '0'.val ∧ c.val ≤ '9'.val :=
    (Bool.and_eq_true_iff.1 hc).imp of_decide_eq_true of_decide_eq_true
  ⟨UInt32.le_iff_toNat_le.1 h.1, UInt32.le_iff_toNat_le.1 h.2⟩

/-- What begins a name is a letter or the underscore. -/
theorem toNat_of_isNameStart {c : Char} (hc : isNameStart c = true) :
    0x41 ≤ c.toNat ∧ c.toNat ≤ 0x7A := by
  rcases Bool.or_eq_true_iff.1 hc with hc | hc
  · rcases Bool.or_eq_true_iff.1 hc with hc | hc
    · have := toNat_of_isUpper hc
      omega
    · have := toNat_of_isLower hc
      omega
  · rw [eq_of_beq hc]
    decide

theorem isDigit_eq_false_of_isNameStart {c : Char} (hc : isNameStart c = true) :
    c.isDigit = false := by
  have hs := toNat_of_isNameStart hc
  refine Bool.eq_false_iff.2 fun hd => ?_
  have := toNat_of_isDigit hd
  omega

/-- A name is ASCII. -/
theorem toNat_le_of_isNamePart {c : Char} (hc : isNamePart c = true) : c.toNat ≤ 0x7F := by
  rcases Bool.or_eq_true_iff.1 hc with hc | hc
  · rcases Bool.or_eq_true_iff.1 hc with hc | hc
    · have := toNat_of_isNameStart (Bool.or_eq_true_iff.2 (.inl hc))
      omega
    · have := toNat_of_isDigit hc
      omega
  · rw [eq_of_beq hc]
    decide

namespace IsCommandName

variable {name : String} (h : IsCommandName name)
include h

theorem isPlain_of_mem : ∀ c ∈ name.toList, isPlain c = true := fun c hc =>
  isPlain_of_isNamePart (h.isNamePart_of_mem c hc)

/-- The name is the first word. -/
theorem bareWord_eq (hr : EndsWord rest) :
    bareWord (name.toList ++ rest) = some (name, name.toList ++ rest) := by
  have ht := takeWhile_append h.isPlain_of_mem (hr.stops rfl)
  refine (get_bind _).trans ?_
  rw [ht, String.ofList_toList]
  rfl

theorem skipBlanks_eq : skipBlanks (name.toList ++ rest) = some ((), name.toList ++ rest) := by
  obtain ⟨c, t, hn, hc⟩ := h.isNameStart_head
  have hp := h.isPlain_of_mem c (by simp [hn])
  rw [hn]
  exact skipBlanks_cons_plain hp fun he => by cases he; cases hc

/-- A name is no mark. -/
theorem accept_eq_false {c : Char} (hc : isNamePart c = false) :
    accept (String.singleton c) (name.toList ++ rest) = some (false, name.toList ++ rest) := by
  obtain ⟨d, t, hn, -⟩ := h.isNameStart_head
  have hd := h.isNamePart_of_mem d (by simp [hn])
  have hne : c ≠ d := fun he => by simp [he, hd] at hc
  simp [accept, hn, hne]

/-- A name without parentheses behind it is not that of a function. -/
theorem acceptFunction_eq (hr : EndsWord rest) (hp : ∀ s, rest.dropWhile (· = ' ') ≠ '(' :: s) :
    acceptFunction (name.toList ++ rest) = some (none, name.toList ++ rest) := by
  have ht : (name.toList ++ rest).takeWhile isNamePart = name.toList :=
    takeWhile_append h.isNamePart_of_mem (hr.stops rfl)
  have hd : ((name.toList ++ rest).drop name.toList.length) = rest := List.drop_left
  unfold acceptFunction
  simp only [ht, hd]
  split
  case h_1 he => exact absurd he (hp _)
  case h_2 => rfl

theorem redirection_eq_none : nested.redirection (name.toList ++ rest) =
    some (none, name.toList ++ rest) := by
  refine Reader.redirection_eq_none h.skipBlanks_eq ?_
  obtain ⟨c, t, hn, hc⟩ := h.isNameStart_head
  rw [hn]
  refine acceptRedirection_cons ?_ ?_ ?_
  · exact isDigit_eq_false_of_isNameStart hc
  · rintro rfl
    cases hc
  · rintro rfl
    cases hc

theorem word_eq (hr : EndsWord rest) :
    nested.word (name.toList ++ rest) = some ([.text name false], rest) := by
  obtain ⟨c, t, hn, -⟩ := h.isNameStart_head
  have hw : nested.word (c :: (t ++ rest)) = some ([.text (String.ofList (c :: t)) false], rest) :=
    word_plain (hn ▸ h.isPlain_of_mem) hr
  rwa [← List.cons_append, ← hn, String.ofList_toList] at hw

/-- A name without a value behind it is not assigned to. -/
theorem assignment?_eq_none : assignment? [.text name false] = none := by
  have ht : name.toList.takeWhile (· ≠ '=') = name.toList :=
    List.takeWhile_eq_self_iff.2 fun c hc => decide_eq_true fun he => by
      have := h.isNamePart_of_mem c hc
      rw [he] at this
      cases this
  unfold assignment?
  simp only [ht, List.drop_length]

end IsCommandName

/-- A command with arguments in quotation marks, as a line of a script. -/
def quotedLine (name : String) (args : List String) : List Char :=
  name.toList ++ quotedArguments args

/-- The same command as a tree. -/
def quotedTree (name : String) (args : List String) : Command :=
  .simple [] ([.text name false] :: args.map fun t => [.text t true])

section Line

variable {name : String} {args : List String} (h : IsCommandName name)
  (hargs : ∀ t ∈ args, '\'' ∉ t.toList)
include h

theorem exists_quotedLine_eq_cons (args : List String) :
    ∃ c t, quotedLine name args = c :: t ∧ isNameStart c := by
  obtain ⟨c, t, hn, hc⟩ := h.isNameStart_head
  exact ⟨c, t ++ quotedArguments args, by rw [quotedLine, hn, List.cons_append], hc⟩

theorem length_quotedLine_pos : 0 < (quotedLine name args).length := by
  obtain ⟨c, t, he, -⟩ := exists_quotedLine_eq_cons h args
  exact he ▸ Nat.succ_pos _

theorem skipBlanks_quotedLine :
    skipBlanks (quotedLine name args) = some ((), quotedLine name args) :=
  h.skipBlanks_eq

/-- A name that is not reserved begins no construct. -/
theorem lookup_constructs : nested.constructs.lookup name = none := by
  have hm := h.not_mem_reservedWords
  simp only [reservedWords, List.mem_append, List.mem_cons, not_or] at hm
  obtain ⟨⟨h₁, h₂, h₃, h₄, h₅, h₆, -⟩, -⟩ := hm
  simp [Nested.constructs, List.lookup_cons, beq_eq_false_iff_ne.2, h₁, h₂, h₃, h₄, h₅, h₆]

/-- A name that is not reserved ends no list of commands. -/
theorem atClosing_quotedLine :
    atClosing (quotedLine name args) = some (false, quotedLine name args) := by
  obtain ⟨c, t, he, hc⟩ := exists_quotedLine_eq_cons h args
  have hb : bareWord (quotedLine name args) = some (name, quotedLine name args) :=
    h.bareWord_eq (endsWord_quotedArguments args)
  have hm := h.not_mem_reservedWords
  simp only [reservedWords, List.mem_append, not_or] at hm
  generalize quotedLine name args = s at he hb ⊢
  refine (get_bind _).trans ?_
  split
  case h_1 => cases he
  case h_2 | h_3 =>
    cases he
    cases hc
  case h_4 =>
    refine (bind_eq_of_some hb).trans ?_
    rw [List.contains_eq_mem, decide_eq_false hm.2]
    rfl

include hargs

/-- The command is a simple one. -/
theorem commandWith_quotedLine :
    nested.commandWith (quotedLine name args) = some (quotedTree name args, []) := by
  have hr := endsWord_quotedArguments args
  have hs : nested.simplePart {} (quotedLine name args) =
      some (.inl ⟨[], [[.text name false]], []⟩, quotedArguments args) := by
    refine (simplePart_eq_inl h.redirection_eq_none (h.word_eq hr)).trans ?_
    rw [Nested.Parts.addWord, h.assignment?_eq_none]
  refine (bind_eq_of_some h.skipBlanks_eq).trans ?_
  refine (bind_eq_of_some (h.accept_eq_false (c := '(') rfl)).trans ?_
  refine (bind_eq_of_some (h.bareWord_eq hr)).trans ?_
  rw [lookup_constructs h]
  refine (bind_eq_of_some (h.acceptFunction_eq hr (dropWhile_quotedArguments_ne args))).trans ?_
  refine (iterate_eq_of_inl hs ?_).trans (iterate_simplePart_quotedArguments hargs _ _)
  obtain ⟨c, t, hn, -⟩ := h.isNameStart_head
  simp only [quotedLine, hn, List.length_append, List.length_cons]
  omega

/-- The command stands alone in its pipeline, which is not negated. -/
theorem pipeline_quotedLine :
    nested.pipeline (quotedLine name args) = some (quotedTree name args, []) := by
  have hr := endsWord_quotedArguments args
  have hne : name ≠ "!" := by
    rintro rfl
    obtain ⟨c, t, hn, hc⟩ := h.isNameStart_head
    cases hn
    cases hc
  have hw : acceptWord "!" (quotedLine name args) = some (false, quotedLine name args) := by
    refine (bind_eq_of_some (h.bareWord_eq hr)).trans ?_
    rw [if_neg hne]
    rfl
  have hn : Nested.negation (quotedLine name args) = some (none, quotedLine name args) :=
    (bind_eq_of_some h.skipBlanks_eq).trans (bind_eq_of_some hw)
  have hp : nested.piped [] = some (none, []) := rfl
  refine (bind_eq_of_some (many_eq_of_none hn)).trans ?_
  refine (bind_eq_of_some (commandWith_quotedLine h hargs)).trans ?_
  exact bind_eq_of_some (many_eq_of_none hp)

/-- The command is the whole of its list. -/
theorem listed_quotedLine :
    nested.listed false (quotedLine name args) = some (some (quotedTree name args), []) := by
  have hne : (quotedLine name args).head? ≠ some '\n' := by
    obtain ⟨c, t, he, hc⟩ := exists_quotedLine_eq_cons h args
    rw [he]
    rintro ⟨⟩
    cases hc
  have hj : iterate nested.join (quotedTree name args) [] = some (quotedTree name args, []) :=
    iterate_eq_of_inr rfl
  refine (bind_eq_of_some (skipBlanks_quotedLine h)).trans ?_
  refine (get_bind _).trans ?_
  rw [if_neg hne]
  refine (bind_eq_of_some (atClosing_quotedLine h)).trans ?_
  rw [if_neg Bool.false_ne_true]
  refine (bind_eq_of_some (pipeline_quotedLine h hargs)).trans ?_
  exact (bind_eq_of_some hj).trans rfl

theorem line_quotedLine :
    line (quotedLine name args) = some (.sequence [quotedTree name args], []) := by
  have hm : many ((nested (quotedLine name args).length).listed false) (quotedLine name args) =
      some ([quotedTree name args], []) :=
    many_eq_singleton (listed_quotedLine h hargs) (length_quotedLine_pos h) rfl
  refine (get_bind _).trans ?_
  exact (bind_eq_of_some hm).trans rfl

theorem nextLine_quotedLine :
    nextLine (quotedLine name args) = some (some (.sequence [quotedTree name args]), []) := by
  obtain ⟨c, t, he, hc⟩ := exists_quotedLine_eq_cons h args
  have hl : skipLines (quotedLine name args) = some ((), quotedLine name args) :=
    iterate_eq_of_inr ((bind_eq_of_some (skipBlanks_quotedLine h)).trans
      (bind_eq_of_some (h.accept_eq_false (c := '\n') rfl)))
  have hline := line_quotedLine h hargs
  refine (bind_eq_of_some hl).trans ?_
  generalize quotedLine name args = s at he hline ⊢
  refine (get_bind _).trans ?_
  split
  case h_1 => cases he
  case h_2 => exact (bind_eq_of_some hline).trans rfl

/-- A command with quoted arguments is read as it is. -/
theorem readScript_quotedLine :
    readScript (String.ofList (quotedLine name args)) =
      ([.sequence [quotedTree name args]], true) := by
  have hl : skipLines [] = some ((), []) := iterate_eq_of_inr rfl
  have hnil : nextLine [] = some (none, []) := bind_eq_of_some hl
  rw [readScript, String.toList_ofList, readScript.linesOf, nextLine_quotedLine h hargs]
  dsimp only
  rw [if_pos (by exact length_quotedLine_pos h), readScript.linesOf, hnil]

end Line

end Reader

end Catena.Shell
