import Catena.Proofs.Grammar
import Catena.Parser.Token
import Mathlib.Data.List.TakeWhile

/-!
# Tokens and the grammar

The scanner takes the item that the grammar puts at the front of a text: where the grammar
speaks of the longest numeral or name, the scanner takes characters of a class for as long
as there are any. What lets the two agree is what comes after such a run (`Stops`), and for
a numeral also what comes after a point (`Numeral.Ends`).

* `Grammar.scan_eq_some_iff`: what is scanned is what the grammar puts at a place;
* `Grammar.LeafAt.unique`: at most one item begins at a place.
-/

namespace Catena

/-! ### Runs of a class -/

/-- A text does not begin with a character of a class. -/
def Stops (p : Char → Bool) (s : List Char) : Prop :=
  ∀ c ∈ s.head?, p c = false

section Stops

variable {p : Char → Bool} {s t t' rest rest' : List Char} {c : Char}

@[simp]
theorem stops_nil : Stops p [] := nofun

@[simp]
theorem stops_cons : Stops p (c :: s) ↔ p c = false := by
  simp [Stops]

theorem stops_dropWhile : Stops p (s.dropWhile p) := by
  intro c hc
  have h := List.head?_dropWhile_not p s
  rwa [Option.mem_def.1 hc] at h

theorem takeWhile_append (ht : ∀ c ∈ t, p c = true) (hr : Stops p rest) :
    (t ++ rest).takeWhile p = t := by
  rw [List.takeWhile_append_of_pos ht]
  cases rest with
  | nil => simp
  | cons c rest => simp [stops_cons.1 hr]

theorem dropWhile_append (ht : ∀ c ∈ t, p c = true) (hr : Stops p rest) :
    (t ++ rest).dropWhile p = rest := by
  rw [List.dropWhile_append_of_pos ht]
  cases rest with
  | nil => simp
  | cons c rest => simp [stops_cons.1 hr]

/-- Where a run of a class stops, it is at least as long as any other one from the same place. -/
theorem eq_append_takeWhile (ht : ∀ c ∈ t, p c = true) (ht' : ∀ c ∈ t', p c = true)
    (hr : Stops p rest) (h : t ++ rest = t' ++ rest') : t = t' ++ rest'.takeWhile p := by
  rw [← List.takeWhile_append_of_pos ht', ← h, takeWhile_append ht hr]

end Stops

namespace Grammar

theorem Longest.unique {L : List Char → Prop} {s t t' rest rest' : List Char}
    (h : Longest L s t rest) (h' : Longest L s t' rest') : t = t' ∧ rest = rest' := by
  have hl := Nat.le_antisymm (h'.maximal t rest h.eq h.mem) (h.maximal t' rest' h'.eq h'.mem)
  exact List.append_inj (h.eq.symm.trans h'.eq) hl

/-! ### Numerals -/

namespace Numeral

variable {n n' : Numeral} {s rest : List Char} {x : Float}

/-- Nothing of a text can belong to a numeral in front of it: no digit, and no point with a
    digit if the numeral has none. -/
structure Ends (n : Numeral) (rest : List Char) : Prop where
  digits : Stops Char.isDigit rest
  point : n.fraction = [] → ∀ t, rest = '.' :: t → Stops Char.isDigit t

theorem stops_point (n : Numeral) : Stops Char.isDigit n.point := by
  unfold point
  split
  · exact stops_nil
  · exact stops_cons.2 rfl

theorem stops_point_append (h : Stops Char.isDigit rest) :
    Stops Char.isDigit (n.point ++ rest) := by
  unfold point
  split
  · exact h
  · exact stops_cons.2 rfl

theorem exists_whole_eq_cons (n : Numeral) :
    ∃ c w, n.whole = c :: w ∧ c.isDigit = true := by
  obtain ⟨c, w, h⟩ := List.exists_cons_of_ne_nil n.whole_ne_nil
  exact ⟨c, w, h, n.isDigit_whole c (by simp [h])⟩

/-- A decimal begins with a digit, which is not a minus sign. -/
theorem whole_append_ne_minus {t u : List Char} : n.whole ++ t ≠ '-' :: u := by
  obtain ⟨c, w, hw, hc⟩ := n.exists_whole_eq_cons
  rw [hw, List.cons_append]
  intro h
  rw [(List.cons.inj h).1] at hc
  exact absurd hc (by decide)

/-- Two numerals at the front of one text have the same sign. -/
theorem sign_eq {rest' : List Char} (h : n.text ++ rest = n'.text ++ rest') :
    n.negative = n'.negative := by
  simp only [text, sign] at h
  cases hn : n.negative <;> cases hn' : n'.negative
  · rfl
  · simp only [hn, hn', if_true, Bool.false_eq_true, if_false, List.nil_append,
      List.append_assoc] at h
    exact absurd h whole_append_ne_minus
  · simp only [hn, hn', if_true, Bool.false_eq_true, if_false, List.nil_append,
      List.append_assoc] at h
    exact absurd h.symm whole_append_ne_minus
  · rfl

theorem point_injective (h : n.point = n'.point) : n.fraction = n'.fraction := by
  unfold point at h
  split at h <;> split at h <;> simp_all

/-- A numeral is known from its text. -/
theorem text_injective (h : n.text = n'.text) : n = n' := by
  have hs : n.negative = n'.negative := sign_eq (congrArg (· ++ []) h)
  have hw : n.whole ++ n.point = n'.whole ++ n'.point := by
    simpa [text, sign, hs] using h
  have hw' : n.whole = n'.whole := by
    rw [← takeWhile_append n.isDigit_whole n.stops_point, hw,
      takeWhile_append n'.isDigit_whole n'.stops_point]
  rw [hw', List.append_cancel_left_eq] at hw
  exact Numeral.ext hs hw' (point_injective hw)

/-- A numeral is the longest one where nothing that follows can belong to it. -/
theorem Ends.longest (h : n.Ends rest) : Longest IsNumeral (n.text ++ rest) n.text rest := by
  refine ⟨rfl, ⟨n, rfl⟩, ?_⟩
  rintro _ rest' he ⟨n', rfl⟩
  -- The digits of the one before the point are the first of the other's, and all of them
  -- if it has a point.
  have hs := sign_eq he
  have hw : n.whole ++ (n.point ++ rest) = n'.whole ++ (n'.point ++ rest') := by
    simpa [text, sign, hs] using he
  have ht : n.whole = n'.whole ++ (n'.point ++ rest').takeWhile Char.isDigit :=
    eq_append_takeWhile n.isDigit_whole n'.isDigit_whole (stops_point_append h.digits) hw
  suffices hl : (n'.whole ++ n'.point).length ≤ (n.whole ++ n.point).length by
    simpa only [text, sign, hs, List.length_append, Nat.add_le_add_iff_left] using hl
  by_cases hf' : n'.fraction = []
  · have hp : n'.point = [] := if_pos hf'
    rw [hp, ht]
    simp only [List.length_append, List.length_nil]
    omega
  · have hp' : n'.point = '.' :: n'.fraction := if_neg hf'
    have hw' : n.whole = n'.whole := by
      simpa [hp'] using ht
    rw [hw', List.append_cancel_left_eq, hp', List.cons_append] at hw
    by_cases hf : n.fraction = []
    · -- The point would be one that the longer numeral cannot have.
      rw [show n.point = [] from if_pos hf, List.nil_append] at hw
      obtain ⟨c, w, hc⟩ := List.exists_cons_of_ne_nil hf'
      have hd := n'.isDigit_fraction c (by simp [hc])
      have := h.point hf _ hw
      rw [hc, List.cons_append, stops_cons, hd] at this
      cases this
    · have hp : n.point = '.' :: n.fraction := if_neg hf
      rw [hp, List.cons_append, List.cons.injEq] at hw
      have hl : n.fraction = n'.fraction ++ rest'.takeWhile Char.isDigit :=
        eq_append_takeWhile n.isDigit_fraction n'.isDigit_fraction h.digits hw.2
      rw [hp, hp', hw', hl]
      simp only [List.length_append, List.length_cons]
      omega

/-! ### Numerals as they are scanned -/

/-- Every decimal that is scanned is one without a sign. -/
theorem exists_of_scan_decimal {d : Decimal} (h : Decimal.scan s = some (d, rest)) :
    ∃ n : Numeral, n.negative = false ∧ s = n.whole ++ (n.point ++ rest) ∧ n.Ends rest ∧
      d = Decimal.ofDigits n.whole n.fraction := by
  have hw : ∀ c ∈ s.takeWhile Char.isDigit, c.isDigit = true := fun c => List.mem_takeWhile_imp
  have hs := List.takeWhile_append_dropWhile (p := Char.isDigit) (l := s)
  have hr : Stops Char.isDigit (s.dropWhile Char.isDigit) := stops_dropWhile
  simp only [Decimal.scan, List.isEmpty_iff] at h
  split at h
  · cases h
  rename_i hn
  split at h
  · rename_i t ht
    split at h
    · -- A point without a digit after it is left in place.
      rename_i hf
      cases h
      refine ⟨⟨false, _, [], hn, hw, nofun⟩, rfl, hs.symm, ⟨hr, fun _ u hu => ?_⟩, rfl⟩
      obtain rfl : t = u := (List.cons.inj (ht.symm.trans hu)).2
      rw [← List.takeWhile_append_dropWhile (p := Char.isDigit) (l := t), hf]
      exact stops_dropWhile
    · rename_i hf
      cases h
      refine ⟨⟨false, _, t.takeWhile Char.isDigit, hn, hw, fun c => List.mem_takeWhile_imp⟩,
        rfl, ?_, ⟨stops_dropWhile, fun h => absurd h hf⟩, rfl⟩
      simp only [point, hf, if_false, List.cons_append, List.takeWhile_append_dropWhile]
      rw [← ht, hs]
  · rename_i hp
    cases h
    exact ⟨⟨false, _, [], hn, hw, nofun⟩, rfl, hs.symm,
      ⟨hr, fun _ u hu => absurd hu (hp u)⟩, rfl⟩

/-- Every number that is scanned is that of a numeral. -/
theorem exists_of_scan (h : Catena.Numeral.scan s = some (x, rest)) :
    ∃ n : Numeral, s = n.text ++ rest ∧ n.Ends rest ∧ n.value = x := by
  unfold Catena.Numeral.scan at h
  split at h
  · rename_i t
    obtain ⟨⟨d, r⟩, hd, he⟩ := Option.map_eq_some_iff.1 h
    cases he
    obtain ⟨n, -, rfl, he, rfl⟩ := exists_of_scan_decimal hd
    exact ⟨{ n with negative := true }, by simp [text, sign, point], ⟨he.digits, he.point⟩, rfl⟩
  · obtain ⟨⟨d, r⟩, hd, he⟩ := Option.map_eq_some_iff.1 h
    cases he
    obtain ⟨n, hn, rfl, he, rfl⟩ := exists_of_scan_decimal hd
    exact ⟨n, by simp [text, sign, hn], he, by simp [value, hn]⟩

/-- Where a numeral begins, one is scanned. -/
theorem scan_text_append_ne_none : Catena.Numeral.scan (n.text ++ rest) ≠ none := by
  have hd : Decimal.scan (n.whole ++ (n.point ++ rest)) ≠ none := by
    obtain ⟨c, w, hw, hc⟩ := n.exists_whole_eq_cons
    simp only [Decimal.scan, hw, List.cons_append, List.takeWhile_cons, hc, if_true,
      List.isEmpty_cons, Bool.false_eq_true, if_false]
    split
    · split <;> nofun
    · nofun
  simp only [text, sign, List.append_assoc]
  cases n.negative with
  | true => simpa [Catena.Numeral.scan] using hd
  | false =>
    simp only [Bool.false_eq_true, if_false, List.nil_append]
    unfold Catena.Numeral.scan
    split
    · rename_i he
      exact absurd he whole_append_ne_minus
    · simpa using hd

theorem scan_eq_some_iff :
    Catena.Numeral.scan s = some (x, rest) ↔
      ∃ n : Numeral, Longest IsNumeral s n.text rest ∧ n.value = x := by
  constructor
  · intro h
    obtain ⟨n, rfl, he, hv⟩ := exists_of_scan h
    exact ⟨n, he.longest, hv⟩
  · rintro ⟨n, hl, rfl⟩
    -- Something is scanned, and it is the longest numeral as well.
    obtain ⟨⟨y, r⟩, hy⟩ := Option.ne_none_iff_exists'.1
      (hl.eq ▸ scan_text_append_ne_none : Catena.Numeral.scan s ≠ none)
    obtain ⟨n', rfl, he, rfl⟩ := exists_of_scan hy
    obtain ⟨ht, rfl⟩ := he.longest.unique hl
    rw [hy, text_injective ht]

theorem scan_eq_none_iff :
    Catena.Numeral.scan s = none ↔ ∀ t rest, s = t ++ rest → ¬ IsNumeral t := by
  constructor
  · rintro h _ rest rfl ⟨n, rfl⟩
    exact scan_text_append_ne_none h
  · intro h
    cases hs : Catena.Numeral.scan s with
    | none => rfl
    | some r =>
      obtain ⟨n, he, -⟩ := exists_of_scan hs
      exact absurd ⟨n, rfl⟩ (h n.text r.2 he)

end Numeral

/-! ### Names and strings -/

section Names

open Text (isNameChar)

variable {s t name rest : List Char} {n u : String} {mark : Char}

theorem isName_iff : IsName t ↔ t ≠ [] ∧ ∀ c ∈ t, isNameChar c = true := by
  simp [IsName, Text.isName]

/-- A name is the longest one where no name character follows it. -/
theorem longest_isName (hn : IsName name) (hr : Stops isNameChar rest) :
    Longest IsName (name ++ rest) name rest := by
  refine ⟨rfl, hn, fun t rest' he ht => ?_⟩
  have hc : name = t ++ rest'.takeWhile isNameChar :=
    eq_append_takeWhile (isName_iff.1 hn).2 (isName_iff.1 ht).2 hr he
  rw [hc, List.length_append]
  omega

theorem exists_of_scanName (h : Token.scanName s = some (n, rest)) :
    ∃ name, s = name ++ rest ∧ IsName name ∧ Stops isNameChar rest ∧ n = String.ofList name := by
  simp only [Token.scanName, List.isEmpty_iff] at h
  split at h
  · cases h
  · rename_i hne
    cases h
    exact ⟨s.takeWhile isNameChar, List.takeWhile_append_dropWhile.symm,
      isName_iff.2 ⟨hne, fun c => List.mem_takeWhile_imp⟩, stops_dropWhile, rfl⟩

theorem scanName_append_ne_none (hn : IsName name) : Token.scanName (name ++ rest) ≠ none := by
  obtain ⟨hne, hc⟩ := isName_iff.1 hn
  simp [Token.scanName, List.takeWhile_append_of_pos hc, hne]

theorem scanName_eq_some_iff :
    Token.scanName s = some (n, rest) ↔
      ∃ name, Longest IsName s name rest ∧ n = String.ofList name := by
  constructor
  · intro h
    obtain ⟨name, rfl, hn, hr, hv⟩ := exists_of_scanName h
    exact ⟨name, longest_isName hn hr, hv⟩
  · rintro ⟨name, hl, rfl⟩
    obtain ⟨⟨y, r⟩, hy⟩ := Option.ne_none_iff_exists'.1
      (hl.eq ▸ scanName_append_ne_none hl.mem : Token.scanName s ≠ none)
    obtain ⟨name', rfl, hn, hr, rfl⟩ := exists_of_scanName hy
    obtain ⟨rfl, rfl⟩ := (longest_isName hn hr).unique hl
    exact hy

theorem scanString_append (h : mark ∉ t) :
    Token.scanString mark (t ++ mark :: rest) = some (String.ofList t, rest) := by
  have hc : ∀ c ∈ t, (c != mark) = true := fun c hc => bne_iff_ne.2 fun he => h (he ▸ hc)
  have hr : Stops (· != mark) (mark :: rest) := by simp
  simp [Token.scanString, takeWhile_append hc hr, dropWhile_append hc hr]

theorem scanString_eq_some_iff :
    Token.scanString mark s = some (u, rest) ↔
      ∃ t, mark ∉ t ∧ s = t ++ mark :: rest ∧ u = String.ofList t := by
  constructor
  · intro h
    unfold Token.scanString at h
    split at h
    · cases h
    · rename_i c r hr
      cases h
      have hm : c = mark := by
        have := stops_dropWhile (p := (· != mark)) (s := s)
        rw [hr, stops_cons] at this
        simpa using this
      refine ⟨s.takeWhile (· != mark), fun hc => ?_, ?_, rfl⟩
      · simpa using List.mem_takeWhile_imp hc
      · rw [← hm, ← hr, hm, List.takeWhile_append_dropWhile]
  · rintro ⟨t, ht, rfl, rfl⟩
    exact scanString_append ht

end Names

/-! ### Items -/

/-- A token of the grammar at the front of a text, and the text after it. -/
inductive TokenAt : List Char → Token → List Char → Prop
  | opening {s} : TokenAt ('[' :: s) .opening s
  | closing {s} : TokenAt (']' :: s) .closing s
  | bar {s} : TokenAt ('|' :: s) .bar s
  | item {s l rest} : LeafAt s l rest → TokenAt s (.item l.value) rest

section Items

open Token

variable {s rest rest' : List Char} {c : Char} {l l' : Leaf} {v : Value}

theorem scan_eq_scanMark (h : ∀ t rest, s = t ++ rest → ¬ IsNumeral t) :
    scan s = scanMark s := by
  rw [scan, Numeral.scan_eq_none_iff.2 h]

/-- A decimal begins with a digit. -/
theorem decimal_scan_eq_none (h : Stops Char.isDigit s) : Decimal.scan s = none := by
  have hw : s.takeWhile Char.isDigit = [] := takeWhile_append (t := []) nofun h
  simp [Decimal.scan, hw]

/-- A number begins with a digit or a minus sign. -/
theorem numeral_scan_cons_eq_none (hd : c.isDigit = false) (hm : c ≠ '-') :
    Catena.Numeral.scan (c :: s) = none := by
  unfold Catena.Numeral.scan
  split
  · rename_i he
    exact absurd (List.cons.inj he).1 hm
  · rw [decimal_scan_eq_none (stops_cons.2 hd), Option.map_none]

theorem scan_cons_eq_scanMark (hd : c.isDigit = false) (hm : c ≠ '-') :
    scan (c :: s) = scanMark (c :: s) := by
  rw [scan, numeral_scan_cons_eq_none hd hm]

@[simp]
theorem scan_opening : scan ('[' :: s) = some (.opening, s) :=
  scan_cons_eq_scanMark rfl (by decide)

@[simp]
theorem scan_closing : scan (']' :: s) = some (.closing, s) :=
  scan_cons_eq_scanMark rfl (by decide)

@[simp]
theorem scan_bar : scan ('|' :: s) = some (.bar, s) :=
  scan_cons_eq_scanMark rfl (by decide)

theorem scan_separator (h : Text.isSeparator c = true) : scan (c :: s) = none := by
  have hn := Text.not_isNameChar_of_isSeparator h
  simp only [Text.isSeparator, Bool.or_eq_true, beq_iff_eq] at h
  rcases h with ((rfl | rfl) | rfl) | rfl <;>
    · rw [scan_cons_eq_scanMark rfl (by decide)]
      simp [scanMark, scanName, hn]

/-- An item of the grammar is scanned. -/
theorem LeafAt.scan_eq (h : LeafAt s l rest) : scan s = some (.item l.value, rest) := by
  cases h with
  | number h => rw [scan, Numeral.scan_eq_some_iff.2 ⟨_, h, rfl⟩, Leaf.value]
  | symbol h =>
    rw [scan_cons_eq_scanMark rfl (by decide)]
    simp [scanMark, scanName_eq_some_iff.2 ⟨_, h, rfl⟩, Leaf.value]
  | string hm ht =>
    rcases hm with rfl | rfl <;>
      · rw [scan_cons_eq_scanMark rfl (by decide)]
        simp [scanMark, scanString_append ht, Leaf.value]
  | @atom name s rest hn h =>
    -- The first character of a name is none of the marks.
    obtain ⟨hne, hc⟩ := isName_iff.1 h.mem
    obtain ⟨c, t, rfl⟩ := List.exists_cons_of_ne_nil hne
    have hr : Text.isReserved c = false := by
      have := hc c List.mem_cons_self
      simp only [Text.isNameChar, Bool.and_eq_true, Bool.not_eq_true'] at this
      exact this.2
    simp only [Text.isReserved, Bool.or_eq_false_iff, beq_eq_false_iff_ne] at hr
    obtain ⟨⟨⟨⟨⟨h₁, h₂⟩, h₃⟩, h₄⟩, h₅⟩, h₆⟩ := hr
    have hs := scanName_eq_some_iff.2 ⟨_, h, rfl⟩
    rw [scan_eq_scanMark hn]
    obtain rfl := h.eq
    rw [List.cons_append] at hs ⊢
    simp [scanMark, h₁, h₂, h₃, h₄, h₅, h₆, hs, Leaf.value]

/-- A token that does not begin with a number is one of the grammar. -/
theorem tokenAt_of_scanMark {t : Token} (hx : ∀ t rest, s = t ++ rest → ¬ IsNumeral t)
    (h : scanMark s = some (t, rest)) : TokenAt s t rest := by
  cases s with
  | nil => cases h
  | cons c s =>
    simp only [scanMark] at h
    split at h
    · rename_i hc
      subst hc
      cases h
      exact .opening
    split at h
    · rename_i hc
      subst hc
      cases h
      exact .closing
    split at h
    · rename_i hc
      subst hc
      cases h
      exact .bar
    split at h
    · rename_i hc
      subst hc
      obtain ⟨⟨n, r⟩, hn, he⟩ := Option.map_eq_some_iff.1 h
      cases he
      obtain ⟨name, hl, rfl⟩ := scanName_eq_some_iff.1 hn
      exact .item (.symbol hl)
    split at h
    · rename_i hc
      obtain ⟨⟨u, r⟩, hu, he⟩ := Option.map_eq_some_iff.1 h
      cases he
      obtain ⟨t, ht, rfl, rfl⟩ := scanString_eq_some_iff.1 hu
      exact .item (.string hc ht)
    · obtain ⟨⟨n, r⟩, hn, he⟩ := Option.map_eq_some_iff.1 h
      cases he
      obtain ⟨name, hl, rfl⟩ := scanName_eq_some_iff.1 hn
      exact .item (.atom hx hl)

/-- What is scanned is what the grammar puts at the front of a text. -/
theorem scan_eq_some_iff {t : Token} : scan s = some (t, rest) ↔ TokenAt s t rest := by
  constructor
  · intro h
    unfold scan at h
    split at h
    · rename_i x r hx
      cases h
      obtain ⟨n, hl, rfl⟩ := Numeral.scan_eq_some_iff.1 hx
      exact .item (.number hl)
    · rename_i hx
      exact tokenAt_of_scanMark (Numeral.scan_eq_none_iff.1 hx) h
  · intro h
    cases h with
    | opening => exact scan_opening
    | closing => exact scan_closing
    | bar => exact scan_bar
    | item hl => exact hl.scan_eq

/-- At most one item begins at a place. -/
theorem LeafAt.unique (h : LeafAt s l rest) (h' : LeafAt s l' rest') : l = l' ∧ rest = rest' := by
  -- The two are scanned as the same value, so they are of one kind.
  have he := h.scan_eq.symm.trans h'.scan_eq
  simp only [Option.some.injEq, Prod.mk.injEq, Token.item.injEq] at he
  obtain ⟨hv, rfl⟩ := he
  cases h with
  | number hl =>
    cases h' with
    | number hl' => exact ⟨congrArg _ (Numeral.text_injective (hl.unique hl').1), rfl⟩
    | _ => simp [Leaf.value] at hv
  | symbol hl =>
    cases h' with
    | symbol hl' => simpa [Leaf.value, String.ofList_inj] using hv
    | _ => simp [Leaf.value] at hv
  | string hm ht =>
    generalize hs : _ :: _ = s at h'
    cases h' with
    | string hm' ht' =>
      simp only [Leaf.value, Value.str.injEq, String.ofList_inj] at hv
      rw [hv, (List.cons.inj hs).1]
      exact ⟨rfl, rfl⟩
    | _ => simp [Leaf.value] at hv
  | atom hn hl =>
    cases h' with
    | atom hn' hl' => simpa [Leaf.value, String.ofList_inj] using hv
    | _ => simp [Leaf.value] at hv

end Items

end Grammar

end Catena
