import Catena.Proofs.Derivation
import Catena.Proofs.Numeral
import Catena.Value.Printer

/-!
# Printing and reading again

The text of a sequence of values is read as that sequence, if each of its numbers, names and
strings has a source text at all. A number that is not finite has none: it is printed as a
name and read as an atom (`reread`). Nor has a name with other characters than those of
names, and a string with both marks.

What is printed is derived by the grammar item by item: behind an item stands a blank or
nothing (`Separated`), so that the longest numeral or name ends with the item.

* `Value.derivesAll_joined`: the derivation of a printed sequence;
* `Parser.parse_sequenceText_iff`: the sequences that are read again as they are;
* `Parser.parse_sequenceText_of_parse`: what becomes of a program that is printed and read
  again.
-/

namespace Catena

open Grammar (Node Leaf Derives LeafAt IsName IsNumeral values depth)

namespace Value

/-! ### Values inside values -/

mutual

/-- The values in a value that are no quotes, in patterns and bodies at all levels. -/
def leaves : Value → List Value
  | .quote pattern body => leavesOf pattern ++ leavesOf body
  | .num x => [.num x]
  | .atom name => [.atom name]
  | .sym name => [.sym name]
  | .str text => [.str text]

/-- The values in a sequence that are no quotes, in patterns and bodies at all levels. -/
def leavesOf : List Value → List Value
  | [] => []
  | v :: vs => leaves v ++ leavesOf vs

end

mutual

/-- How many quotes stand inside one another in a value. -/
def nesting : Value → Nat
  | .quote pattern body => max (nestingOf pattern) (nestingOf body) + 1
  | _ => 0

/-- How many quotes stand inside one another in a sequence. -/
def nestingOf : List Value → Nat
  | [] => 0
  | v :: vs => max (nesting v) (nestingOf vs)

end

mutual

/-- What is read when a value is printed, if its names and strings have a source text: a
    number that is not finite becomes an atom. -/
def reread : Value → Value
  | .num x => if x.isFinite then .num x else .atom (String.ofList (Numeral.write x))
  | .quote pattern body => .quote (rereadAll pattern) (rereadAll body)
  | v => v

/-- What is read when a sequence is printed. -/
def rereadAll : List Value → List Value
  | [] => []
  | v :: vs => reread v :: rereadAll vs

end

/-- The value is no number, or a finite one. -/
def IsFinite : Value → Prop
  | .num x => x.isFinite = true
  | _ => True

/-- The name or the string that the value is has a source text: the name is one, and the
    string does not contain both marks. -/
def IsSpelled : Value → Prop
  | .atom name => IsName name.toList
  | .sym name => IsName name.toList
  | .str text => ¬ ('\'' ∈ text.toList ∧ '\"' ∈ text.toList)
  | _ => True

/-! ### Deriving what is printed -/

/-- Behind an item: nothing, or a blank. -/
inductive Separated : List Char → Prop
  | nil : Separated []
  | blank {s} : Separated (' ' :: s)

section Items

variable {s t name rest : List Char} {x : Float} {v : Value} {vs : List Value}

theorem Separated.stops {p : Char → Bool} (hp : p ' ' = false) (h : Separated rest) :
    Stops p rest := by
  cases h with
  | nil => exact stops_nil
  | blank => exact stops_cons.2 hp

theorem Separated.ends (n : Grammar.Numeral) (h : Separated rest) : n.Ends rest := by
  refine ⟨h.stops rfl, fun _ t ht => ?_⟩
  subst ht
  cases h

theorem isDigit_of_isNameChar {c : Char} (h : Text.isNameChar c = true) : c.isDigit = false := by
  cases hd : c.isDigit with
  | false => rfl
  | true => exact absurd h (by rw [Text.not_isNameChar_of_isDigit hd]; decide)

/-- No numeral begins where a name stands. -/
theorem not_isNumeral_of_isName (hn : IsName name) (h : Separated rest) :
    ∀ t rest', name ++ rest = t ++ rest' → ¬ IsNumeral t := by
  obtain ⟨hne, hc⟩ := Grammar.isName_iff.1 hn
  obtain ⟨c, t, rfl⟩ := List.exists_cons_of_ne_nil hne
  rw [← Grammar.Numeral.scan_eq_none_iff, List.cons_append]
  have hd := isDigit_of_isNameChar (hc c List.mem_cons_self)
  by_cases hm : c = '-'
  · -- What comes after the minus sign is no digit either.
    have ht : Stops Char.isDigit (t ++ rest) := by
      cases t with
      | nil => exact h.stops rfl
      | cons c' t => exact stops_cons.2 (isDigit_of_isNameChar (hc c' (by simp)))
    rw [hm, Numeral.scan, Grammar.decimal_scan_eq_none ht, Option.map_none]
  · exact Grammar.numeral_scan_cons_eq_none hd hm

theorem leafAt_atom (hn : IsName name) (h : Separated rest) :
    LeafAt (name ++ rest) (.atom name) rest :=
  .atom (not_isNumeral_of_isName hn h) (Grammar.longest_isName hn (h.stops rfl))

theorem stringMark_not_mem (h : ¬ ('\'' ∈ t ∧ '\"' ∈ t)) : stringMark t ∉ t := by
  unfold stringMark
  split
  · rename_i hc
    exact fun hm => h ⟨hm, by simpa using hc⟩
  · rename_i hc
    simpa using hc

/-- A text is derived as what is read of a printed sequence. -/
def DerivesAll (s : List Char) (vs : List Value) (rest : List Char) : Prop :=
  ∃ ns, Derives s ns rest ∧ values ns = rereadAll vs ∧ depth ns = nestingOf vs

/-- What is printed for a value is derived as what is read. -/
def DerivedAs (v : Value) : Prop :=
  ∀ rest, Separated rest → DerivesAll (chars v ++ rest) [v] rest

theorem derivedAs_of_leafAt {l : Leaf} (h : ∀ rest, Separated rest → LeafAt (chars v ++ rest) l rest)
    (hv : l.value = reread v) (hn : nesting v = 0) : DerivedAs v := by
  intro rest hr
  exact ⟨[.leaf l], .leaf (h rest hr) .done, by simp [values, Node.value?, hv, rereadAll],
    by simp [depth, Node.depth, hn, nestingOf]⟩

theorem derivedAs_num (x : Float) : DerivedAs (.num x) := by
  by_cases hx : x.isFinite = true
  · obtain ⟨n, ht, hv⟩ := Numeral.exists_text_eq_write hx
    refine derivedAs_of_leafAt (l := .number n) (fun rest hr => .number ?_)
      (by simp [Leaf.value, reread, hv, hx]) rfl
    rw [chars, ← ht]
    exact (hr.ends n).longest
  · refine derivedAs_of_leafAt (l := .atom (Numeral.write x)) (fun rest hr => ?_)
      (by simp [Leaf.value, reread, hx]) rfl
    exact leafAt_atom (Numeral.isName_write (Bool.eq_false_iff.2 hx)) hr

theorem derivedAs_str {text : String} (h : IsSpelled (.str text)) : DerivedAs (.str text) := by
  refine derivedAs_of_leafAt (l := .string (stringMark text.toList) text.toList)
    (fun rest _ => ?_) (by simp [Leaf.value, reread]) rfl
  have hm : stringMark text.toList = '\'' ∨ stringMark text.toList = '\"' := by
    unfold stringMark
    split
    · exact .inl rfl
    · exact .inr rfl
  have hl : LeafAt _ _ rest := .string hm (stringMark_not_mem h)
  simpa [chars] using hl

theorem separated_spaced_append (hr : Separated rest) : Separated (spaced vs ++ rest) := by
  cases vs with
  | nil => exact hr
  | cons => exact .blank

theorem derivesAll_cons (hv : DerivedAs v) (hr : Separated rest)
    (h : DerivesAll (spaced vs ++ rest) vs rest) :
    DerivesAll (chars v ++ (spaced vs ++ rest)) (v :: vs) rest := by
  obtain ⟨ns, hd, hvs, hn⟩ := h
  obtain ⟨ns', hd', hv', hn'⟩ := hv _ (separated_spaced_append hr)
  exact ⟨ns' ++ ns, hd'.append hd, by simp [hvs, hv', rereadAll],
    by simp [hn, hn', nestingOf]⟩

/-- A printed sequence with blanks in front of its values is derived, if each value is. -/
theorem derivesAll_spaced (h : ∀ v ∈ vs, DerivedAs v) (hr : Separated rest) :
    DerivesAll (spaced vs ++ rest) vs rest := by
  induction vs with
  | nil => exact ⟨[], .done, rfl, rfl⟩
  | cons v vs ih =>
    obtain ⟨ns, hd, hv, hn⟩ := derivesAll_cons (h v List.mem_cons_self) hr
      (ih fun w hw => h w (List.mem_cons_of_mem _ hw))
    refine ⟨.blank ' ' :: ns, ?_, by simp [values, Node.value?, hv], by simp [depth, Node.depth, hn]⟩
    rw [spaced, List.cons_append, List.append_assoc]
    exact .blank rfl hd

/-- One half of a printed quote, up to the mark that ends it. -/
theorem derivesAll_half (c : Char) (rest : List Char) (h : ∀ v ∈ vs, DerivedAs v) :
    DerivesAll (spaced vs ++ ' ' :: c :: rest) vs (c :: rest) := by
  obtain ⟨ns, hd, hv, hn⟩ := derivesAll_spaced h (.blank (s := c :: rest))
  exact ⟨ns ++ [.blank ' '], hd.append (.blank rfl .done), by simp [hv, values, Node.value?],
    by simp [hn, depth, Node.depth]⟩

theorem derivedAs_quote {p b : List Value} (hp : ∀ v ∈ p, DerivedAs v)
    (hb : ∀ v ∈ b, DerivedAs v) : DerivedAs (.quote p b) := by
  intro rest _
  obtain ⟨bs, hbd, hbv, hbn⟩ := derivesAll_half ']' rest hb
  cases p with
  | nil =>
    refine ⟨[.block bs], ?_, by simp [values, Node.value?, hbv, reread, rereadAll],
      by simp [depth, Node.depth, hbn, nesting, nestingOf]⟩
    simpa [chars] using Derives.block hbd .done
  | cons v p =>
    obtain ⟨ps, hpd, hpv, hpn⟩ := derivesAll_half '|' (spaced b ++ ' ' :: ']' :: rest) hp
    refine ⟨[.clause ps bs], ?_, by simp [values, Node.value?, hbv, hpv, reread, rereadAll],
      by simp [depth, Node.depth, hbn, hpn, nesting, nestingOf]⟩
    simpa [chars] using Derives.clause hpd hbd .done

theorem mem_leavesOf {w : Value} : w ∈ leavesOf vs ↔ ∃ v ∈ vs, w ∈ leaves v := by
  induction vs with
  | nil => simp [leavesOf]
  | cons v vs ih => simp [leavesOf, ih]

/-- What is printed is derived, if its names and strings have a source text. -/
theorem derivedAs_of_isSpelled (v : Value) (h : ∀ w ∈ leaves v, w.IsSpelled) : DerivedAs v := by
  induction v using Value.induction with
  | num x => exact derivedAs_num x
  | atom name =>
    have hn : IsName name.toList := h (.atom name) (by simp [leaves])
    exact derivedAs_of_leafAt (l := .atom name.toList) (fun _ hr => leafAt_atom hn hr)
      (by simp [Leaf.value, reread]) rfl
  | sym name =>
    have hn : IsName name.toList := h (.sym name) (by simp [leaves])
    exact derivedAs_of_leafAt (l := .symbol name.toList)
      (fun _ hr => .symbol (Grammar.longest_isName hn (hr.stops rfl)))
      (by simp [Leaf.value, reread]) rfl
  | str text => exact derivedAs_str (h _ (by simp [leaves]))
  | quote p b hp hb =>
    rw [leaves] at h
    exact derivedAs_quote
      (fun v hv => hp v hv fun w hw => h w (List.mem_append_left _ (mem_leavesOf.2 ⟨v, hv, hw⟩)))
      (fun v hv => hb v hv fun w hw => h w (List.mem_append_right _ (mem_leavesOf.2 ⟨v, hv, hw⟩)))

/-- A printed sequence has a derivation, if its names and strings have a source text. -/
theorem derivesAll_joined (h : ∀ w ∈ leavesOf vs, w.IsSpelled) : DerivesAll (joined vs) vs [] := by
  have hd : ∀ v ∈ vs, DerivedAs v := fun v hv =>
    derivedAs_of_isSpelled v fun w hw => h w (mem_leavesOf.2 ⟨v, hv, hw⟩)
  cases vs with
  | nil => exact ⟨[], .done, rfl, rfl⟩
  | cons v vs =>
    have hs := derivesAll_spaced (fun w hw => hd w (List.mem_cons_of_mem _ hw)) .nil
    simpa [joined] using derivesAll_cons (hd v List.mem_cons_self) .nil hs

end Items

/-! ### What is read -/

section Reading

variable {s rest : List Char} {ns : List Node} {vs : List Value}

theorem leaves_leaf (l : Leaf) : leaves l.value = [l.value] := by
  cases l <;> rfl

/-- Names and strings that are read have a source text. -/
theorem isSpelled_of_leafAt {l : Leaf} (h : LeafAt s l rest) : l.value.IsSpelled := by
  cases h with
  | number => trivial
  | symbol h => simpa [Leaf.value, IsSpelled] using h.mem
  | string hm ht =>
    rcases hm with rfl | rfl
    · simp [Leaf.value, IsSpelled, ht]
    · simp [Leaf.value, IsSpelled, ht]
  | atom _ h => simpa [Leaf.value, IsSpelled] using h.mem

/-- A derivation is as deep as the values that it stands for. -/
theorem nestingOf_values (h : Derives s ns rest) : nestingOf (values ns) = depth ns := by
  induction h with
  | done => rfl
  | blank _ _ ih => simpa [values, Node.value?, depth, Node.depth] using ih
  | @leaf l _ _ _ _ _ _ ih =>
    have hl : nesting l.value = 0 := by cases l <;> rfl
    simpa [values, Node.value?, depth, Node.depth, nestingOf, hl] using ih
  | block _ _ ihb ih =>
    simp [values, Node.value?, depth, Node.depth, nestingOf, nesting, ihb, ih]
  | clause _ _ _ ihp ihb ih =>
    simp [values, Node.value?, depth, Node.depth, nestingOf, nesting, ihp, ihb, ih]

theorem isSpelled_of_derives (h : Derives s ns rest) :
    ∀ w ∈ leavesOf (values ns), w.IsSpelled := by
  induction h with
  | done => simp [values, leavesOf]
  | blank _ _ ih => simpa [values, Node.value?] using ih
  | leaf hl _ ih =>
    simp only [values, Node.value?, Option.toList_some, List.singleton_append, leavesOf, leaves_leaf,
      List.forall_mem_cons]
    exact ⟨isSpelled_of_leafAt hl, ih⟩
  | block _ _ ihb ih =>
    simp only [values, Node.value?, Option.toList_some, List.singleton_append, leavesOf, leaves,
      List.nil_append, List.forall_mem_append]
    exact ⟨ihb, ih⟩
  | clause _ _ _ ihp ihb ih =>
    simp only [values, Node.value?, Option.toList_some, List.singleton_append, leavesOf, leaves,
      List.forall_mem_append]
    exact ⟨⟨ihp, ihb⟩, ih⟩

end Reading

/-! ### Equality -/

section Equality

variable {p b vs ws : List Value}

theorem rereadAll_eq_map : rereadAll vs = vs.map reread := by
  induction vs with
  | nil => rfl
  | cons v vs ih => rw [rereadAll, ih, List.map_cons]

theorem rereadAll_eq_self_of_forall (h : ∀ v ∈ vs, reread v = v) : rereadAll vs = vs := by
  rw [rereadAll_eq_map, List.map_congr_left h, List.map_id']

/-- A value with finite numbers only is read as it was printed. -/
theorem reread_eq_self (v : Value) (h : ∀ l ∈ leaves v, l.IsFinite) : reread v = v := by
  induction v using Value.induction with
  | num x =>
    have hx : x.isFinite = true := h (.num x) (by simp [leaves])
    simp [reread, hx]
  | atom | sym | str => rfl
  | quote p b hp hb =>
    rw [leaves, List.forall_mem_append] at h
    rw [reread,
      rereadAll_eq_self_of_forall fun v hv =>
        hp v hv fun l hl => h.1 l (mem_leavesOf.2 ⟨v, hv, hl⟩),
      rereadAll_eq_self_of_forall fun v hv =>
        hb v hv fun l hl => h.2 l (mem_leavesOf.2 ⟨v, hv, hl⟩)]

theorem rereadAll_eq_self (h : ∀ l ∈ leavesOf vs, l.IsFinite) : rereadAll vs = vs :=
  rereadAll_eq_self_of_forall fun v hv =>
    reread_eq_self v fun l hl => h l (mem_leavesOf.2 ⟨v, hv, hl⟩)

theorem beqList_rereadAll_iff_of_forall
    (h : ∀ v ∈ vs, (beq (reread v) v = true ↔ ∀ l ∈ leaves v, l.IsFinite)) :
    beqList (rereadAll vs) vs = true ↔ ∀ l ∈ leavesOf vs, l.IsFinite := by
  induction vs with
  | nil => simp [rereadAll, beqList, leavesOf]
  | cons v vs ih =>
    rw [rereadAll, beqList, leavesOf, List.forall_mem_append, Bool.and_eq_true,
      h v List.mem_cons_self, ih fun w hw => h w (List.mem_cons_of_mem _ hw)]

/-- A value is read as one that equals it if and only if its numbers are finite: any other
    becomes an atom, and a NaN does not even equal itself. -/
theorem beq_reread_iff (v : Value) : beq (reread v) v = true ↔ ∀ l ∈ leaves v, l.IsFinite := by
  induction v using Value.induction with
  | num x =>
    by_cases hx : x.isFinite = true
    · simp [reread, hx, beq, Double.beq_self hx, leaves, IsFinite]
    · simp [reread, hx, beq, leaves, IsFinite]
  | atom | sym | str => simp [reread, beq, leaves, IsFinite]
  | quote p b hp hb =>
    rw [reread, beq, leaves, List.forall_mem_append, Bool.and_eq_true,
      beqList_rereadAll_iff_of_forall hp, beqList_rereadAll_iff_of_forall hb]

theorem beq_rereadAll_iff : (rereadAll vs == vs) = true ↔ ∀ l ∈ leavesOf vs, l.IsFinite := by
  rw [← beqList_eq]
  exact beqList_rereadAll_iff_of_forall fun v _ => beq_reread_iff v

/-- The names and strings of a value have a source text if those of an equal one have. -/
def SpelledLike (v : Value) : Prop :=
  ∀ w, beq v w = true → (∀ l ∈ leaves v, l.IsSpelled) → ∀ l ∈ leaves w, l.IsSpelled

theorem isSpelled_of_beqList (hv : ∀ v ∈ vs, SpelledLike v) (h : beqList vs ws = true)
    (hs : ∀ l ∈ leavesOf vs, l.IsSpelled) : ∀ l ∈ leavesOf ws, l.IsSpelled := by
  induction vs generalizing ws with
  | nil =>
    cases ws with
    | nil => exact hs
    | cons => cases h
  | cons v vs ih =>
    cases ws with
    | nil => cases h
    | cons w ws =>
      rw [beqList, Bool.and_eq_true] at h
      rw [leavesOf, List.forall_mem_append] at hs ⊢
      exact ⟨hv v List.mem_cons_self w h.1 hs.1,
        ih (fun u hu => hv u (List.mem_cons_of_mem _ hu)) h.2 hs.2⟩

theorem spelledLike (v : Value) : SpelledLike v := by
  induction v using Value.induction with
  | num x =>
    intro w h _
    cases w with
    | num y => simp [leaves, IsSpelled]
    | _ => simp [beq] at h
  | atom n =>
    intro w h hs
    cases w with
    | atom m => rwa [eq_of_beq (show (n == m) = true from h)] at hs
    | _ => simp [beq] at h
  | sym n =>
    intro w h hs
    cases w with
    | sym m => rwa [eq_of_beq (show (n == m) = true from h)] at hs
    | _ => simp [beq] at h
  | str t =>
    intro w h hs
    cases w with
    | str u => rwa [eq_of_beq (show (t == u) = true from h)] at hs
    | _ => simp [beq] at h
  | quote p b hp hb =>
    intro w h hs
    cases w with
    | quote q c =>
      rw [beq, Bool.and_eq_true] at h
      rw [leaves, List.forall_mem_append] at hs ⊢
      exact ⟨isSpelled_of_beqList hp h.1 hs.1, isSpelled_of_beqList hb h.2 hs.2⟩
    | _ => simp [beq] at h

theorem isSpelled_of_beq (h : (vs == ws) = true) (hs : ∀ l ∈ leavesOf vs, l.IsSpelled) :
    ∀ l ∈ leavesOf ws, l.IsSpelled :=
  isSpelled_of_beqList (fun v _ => spelledLike v) ((beqList_eq vs ws).trans h) hs

end Equality

end Value

/-! ### Printing and parsing -/

namespace Parser

open Value (leavesOf nestingOf rereadAll sequenceText)

variable {limit : Nat} {items vs : List Value} {source : String}

/-- What is read of a printed sequence whose names and strings have a source text. -/
theorem parse_sequenceText (h : ∀ l ∈ leavesOf items, l.IsSpelled) :
    parse limit (sequenceText items) = .ok vs ↔
      nestingOf items ≤ limit ∧ vs = rereadAll items := by
  obtain ⟨ns, hd, hv, hn⟩ := Value.derivesAll_joined h
  rw [parse_eq_ok_iff_derives, sequenceText, String.toList_ofList]
  constructor
  · rintro ⟨ns', hd', hl, rfl⟩
    obtain ⟨rfl, -⟩ := hd.unique hd' .nil .nil
    exact ⟨hn ▸ hl, hv⟩
  · rintro ⟨hl, rfl⟩
    exact ⟨ns, hd, hn ▸ hl, hv⟩

/-- The names and strings of what is read have a source text. -/
theorem isSpelled_of_parse (h : parse limit source = .ok items) :
    ∀ l ∈ leavesOf items, l.IsSpelled := by
  obtain ⟨ns, hd, -, rfl⟩ := parse_eq_ok_iff_derives.1 h
  exact Value.isSpelled_of_derives hd

/-- What is read has room. -/
theorem nestingOf_le_of_parse (h : parse limit source = .ok items) :
    nestingOf items ≤ limit := by
  obtain ⟨ns, hd, hl, rfl⟩ := parse_eq_ok_iff_derives.1 h
  rwa [Value.nestingOf_values hd]

/-- A sequence is printed and read as one that equals it if and only if its numbers are
    finite, its names and strings have a source text, and there is room for its quotes. It
    is then the same sequence, with the same zeros. -/
theorem parse_sequenceText_iff (limit : Nat) (items : List Value) :
    ((∃ vs, parse limit (sequenceText items) = .ok vs ∧ (vs == items) = true) ↔
      (∀ l ∈ leavesOf items, l.IsFinite ∧ l.IsSpelled) ∧ nestingOf items ≤ limit) ∧
    ∀ vs, parse limit (sequenceText items) = .ok vs → (vs == items) = true → vs = items := by
  have hs : ∀ vs, parse limit (sequenceText items) = .ok vs → (vs == items) = true →
      (∀ l ∈ leavesOf items, l.IsSpelled) ∧ (∀ l ∈ leavesOf items, l.IsFinite) ∧
        nestingOf items ≤ limit ∧ vs = items := by
    intro vs hp he
    -- Names and strings are found in what is read, and that equals the sequence.
    have hs := Value.isSpelled_of_beq he (isSpelled_of_parse hp)
    obtain ⟨hl, rfl⟩ := (parse_sequenceText hs).1 hp
    have hf := Value.beq_rereadAll_iff.1 he
    exact ⟨hs, hf, hl, Value.rereadAll_eq_self hf⟩
  refine ⟨⟨?_, ?_⟩, fun vs hp he => (hs vs hp he).2.2.2⟩
  · rintro ⟨vs, hp, he⟩
    obtain ⟨hs, hf, hl, -⟩ := hs vs hp he
    exact ⟨fun l h => ⟨hf l h, hs l h⟩, hl⟩
  · rintro ⟨h, hl⟩
    exact ⟨rereadAll items, (parse_sequenceText fun l hm => (h l hm).2).2 ⟨hl, rfl⟩,
      Value.beq_rereadAll_iff.2 fun l hm => (h l hm).1⟩

/-! ### Programs -/

/-- The least power of ten beyond the doubles. -/
def beyondDoubles : Grammar.Numeral where
  negative := false
  whole := '1' :: List.replicate 309 '0'
  fraction := []
  whole_ne_nil := List.cons_ne_nil _ _
  isDigit_whole := by
    intro c hc
    rcases List.mem_cons.1 hc with rfl | hc
    · rfl
    · exact Decimal.isDigit_of_mem_zeros hc
  isDigit_fraction := nofun

theorem value_beyondDoubles : beyondDoubles.value = 1 / 0 := by
  decide +kernel

theorem parse_beyondDoubles :
    parse defaultDepth (String.ofList beyondDoubles.text) = .ok [.num (1 / 0)] := by
  have hl := Value.Separated.nil.ends beyondDoubles
  refine parse_eq_ok_iff_derives.2 ⟨[.leaf (.number beyondDoubles)], ?_, by decide, ?_⟩
  · simpa using Derives.leaf (.number hl.longest) .done
  · simp [values, Node.value?, Leaf.value, value_beyondDoubles]

/-- A program is printed as a program that is read as the same, but for the numbers that are
    not finite: they become atoms. It is read as one that equals it if and only if there are
    none. -/
theorem parse_sequenceText_of_parse (h : parse limit source = .ok items) :
    parse limit (sequenceText items) = .ok (rereadAll items) ∧
      ((rereadAll items == items) = true ↔ ∀ l ∈ leavesOf items, l.IsFinite) :=
  ⟨(parse_sequenceText (isSpelled_of_parse h)).2 ⟨nestingOf_le_of_parse h, rfl⟩,
    Value.beq_rereadAll_iff⟩

theorem parse_sequenceText_beyondDoubles :
    parse defaultDepth (String.ofList beyondDoubles.text) = .ok [.num (1 / 0)] ∧
      parse defaultDepth (sequenceText [.num (1 / 0)]) = .ok [.atom "inf"] ∧
      (([.atom "inf"] : List Value) == [.num (1 / 0)]) = false := by
  have h := parse_sequenceText_of_parse parse_beyondDoubles
  have hw : String.ofList (Numeral.write (1 / 0)) = "inf" := by decide +kernel
  have hr : rereadAll [.num (1 / 0)] = [.atom "inf"] := by
    rw [rereadAll, Value.reread, if_neg (by decide +kernel), hw, rereadAll]
  exact ⟨parse_beyondDoubles, hr ▸ h.1, rfl⟩

/-- A numeral beyond the doubles is read as infinity, and that is printed as a name: so it is
    a program that is not printed and read as one that equals it. -/
theorem not_forall_parse_sequenceText :
    ¬ ∀ (source : String) (items : List Value), parse defaultDepth source = .ok items →
      ∃ vs, parse defaultDepth (sequenceText items) = .ok vs ∧ (vs == items) = true := by
  intro h
  obtain ⟨vs, hv, he⟩ := h _ _ parse_beyondDoubles
  obtain ⟨-, rfl⟩ := (parse_sequenceText (isSpelled_of_parse parse_beyondDoubles)).1 hv
  have hf : (1 / 0 : Float).isFinite = true :=
    Value.beq_rereadAll_iff.1 he (.num (1 / 0)) (by simp [leavesOf, Value.leaves])
  exact absurd hf (by decide +kernel)

end Parser

end Catena
