import Catena.Pattern
import Mathlib

/-!
# Matching patterns

A pattern fits its arguments if there are as many of them, if the argument at the place of
a literal equals the literal, and if the arguments at all places of one variable equal each
other (`Pattern.Fits`). Matching sees less than that: it compares a variable only with the
argument at its first place. The rest follows since equality is symmetric and transitive.
It is not reflexive, so two places of a variable are compared even if one and the same
value stands at both.

* `Value.instPartialEquivBEq`: equality of values is symmetric and transitive;
* `Pattern.matchFrom_fits`: what further places of a pattern ask, given the bindings so far;
* `Pattern.match?_exact`: a pattern matches exactly if it fits, and each of its variables is
  bound to the argument at its first place.
-/

namespace Catena

/-! ### Equality -/

namespace Value

variable {vs ws us : List Value}

theorem beqList_symm_of_forall (h : ∀ v ∈ vs, ∀ w, beq v w = true → beq w v = true)
    (he : beqList vs ws = true) : beqList ws vs = true := by
  induction vs generalizing ws with
  | nil =>
    cases ws with
    | nil => rfl
    | cons => simp [beqList] at he
  | cons v vs ih =>
    rw [List.forall_mem_cons] at h
    cases ws with
    | nil => simp [beqList] at he
    | cons w ws =>
      rw [beqList, Bool.and_eq_true] at he ⊢
      exact ⟨h.1 w he.1, ih h.2 he.2⟩

theorem beq_symm (v w : Value) (h : beq v w = true) : beq w v = true := by
  induction v using Value.induction generalizing w with
  | num x =>
    cases w with
    | num y => exact BEq.symm (α := Float) h
    | _ => simp [beq] at h
  | atom | sym | str => cases w <;> simp_all [beq]
  | quote p b hp hb =>
    cases w with
    | quote q c =>
      rw [beq, Bool.and_eq_true] at h ⊢
      exact ⟨beqList_symm_of_forall hp h.1, beqList_symm_of_forall hb h.2⟩
    | _ => simp [beq] at h

theorem beqList_trans_of_forall
    (h : ∀ v ∈ vs, ∀ w u, beq v w = true → beq w u = true → beq v u = true)
    (hv : beqList vs ws = true) (hw : beqList ws us = true) : beqList vs us = true := by
  induction vs generalizing ws us with
  | nil =>
    cases ws with
    | nil => exact hw
    | cons => simp [beqList] at hv
  | cons v vs ih =>
    rw [List.forall_mem_cons] at h
    cases ws with
    | nil => simp [beqList] at hv
    | cons w ws =>
      cases us with
      | nil => simp [beqList] at hw
      | cons u us =>
        rw [beqList, Bool.and_eq_true] at hv hw ⊢
        exact ⟨h.1 w u hv.1 hw.1, ih h.2 hv.2 hw.2⟩

theorem beq_trans (v w u : Value) (hv : beq v w = true) (hw : beq w u = true) :
    beq v u = true := by
  induction v using Value.induction generalizing w u with
  | num x =>
    cases w with
    | num y =>
      cases u with
      | num z => exact BEq.trans (α := Float) hv hw
      | _ => simp [beq] at hw
    | _ => simp [beq] at hv
  | atom | sym | str =>
    cases w <;> simp only [beq, beq_iff_eq, Bool.false_eq_true] at hv
    subst hv
    exact hw
  | quote p b hp hb =>
    cases w with
    | quote q c =>
      cases u with
      | quote r d =>
        rw [beq, Bool.and_eq_true] at hv hw ⊢
        exact ⟨beqList_trans_of_forall hp hv.1 hw.1, beqList_trans_of_forall hb hv.2 hw.2⟩
      | _ => simp [beq] at hw
    | _ => simp [beq] at hv

instance instPartialEquivBEq : PartialEquivBEq Value where
  symm := beq_symm _ _
  trans := beq_trans _ _ _

end Value

/-! ### Matching -/

namespace Pattern

/-- A pattern fits its arguments: there are as many of them, the argument at the place of a
    literal equals it, and the arguments at any two places of a variable equal each other. -/
structure Fits (pattern args : List Value) : Prop where
  length : args.length = pattern.length
  literal : ∀ (i : Nat) (e v : Value), pattern[i]? = some e → args[i]? = some v →
    (∀ n, e ≠ .atom n) → (e == v) = true
  repeated : ∀ (i j : Nat) (n : String) (v w : Value), i ≠ j →
    pattern[i]? = some (.atom n) → pattern[j]? = some (.atom n) →
    args[i]? = some v → args[j]? = some w → (v == w) = true

/-- A value is the argument at the first place of a variable. -/
def IsFirst (pattern args : List Value) (n : String) (v : Value) : Prop :=
  ∃ i : Nat, pattern[i]? = some (.atom n) ∧ args[i]? = some v ∧
    ∀ j < i, pattern[j]? ≠ some (.atom n)

/-- The arguments at all places of a variable equal a value. -/
def Repeats (n : String) (v : Value) (pattern args : List Value) : Prop :=
  ∀ (i : Nat) (w : Value), pattern[i]? = some (.atom n) → args[i]? = some w → (v == w) = true

variable {pattern args : List Value} {e v w : Value} {n m : String} {b b' : Bindings}

/-! ### One more place -/

theorem fits_literal_cons (he : ∀ n, e ≠ .atom n) :
    Fits (e :: pattern) (v :: args) ↔ (e == v) = true ∧ Fits pattern args := by
  constructor
  · rintro ⟨hl, ht, hr⟩
    refine ⟨ht 0 e v rfl rfl he, by simpa using hl, fun i => ht (i + 1), fun i j n v w hij => ?_⟩
    exact hr (i + 1) (j + 1) n v w (by omega)
  · rintro ⟨hv, hl, ht, hr⟩
    refine ⟨by simpa using hl, ?_, ?_⟩
    · rintro (_ | i) e' v' hp ha
      · cases hp
        cases ha
        exact fun _ => hv
      · exact ht i e' v' hp ha
    · rintro (_ | i) (_ | j) n v' w hij hp hp'
      · exact absurd rfl hij
      · exact absurd (Option.some.inj hp) (he n)
      · exact absurd (Option.some.inj hp') (he n)
      · exact hr i j n v' w (by omega) hp hp'

theorem fits_atom_cons :
    Fits (.atom n :: pattern) (v :: args) ↔ Fits pattern args ∧ Repeats n v pattern args := by
  constructor
  · rintro ⟨hl, ht, hr⟩
    refine ⟨⟨by simpa using hl, fun i => ht (i + 1), fun i j n v w hij => ?_⟩, fun i w => ?_⟩
    · exact hr (i + 1) (j + 1) n v w (by omega)
    · exact fun hp => hr 0 (i + 1) n v w (by omega) rfl hp rfl
  · rintro ⟨⟨hl, ht, hr⟩, hn⟩
    refine ⟨by simpa using hl, ?_, ?_⟩
    · rintro (_ | i) e v' hp ha he
      · exact absurd (Option.some.inj hp).symm (he n)
      · exact ht i e v' hp ha he
    · rintro (_ | i) (_ | j) m v' w hij hp hp' ha ha'
      · exact absurd rfl hij
      · cases hp
        cases ha
        exact hn j w hp' ha'
      · cases hp'
        cases ha'
        exact BEq.symm (hn i v' hp ha)
      · exact hr i j m v' w (by omega) hp hp' ha ha'

theorem repeats_cons : Repeats n w (e :: pattern) (v :: args) ↔
    (e = .atom n → (w == v) = true) ∧ Repeats n w pattern args := by
  constructor
  · exact fun h => ⟨fun he => h 0 v (by rw [he]; rfl) rfl, fun i => h (i + 1)⟩
  · rintro ⟨h₀, h⟩ (_ | i) v' hp ha
    · cases ha
      exact h₀ (Option.some.inj hp)
    · exact h i v' hp ha

/-- What equals the arguments at all places of a variable, and what equals that. -/
theorem Repeats.of_beq (h : Repeats n w pattern args) (hv : (w == v) = true) :
    Repeats n v pattern args :=
  fun i u hp ha => BEq.trans (BEq.symm hv) (h i u hp ha)

theorem isFirst_cons : IsFirst (e :: pattern) (v :: args) n w ↔
    e = .atom n ∧ v = w ∨ e ≠ .atom n ∧ IsFirst pattern args n w := by
  constructor
  · rintro ⟨_ | i, hp, ha, hj⟩
    · exact .inl ⟨Option.some.inj hp, Option.some.inj ha⟩
    · exact .inr ⟨fun he => hj 0 (by omega) (by rw [he]; rfl), i, hp, ha,
        fun j hi => hj (j + 1) (by omega)⟩
  · rintro (⟨rfl, rfl⟩ | ⟨he, i, hp, ha, hj⟩)
    · exact ⟨0, rfl, rfl, fun j hj => absurd hj (Nat.not_lt_zero j)⟩
    · refine ⟨i + 1, hp, ha, ?_⟩
      rintro (_ | j) hi
      · exact fun h => he (Option.some.inj h)
      · exact hj j (by omega)

/-! ### Place by place -/

theorem matchPlace_literal (he : ∀ n, e ≠ .atom n) :
    matchPlace b e v = if (e == v) = true then some b else none := by
  cases e with
  | atom n => exact absurd rfl (he n)
  | _ => rfl

theorem matchPlace_bound (h : b.get? n = some w) :
    matchPlace b (.atom n) v = if (w == v) = true then some b else none := by
  simp [matchPlace, h]

theorem matchPlace_free (h : b.get? n = none) :
    matchPlace b (.atom n) v = some (b.insert n v) := by
  simp [matchPlace, h]

/-- A pattern fits its arguments, and those of the variables that are bound already equal
    what these are bound to. -/
structure FitsUnder (b : Bindings) (pattern args : List Value) : Prop where
  fits : Fits pattern args
  bound : ∀ n v, b.get? n = some v → Repeats n v pattern args

theorem fitsUnder_literal_cons (he : ∀ n, e ≠ .atom n) :
    FitsUnder b (e :: pattern) (v :: args) ↔ (e == v) = true ∧ FitsUnder b pattern args := by
  constructor
  · rintro ⟨hf, hb⟩
    obtain ⟨hv, hf⟩ := (fits_literal_cons he).1 hf
    exact ⟨hv, hf, fun n w hn => (repeats_cons.1 (hb n w hn)).2⟩
  · rintro ⟨hv, hf, hb⟩
    exact ⟨(fits_literal_cons he).2 ⟨hv, hf⟩,
      fun n w hn => repeats_cons.2 ⟨fun h => absurd h (he n), hb n w hn⟩⟩

/-- At further places of a variable that is bound, the argument is compared with what it is
    bound to, and so equals the arguments at all others. -/
theorem fitsUnder_bound_cons (h : b.get? n = some w) :
    FitsUnder b (.atom n :: pattern) (v :: args) ↔
      (w == v) = true ∧ FitsUnder b pattern args := by
  constructor
  · rintro ⟨hf, hb⟩
    exact ⟨(repeats_cons.1 (hb n w h)).1 rfl, (fits_atom_cons.1 hf).1,
      fun m u hm => (repeats_cons.1 (hb m u hm)).2⟩
  · rintro ⟨hv, hf, hb⟩
    refine ⟨fits_atom_cons.2 ⟨hf, (hb n w h).of_beq hv⟩,
      fun m u hm => repeats_cons.2 ⟨fun he => ?_, hb m u hm⟩⟩
    obtain rfl := Value.atom.inj he
    obtain rfl := Option.some.inj (h.symm.trans hm)
    exact hv

theorem fitsUnder_free_cons (h : b.get? n = none) :
    FitsUnder b (.atom n :: pattern) (v :: args) ↔ FitsUnder (b.insert n v) pattern args := by
  constructor
  · rintro ⟨hf, hb⟩
    obtain ⟨hf, hn⟩ := fits_atom_cons.1 hf
    exact ⟨hf, Dictionary.forall_get?_insert (fun m u hm => (repeats_cons.1 (hb m u hm)).2) hn⟩
  · rintro ⟨hf, hb⟩
    have hn : Repeats n v pattern args := hb n v (by rw [Dictionary.get?_insert, if_pos rfl])
    refine ⟨fits_atom_cons.2 ⟨hf, hn⟩, fun m u hm => repeats_cons.2 ⟨fun he => ?_, ?_⟩⟩
    · obtain rfl := Value.atom.inj he
      rw [h] at hm
      cases hm
    · refine hb m u ?_
      rw [Dictionary.get?_insert, if_neg, hm]
      rintro rfl
      rw [h] at hm
      cases hm

/-- The places of a pattern match if they fit under the bindings so far. -/
theorem matchFrom_fits :
    (∃ b', matchFrom b pattern args = some b') ↔ FitsUnder b pattern args := by
  induction pattern generalizing b args with
  | nil =>
    cases args with
    | nil => simpa [matchFrom] using ⟨⟨rfl, by simp, by simp⟩, fun n v _ => by simp [Repeats]⟩
    | cons v args => simpa [matchFrom] using fun h => absurd h.fits.length (by simp)
  | cons e pattern ih =>
    cases args with
    | nil => simpa [matchFrom] using fun h => absurd h.fits.length (by simp)
    | cons v args =>
      rw [matchFrom]
      -- A literal leaves the bindings as they are, and so does a variable that is bound.
      by_cases he : ∀ n, e ≠ .atom n
      · rw [matchPlace_literal he, fitsUnder_literal_cons he, ← ih]
        split <;> simp_all
      · push Not at he
        obtain ⟨n, rfl⟩ := he
        cases hn : b.get? n with
        | none => rw [matchPlace_free hn, fitsUnder_free_cons hn, ← ih, Option.bind_some]
        | some w =>
          rw [matchPlace_bound hn, fitsUnder_bound_cons hn, ← ih]
          split <;> simp_all

/-- Matching keeps the bindings there are, and binds every other variable to the argument at
    its first place. -/
theorem get?_of_matchFrom (h : matchFrom b pattern args = some b') :
    b'.get? n = some w ↔
      b.get? n = some w ∨ b.get? n = none ∧ IsFirst pattern args n w := by
  induction pattern generalizing b args with
  | nil =>
    cases args with
    | nil =>
      cases h
      simp [IsFirst]
    | cons v args => cases h
  | cons e pattern ih =>
    cases args with
    | nil => cases h
    | cons v args =>
      rw [matchFrom] at h
      obtain ⟨b₁, hb, h⟩ := Option.bind_eq_some_iff.1 h
      rw [ih h, isFirst_cons]
      by_cases he : ∀ n, e ≠ .atom n
      · rw [matchPlace_literal he] at hb
        split at hb
        · cases hb
          simp [he n]
        · cases hb
      · push Not at he
        obtain ⟨m, rfl⟩ := he
        cases hm : b.get? m with
        | none =>
          -- The first place of the variable is this one, if it is asked for.
          rw [matchPlace_free hm] at hb
          cases hb
          rw [Dictionary.get?_insert]
          by_cases hmn : m = n
          · subst hmn
            simp [hm]
          · simp [hmn]
        | some u =>
          rw [matchPlace_bound hm] at hb
          split at hb
          · cases hb
            -- What is bound already is not bound anew.
            have hne : b.get? n = none → m ≠ n := by
              rintro hn rfl
              rw [hn] at hm
              cases hm
            grind
          · cases hb

/-- In a sequence of arguments for all places, the variables are those with a first place. -/
theorem exists_isFirst_iff (h : args.length = pattern.length) :
    (∃ v, IsFirst pattern args n v) ↔ .atom n ∈ pattern := by
  induction pattern generalizing args with
  | nil => simp [IsFirst]
  | cons e pattern ih =>
    cases args with
    | nil => cases h
    | cons v args =>
      have ih := @ih args (by simpa using h)
      simp only [isFirst_cons, exists_or, List.mem_cons, ← ih]
      grind

theorem get?_empty (n : String) : (Dictionary.empty : Bindings).get? n = none := rfl

/-- A pattern matches its arguments if it fits them. -/
theorem exists_match?_iff : (∃ b, match? pattern args = some b) ↔ Fits pattern args :=
  matchFrom_fits.trans
    ⟨FitsUnder.fits, fun h => ⟨h, fun n v hn => by simp [get?_empty] at hn⟩⟩

/-- What a pattern binds is what stands at the first places of its variables. -/
theorem get?_of_match? (h : match? pattern args = some b) :
    b.get? n = some v ↔ IsFirst pattern args n v := by
  simpa [get?_empty] using get?_of_matchFrom (n := n) (w := v) h

/-- The names that a pattern binds are its variables. -/
theorem exists_get?_of_match? (h : match? pattern args = some b) :
    (∃ v, b.get? n = some v) ↔ .atom n ∈ pattern := by
  simp only [get?_of_match? h]
  exact exists_isFirst_iff (exists_match?_iff.1 ⟨b, h⟩).length

/-- What a pattern binds is among its arguments. -/
theorem mem_of_match? (h : match? pattern args = some b) (hn : b.get? n = some v) : v ∈ args := by
  obtain ⟨i, -, ha, -⟩ := (get?_of_match? h).1 hn
  exact List.mem_of_getElem? ha

/-- A pattern matches exactly if it fits. Its variables, the atoms that are elements of it,
    are then bound to the arguments at their first places, and no other name is bound. -/
theorem match?_exact (pattern args : List Value) :
    ((∃ b, match? pattern args = some b) ↔ Fits pattern args) ∧
    ∀ b, match? pattern args = some b →
      (∀ n, (∃ v, b.get? n = some v) ↔ .atom n ∈ pattern) ∧
      ∀ n v, b.get? n = some v ↔ IsFirst pattern args n v := by
  refine ⟨exists_match?_iff, fun b hb => ⟨fun n => ?_, fun n v => ?_⟩⟩
  · exact exists_get?_of_match? hb
  · exact get?_of_match? hb

/-- A variable that stands twice takes no value that differs from itself. -/
example : (match? [.atom "x", .atom "x"] [.num (0 / 0), .num (0 / 0)]).isSome = false := by
  decide

end Pattern

end Catena
