import Catena.Proofs.Double.Packing

/-!
# Rounding to doubles

Arithmetic on doubles is exact up to a mantissa with two more bits, the *round bit* and the
*sticky bit*, and then rounds. The mantissa with its two bits is what is left of the exact
result when it is cut off behind the binary point (`truncate`); which place the point has,
is decided by the result alone (`exponent`). So the double that is computed is a function
of the rational number which the exact result is (`nearest`), whatever way led to it.

* `roundWithAccuracy_eq`: rounding gives `nearest` of the number that has been cut off;
* `nearest_eq`: a number that is a double is its own nearest one;
* `nearest_of_lt`, `pack_nearest_of_le`: the numbers that are rounded to zero and to infinity.
-/

namespace Catena.Double

open Float.Model (UnpackedFloat totalExponent)
open Float.Model.UnpackedFloat
open Float.Model.Format (binary64)

/-! ### Cutting off -/

/-- What is in front of the point of a number, the first bit behind the point, and whether
    there is any bit after that. -/
def truncate (y : ℚ) : ExtendedMantissa where
  mantissa := ⌊y⌋₊
  roundBit := decide (1 / 2 ≤ y - ⌊y⌋₊)
  stickyBit := decide (y - ⌊y⌋₊ ≠ 0 ∧ y - ⌊y⌋₊ ≠ 1 / 2)

section Truncate

variable {y : ℚ} {m num den : Nat}

theorem truncate_natCast : truncate m = ⟨m, false, false⟩ := by
  simp [truncate]

/-- A fraction `f` is cut off behind the natural number `m`. -/
theorem truncate_add {f : ℚ} (h₀ : 0 ≤ f) (h₁ : f < 1) :
    truncate (m + f) = ⟨m, decide (1 / 2 ≤ f), decide (f ≠ 0 ∧ f ≠ 1 / 2)⟩ := by
  have hm : ⌊(m : ℚ) + f⌋₊ = m := by
    rw [Nat.floor_eq_iff (by positivity)]
    exact ⟨by linarith, by linarith⟩
  simp [truncate, hm]

/-- Every number is a natural number and a fraction. -/
theorem exists_eq_add (hy : 0 ≤ y) : ∃ (m : Nat) (f : ℚ), 0 ≤ f ∧ f < 1 ∧ y = m + f :=
  ⟨⌊y⌋₊, y - ⌊y⌋₊, by linarith [Nat.floor_le hy], by linarith [Nat.lt_floor_add_one y], by ring⟩

/-- To shift by one place is to divide by two. -/
theorem shiftRightOne_truncate (hy : 0 ≤ y) :
    (truncate y).shiftRightOne = truncate (y / 2) := by
  obtain ⟨m, f, h₀, h₁, rfl⟩ := exists_eq_add hy
  -- The last bit in front of the point comes to stand behind it.
  obtain ⟨g, hf, hg⟩ : ∃ g : ℚ, ((m : ℚ) + f) / 2 = (m / 2 : Nat) + g ∧
      (m % 2 = 0 ∧ g = f / 2 ∨ m % 2 = 1 ∧ g = (1 + f) / 2) := by
    have hm : (m : ℚ) = 2 * (m / 2 : Nat) + (m % 2 : Nat) := by
      exact_mod_cast (Nat.div_add_mod m 2).symm
    refine ⟨((m % 2 : Nat) + f) / 2, by rw [hm]; ring, ?_⟩
    rcases Nat.mod_two_eq_zero_or_one m with h | h <;> simp [h]
  have hb : 1 / 2 ≤ g ↔ m % 2 = 1 := by grind
  have hs : g ≠ 0 ∧ g ≠ 1 / 2 ↔ 1 / 2 ≤ f ∨ f ≠ 0 ∧ f ≠ 1 / 2 := by grind
  rw [truncate_add h₀ h₁, hf, truncate_add (by grind) (by grind),
    ExtendedMantissa.shiftRightOne]
  simp only [hb, hs, Bool.decide_or]
  rcases hg with h | h <;> simp [h.1]

theorem shiftRight_truncate (hy : 0 ≤ y) (n : Nat) :
    truncate y >>> n = truncate (y / 2 ^ n) := by
  change n.repeat ExtendedMantissa.shiftRightOne (truncate y) = _
  induction n with
  | zero => simp [Nat.repeat]
  | succ n ih =>
    rw [Nat.repeat, ih, shiftRightOne_truncate (by positivity), pow_succ, div_mul_eq_div_div]

theorem ofMantissaAndAccuracy_exact :
    ExtendedMantissa.ofMantissaAndAccuracy m .exact = truncate m :=
  truncate_natCast.symm

/-- A quotient is cut off behind its whole part, and the remainder says what is cut off. -/
theorem ofMantissaAndAccuracy_div (hd : 0 < den) :
    ExtendedMantissa.ofMantissaAndAccuracy (num / den) (accuracyOfFraction (num % den) den) =
      truncate (num / den) := by
  have hd' : (0 : ℚ) < den := by exact_mod_cast hd
  have hr : ((num % den : Nat) : ℚ) < den := by exact_mod_cast Nat.mod_lt num hd
  have hq : (num : ℚ) / den = (num / den : Nat) + (num % den : Nat) / den := by
    rw [div_eq_iff hd'.ne', add_mul, div_mul_cancel₀ _ hd'.ne']
    exact_mod_cast (Nat.div_add_mod' num den).symm
  rw [hq, truncate_add (by positivity) ((div_lt_one hd').2 hr), accuracyOfFraction]
  generalize num % den = r
  obtain ⟨f, hf⟩ : ∃ f : ℚ, (r : ℚ) / den = f := ⟨_, rfl⟩
  have hr : (r : ℚ) = f * den := by rw [← hf, div_mul_cancel₀ _ hd'.ne']
  rw [hf]
  split
  · rename_i h
    obtain rfl : f = 0 := by simp [← hf, h]
    simp [ExtendedMantissa.ofMantissaAndAccuracy]
  · rename_i h
    have h₀ : f ≠ 0 := fun h₀ => h (by simpa [h₀] using hr)
    cases hc : compare (2 * r) den with
    | lt =>
      have hc : (2 * r : ℚ) < den := by exact_mod_cast Nat.compare_eq_lt.1 hc
      have : f < 1 / 2 := by nlinarith
      rw [decide_eq_false this.not_ge, decide_eq_true ⟨h₀, this.ne⟩]
      rfl
    | eq =>
      have hc : (2 * r : ℚ) = den := by exact_mod_cast Nat.compare_eq_eq.1 hc
      obtain rfl : f = 1 / 2 := by nlinarith
      simp [ExtendedMantissa.ofMantissaAndAccuracy]
    | gt =>
      have hc : (den : ℚ) < 2 * r := by exact_mod_cast Nat.compare_eq_gt.1 hc
      have : 1 / 2 < f := by nlinarith
      rw [decide_eq_true this.le, decide_eq_true ⟨h₀, this.ne'⟩]
      rfl

end Truncate

/-! ### The place of the point -/

/-- The exponent of a positive number: with it the number has 53 bits in front of the point,
    or less with the least exponent. -/
def exponent (x : ℚ) : Int := binary64.targetExponent (Int.log 2 x + 1)

section Exponent

variable {x : ℚ} {m : Nat} {e : Int} {acc : Accuracy}

theorem targetExponent_eq : binary64.targetExponent e = max (e - 53) (-1074) := rfl

theorem exponent_eq : exponent x = max (Int.log 2 x - 52) (-1074) := by
  rw [exponent, targetExponent_eq]
  congr 1
  omega

theorem log_div_zpow (hx : 0 < x) : Int.log 2 (x / 2 ^ e) = Int.log 2 x - e := by
  refine eq_of_forall_le_iff fun k => ?_
  rw [← Int.zpow_le_iff_le_log (by decide) (by positivity), le_sub_iff_add_le,
    ← Int.zpow_le_iff_le_log (by decide) hx]
  push_cast
  rw [le_div_iff₀ (by positivity), zpow_add₀ (by norm_num)]

theorem log2_floor (hx : 0 < x) (h : 1 ≤ x / 2 ^ e) :
    ((⌊x / 2 ^ e⌋₊.log2 : Nat) : Int) = Int.log 2 x - e := by
  rw [← log_div_zpow hx, Int.log_of_one_le_right _ h, Nat.log2_eq_log_two]

/-- What is in front of the point is enough to find the exponent, if there are not too few
    places. -/
theorem targetExponent_floor (hx : 0 < x) (he : e ≤ exponent x) :
    binary64.targetExponent (totalExponent ⌊x / 2 ^ e⌋₊ e) = exponent x := by
  rw [exponent_eq] at he ⊢
  rw [targetExponent_eq, totalExponent]
  by_cases h : 1 ≤ x / 2 ^ e
  · rw [log2_floor hx h]
    congr 1
    omega
  · -- Nothing is in front of the point: this is so with the least exponent only.
    have hl : Int.log 2 x < e := by
      rw [← Int.lt_zpow_iff_log_lt (by decide) hx]
      simpa [div_lt_one (show (0 : ℚ) < 2 ^ e by positivity)] using h
    rw [Nat.floor_eq_zero.2 (not_le.1 h), Nat.log2_zero]
    omega

end Exponent

/-! ### Rounding -/

/-- The parts of a rounded mantissa: one that got too long by rounding is shifted. -/
def ofMantissa (m : Nat) (e : Int) : UnpackedFloat :=
  let r := shiftToTargetExponent binary64 m e .exact
  if h : r.1.mantissa = 0 then .zero .positive
  else .finite .positive r.1.mantissa r.2 (Nat.pos_of_ne_zero h)

/-- The parts of the double nearest to a positive number: it is cut off at its exponent and
    rounded, to even if it is half way between two. With a large exponent these are no parts
    of a double. -/
def nearest (x : ℚ) : UnpackedFloat :=
  ofMantissa (truncate (x / 2 ^ exponent x)).roundedMantissa (exponent x)

section Nearest

variable {x : ℚ} {m : Nat} {e t : Int} {acc : Accuracy} {hm : 0 < m}

theorem mantissa_ofMantissaAndAccuracy (m : Nat) (acc : Accuracy) :
    (ExtendedMantissa.ofMantissaAndAccuracy m acc).mantissa = m := by
  rcases acc with _ | (_ | _ | _) <;> rfl

/-- To shift to an exponent is to cut off there. -/
theorem shiftToExponent_eq (hx : 0 ≤ x) (he : e ≤ t)
    (h : ExtendedMantissa.ofMantissaAndAccuracy m acc = truncate (x / 2 ^ e)) :
    shiftToExponent m e acc t = (truncate (x / 2 ^ t), t) := by
  obtain ⟨k, rfl⟩ := Int.le.dest he
  have hk : (e + (k : Int) - e).toNat = k := by omega
  rw [shiftToExponent, h, hk, shiftRight_truncate (by positivity), div_div,
    zpow_add₀ (by norm_num), zpow_natCast]

/-- Rounding depends only on the number that has been cut off. -/
theorem roundWithAccuracy_eq (hx : 0 < x) (he : e ≤ exponent x)
    (h : ExtendedMantissa.ofMantissaAndAccuracy m acc = truncate (x / 2 ^ e)) :
    roundWithAccuracy binary64 .positive m e acc = nearest x := by
  have hm : m = ⌊x / 2 ^ e⌋₊ := by
    rw [← mantissa_ofMantissaAndAccuracy m acc, h, truncate]
  have hs : shiftToTargetExponent binary64 m e acc =
      (truncate (x / 2 ^ exponent x), exponent x) := by
    rw [shiftToTargetExponent, hm, targetExponent_floor hx he, ← hm]
    exact shiftToExponent_eq hx.le he h
  rw [roundWithAccuracy, hs]
  rfl

theorem log_mul_zpow (hm : 0 < m) : Int.log 2 ((m : ℚ) * 2 ^ e) = m.log2 + e := by
  have h := log_div_zpow (x := m * 2 ^ e) (e := e) (by positivity)
  rw [mul_div_cancel_right₀ _ (by positivity), Int.log_natCast, ← Nat.log2_eq_log_two] at h
  omega

theorem exponent_mul_zpow (h : Canonical m e) (hm : 0 < m) : exponent (m * 2 ^ e) = e := by
  have := h.min_le
  rw [exponent_eq, log_mul_zpow hm]
  by_cases hn : 2 ^ 52 ≤ m
  · rw [log2_eq_of_normal hn h.lt]
    omega
  · have := (Nat.log2_lt hm.ne').2 (not_le.1 hn)
    have := h.normal.resolve_left hn
    omega

theorem shiftToTargetExponent_exact :
    ∃ k : Nat, (k : Int) = max (max ((m.log2 : Int) - 52) (-1074 - e)) 0 ∧
      shiftToTargetExponent binary64 m e .exact = (truncate (m / 2 ^ k), e + k) := by
  refine ⟨(binary64.targetExponent (totalExponent m e) - e).toNat, ?_, ?_⟩
  · rw [targetExponent_eq, totalExponent]
    omega
  · rw [shiftToTargetExponent, shiftToExponent, ofMantissaAndAccuracy_exact,
      shiftRight_truncate (by positivity)]

theorem ofMantissa_zero : ofMantissa 0 e = .zero .positive := by
  obtain ⟨k, -, hs⟩ := shiftToTargetExponent_exact (m := 0) (e := e)
  simp [ofMantissa, hs, truncate]

theorem ofMantissa_of_canonical (h : Canonical m e) :
    ofMantissa m e = .finite .positive m e hm := by
  obtain ⟨k, hk, hs⟩ := shiftToTargetExponent_exact (m := m) (e := e)
  have := (Nat.log2_lt hm.ne').2 h.lt
  have := h.min_le
  obtain rfl : k = 0 := by omega
  simp [ofMantissa, hs, truncate, hm.ne']

theorem pack_ofMantissa (h : 972 ≤ e) (hm : 0 < m) :
    pack binary64 (ofMantissa m e) = packedInfinity binary64 .positive := by
  obtain ⟨k, hk, hs⟩ := shiftToTargetExponent_exact (m := m) (e := e)
  -- The mantissa is shifted by less places than it has.
  have hp : 2 ^ k ≤ m :=
    (Nat.pow_le_pow_right (by decide) (by omega)).trans (Nat.log2_self_le hm.ne')
  have h₀ : (truncate ((m : ℚ) / 2 ^ k)).mantissa ≠ 0 := by
    refine (Nat.floor_pos.2 ?_).ne'
    rw [le_div_iff₀ (by positivity), one_mul]
    exact_mod_cast hp
  rw [ofMantissa]
  simp only [hs, h₀, dite_false]
  exact pack_of_le_exponent (by omega)

/-- The parts of a double are nearest to its own value. -/
theorem nearest_eq (h : Canonical m e) : nearest (m * 2 ^ e) = .finite .positive m e hm := by
  have hx : (m : ℚ) * 2 ^ e / 2 ^ e = m := mul_div_cancel_right₀ _ (by positivity)
  rw [nearest, exponent_mul_zpow h hm, hx, truncate_natCast]
  exact ofMantissa_of_canonical h

/-- A number below half of the least double is rounded to zero. -/
theorem nearest_of_lt (hx : 0 < x) (h : x < 2 ^ (-1075 : Int)) : nearest x = .zero .positive := by
  have hl : Int.log 2 x < -1075 := (Int.lt_zpow_iff_log_lt (by decide) hx).1 h
  have he : exponent x = -1074 := by
    rw [exponent_eq]
    omega
  have hy : x / 2 ^ (-1074 : Int) < 1 / 2 := by
    rw [show (-1075 : Int) = -1 + -1074 by decide, zpow_add₀ (by norm_num), zpow_neg_one] at h
    rw [div_lt_iff₀ (by positivity), one_div]
    exact h
  have hr : (truncate (x / 2 ^ (-1074 : Int))).roundedMantissa = 0 := by
    have ht := truncate_add (m := 0) (f := x / 2 ^ (-1074 : Int)) (by positivity)
      (hy.trans (by norm_num))
    rw [Nat.cast_zero, zero_add, decide_eq_false hy.not_ge] at ht
    rw [ht]
    cases decide (x / 2 ^ (-1074 : Int) ≠ 0 ∧ x / 2 ^ (-1074 : Int) ≠ 1 / 2) <;> rfl
  rw [nearest, he, hr, ofMantissa_zero]

theorem le_roundedMantissa {em : ExtendedMantissa} : em.mantissa ≤ em.roundedMantissa := by
  rcases em with ⟨m, _ | _, _ | _⟩
  · exact le_rfl
  · exact le_rfl
  · exact Nat.le_add_right ..
  · exact Nat.le_add_right ..

/-- A number beyond the doubles is rounded to infinity. -/
theorem pack_nearest_of_le (h : 2 ^ (1024 : Int) ≤ x) :
    pack binary64 (nearest x) = packedInfinity binary64 .positive := by
  have hx : 0 < x := lt_of_lt_of_le (by positivity) h
  have hl : 1024 ≤ Int.log 2 x := (Int.zpow_le_iff_le_log (by decide) hx).1 h
  have he : 972 ≤ exponent x ∧ exponent x ≤ Int.log 2 x := by
    rw [exponent_eq]
    omega
  refine pack_ofMantissa he.1 (lt_of_lt_of_le ?_ le_roundedMantissa)
  rw [truncate, Nat.floor_pos, le_div_iff₀ (by positivity), one_mul]
  exact (Int.zpow_le_iff_le_log (by decide) hx).2 he.2

end Nearest

end Catena.Double
