import Catena.Numeral.Shortest
import Catena.Proofs.Double.Rounding

/-!
# Decimals and doubles

A decimal is turned into a double in one of two ways. If its digits and its power of ten are
doubles themselves, they are multiplied or divided, which rounds once. Else they are
multiplied or divided as natural numbers, unless the result is known to be zero or infinite.

* `toFloat_eq`: either way gives the nearest double, so that decimals of one value are the
  same double (`toFloat_congr`);
* `toFloat_shortest`: the shortest decimal of a double is that double again.
-/

namespace Catena.Double

open Float.Model (UnpackedFloat totalExponent)
open Float.Model.UnpackedFloat
open Float.Model.Format (binary64)

/-! ### Operations on parts -/

section Parts

variable {m m' : Nat} {e e' : Int} {hm : 0 < m} {hm' : 0 < m'}

/-- A product is rounded once, if there are enough digits. -/
theorem mul_eq_nearest (h : 2 ^ 52 ≤ m * m') :
    mul binary64 (.finite .positive m e hm) (.finite .positive m' e' hm') =
      nearest (m * 2 ^ e * (m' * 2 ^ e')) := by
  have hp : 0 < m * m' := Nat.mul_pos hm hm'
  have hx : (m : ℚ) * 2 ^ e * (m' * 2 ^ e') = (m * m' : Nat) * 2 ^ (e + e') := by
    rw [zpow_add₀ (by norm_num)]
    push_cast
    ring
  have hl : 52 ≤ (m * m').log2 := (Nat.le_log2 hp.ne').2 h
  rw [mul, hx]
  refine roundWithAccuracy_eq (by positivity) ?_ ?_
  · rw [exponent_eq, log_mul_zpow hp]
    omega
  · rw [ofMantissaAndAccuracy_exact, mul_div_cancel_right₀ _ (by positivity)]

/-- The bits that a quotient has in front of the point, up to one. -/
theorem le_log_div (hm : 0 < m) (hm' : 0 < m') (e e' : Int) :
    m.log2 + e - (m'.log2 + e') - 1 ≤ Int.log 2 ((m : ℚ) * 2 ^ e / (m' * 2 ^ e')) := by
  have h : (2 : ℚ) ^ m.log2 ≤ m := by exact_mod_cast Nat.log2_self_le hm.ne'
  have h' : (m' : ℚ) ≤ 2 ^ (m'.log2 + 1) := by exact_mod_cast Nat.lt_log2_self.le
  refine (Int.zpow_le_iff_le_log (by decide) (by positivity)).1 ?_
  rw [le_div_iff₀ (by positivity)]
  calc ((2 : Nat) : ℚ) ^ (m.log2 + e - (m'.log2 + e') - 1) * (m' * 2 ^ e')
      ≤ 2 ^ (m.log2 + e - (m'.log2 + e') - 1) * (2 ^ (m'.log2 + 1) * 2 ^ e') := by
        push_cast
        gcongr
    _ = 2 ^ m.log2 * 2 ^ e := by
        rw [← zpow_natCast, ← zpow_natCast, ← zpow_add₀ (by norm_num), ← zpow_add₀ (by norm_num),
          ← zpow_add₀ (by norm_num)]
        congr 1
        push_cast
        ring
    _ ≤ m * 2 ^ e := by gcongr

/-- A quotient is rounded once. -/
theorem div_eq_nearest :
    div binary64 (.finite .positive m e hm) (.finite .positive m' e' hm') =
      nearest (m * 2 ^ e / (m' * 2 ^ e')) := by
  have hl := le_log_div hm hm' e e'
  rw [div]
  simp only [divCore]
  generalize ht : min (e - e') (binary64.targetExponent
    (totalExponent m e - totalExponent m' e')) = t
  rw [targetExponent_eq, totalExponent, totalExponent] at ht
  refine roundWithAccuracy_eq (by positivity) ?_ ?_
  · rw [exponent_eq]
    omega
  · -- The dividend is shifted as far as the exponent is below that of the quotient.
    obtain ⟨k, hk⟩ := Int.eq_ofNat_of_zero_le (by omega : 0 ≤ e - e' - t)
    obtain rfl : e = e' + t + k := by omega
    rw [ofMantissaAndAccuracy_div hm', hk, Int.toNat_natCast, Nat.shiftLeft_eq]
    congr 1
    rw [zpow_add₀ (by norm_num), zpow_add₀ (by norm_num), zpow_natCast]
    push_cast
    field_simp

/-- A natural number times a power of two is rounded once. -/
theorem round_eq_nearest (hm : 0 < m) :
    UnpackedFloat.round binary64 .positive m e = nearest (m * 2 ^ e) := by
  have he : binary64.targetExponent (totalExponent m e) = exponent (m * 2 ^ e) := by
    rw [exponent, log_mul_zpow hm, totalExponent]
    congr 1
    omega
  rw [UnpackedFloat.round, he, decreaseExponent]
  generalize hk : (e - exponent (m * 2 ^ e)).toNat = k
  refine roundWithAccuracy_eq (by positivity) (by omega) ?_
  rw [ofMantissaAndAccuracy_exact, Nat.shiftLeft_eq, zpow_sub₀ (by norm_num), zpow_natCast]
  congr 1
  push_cast
  field_simp

end Parts

/-! ### Operations on doubles -/

/-- The powers of ten that are doubles, in a table. -/
theorem powerOfTen_eq : ∀ i : Fin Float.exactlyRepresentablePowersOfTen.size,
    Float.exactlyRepresentablePowersOfTen[i] =
      ofParts (.finite .positive (5 ^ i.val * 2 ^ (52 - (5 ^ i.val).log2))
        (i.val - (52 - (5 ^ i.val).log2 : Nat))
        (Nat.mul_pos (Nat.pow_pos (by decide)) (Nat.two_pow_pos _))) := by
  decide +kernel

section Doubles

variable {x y : Float} {m m' : Nat} {e e' : Int} {hm : 0 < m} {hm' : 0 < m'}

/-- A number of at most 53 bits has canonical parts with all of them. -/
theorem exists_canonical (hm : 0 < m) (h : m < 2 ^ 53) (h₀ : -1022 ≤ e) (h₁ : e ≤ 971) :
    Canonical (m * 2 ^ (52 - m.log2)) (e - (52 - m.log2 : Nat)) ∧
      2 ^ 52 ≤ m * 2 ^ (52 - m.log2) ∧
      ((m * 2 ^ (52 - m.log2) : Nat) : ℚ) * 2 ^ (e - (52 - m.log2 : Nat)) = m * 2 ^ e := by
  have hl := (Nat.log2_lt hm.ne').2 h
  obtain ⟨k, hk⟩ : ∃ k, k = 52 - m.log2 := ⟨_, rfl⟩
  have h₂ : 2 ^ 52 ≤ m * 2 ^ k := by
    calc 2 ^ 52 = 2 ^ m.log2 * 2 ^ k := by rw [← pow_add]; congr 1; omega
      _ ≤ m * 2 ^ k := Nat.mul_le_mul_right _ (Nat.log2_self_le hm.ne')
  have h₃ : m * 2 ^ k < 2 ^ 53 := by
    calc m * 2 ^ k < 2 ^ (m.log2 + 1) * 2 ^ k :=
          Nat.mul_lt_mul_of_pos_right Nat.lt_log2_self (Nat.two_pow_pos k)
      _ = 2 ^ 53 := by rw [← pow_add]; congr 1; omega
  rw [← hk]
  refine ⟨⟨h₃, by omega, by omega, .inl h₂⟩, h₂, ?_⟩
  rw [zpow_sub₀ (by norm_num), zpow_natCast]
  push_cast
  field_simp

/-- A positive double with a mantissa of 53 bits, and its value. -/
def IsNormal (x : Float) (v : ℚ) : Prop :=
  ∃ (m : Nat) (e : Int) (hm : 0 < m),
    2 ^ 52 ≤ m ∧ (m : ℚ) * 2 ^ e = v ∧ parts x = .finite .positive m e hm

theorem IsNormal.mul {v w : ℚ} (hx : IsNormal x v) (hy : IsNormal y w) :
    x * y = ofParts (nearest (v * w)) := by
  obtain ⟨m, e, hm, hn, rfl, hx⟩ := hx
  obtain ⟨m', e', hm', -, rfl, hy⟩ := hy
  change ofParts (UnpackedFloat.mul binary64 (parts x) (parts y)) = _
  rw [hx, hy, mul_eq_nearest (hn.trans (Nat.le_mul_of_pos_right _ hm'))]

theorem IsNormal.div {v w : ℚ} (hx : IsNormal x v) (hy : IsNormal y w) :
    x / y = ofParts (nearest (v / w)) := by
  obtain ⟨m, e, hm, -, rfl, hx⟩ := hx
  obtain ⟨m', e', hm', -, rfl, hy⟩ := hy
  change ofParts (UnpackedFloat.div binary64 (parts x) (parts y)) = _
  rw [hx, hy, div_eq_nearest]

theorem IsNormal.zero_mul {v : ℚ} (hx : IsNormal x v) (hy : parts y = .zero .positive) :
    y * x = ofParts (.zero .positive) := by
  obtain ⟨m, e, hm, -, -, hx⟩ := hx
  change ofParts (UnpackedFloat.mul binary64 (parts y) (parts x)) = _
  rw [hx, hy]
  rfl

theorem IsNormal.zero_div {v : ℚ} (hx : IsNormal x v) (hy : parts y = .zero .positive) :
    y / x = ofParts (.zero .positive) := by
  obtain ⟨m, e, hm, -, -, hx⟩ := hx
  change ofParts (UnpackedFloat.div binary64 (parts y) (parts x)) = _
  rw [hx, hy]
  rfl

/-- A natural number of at most 53 bits is turned into a double as it is. -/
theorem isNormal_toFloat (hm : 0 < m) (h : m < 2 ^ 53) : IsNormal m.toUInt64.toFloat m := by
  obtain ⟨hc, hn, hv⟩ := exists_canonical (e := 0) hm h (by decide) (by decide)
  have hu : m.toUInt64.toNat = m := Nat.mod_eq_of_lt (by omega)
  rw [zpow_zero, mul_one] at hv
  refine ⟨_, _, by positivity, hn, hv, ?_⟩
  rw [← parts_ofParts hc, ← nearest_eq hc, hv]
  congr 1
  change ofParts (UnpackedFloat.normalize binary64 (m.toUInt64.toNat : Nat) 0 .positive) = _
  rw [hu, UnpackedFloat.normalize, Int.compare_eq_gt.2 (by omega)]
  simp only [Int.toNat_natCast]
  rw [round_eq_nearest hm, zpow_zero, mul_one]

theorem isNormal_powerOfTen {k : Nat} (h : k < Float.exactlyRepresentablePowersOfTen.size) :
    IsNormal Float.exactlyRepresentablePowersOfTen[k] (10 ^ k) := by
  have hk : k < 23 := h
  have h₅ : 5 ^ k < 2 ^ 53 :=
    (Nat.pow_le_pow_right (by decide) (Nat.le_of_lt_succ hk)).trans_lt (by norm_num)
  obtain ⟨hc, hn, hv⟩ := exists_canonical (e := k) (by positivity) h₅ (by omega) (by omega)
  refine ⟨_, _, by positivity, hn, hv.trans ?_, ?_⟩
  · rw [zpow_natCast, Nat.cast_pow, ← mul_pow]
    norm_num
  · exact (congrArg parts (powerOfTen_eq ⟨k, h⟩)).trans (parts_ofParts hc)

/-- A high power of ten is beyond the doubles, with any digits. -/
theorem two_zpow_le_mul_ten_zpow (hm : 0 < m) (h : 1024 ≤ e) :
    (2 : ℚ) ^ (1024 : Int) ≤ m * 10 ^ e := by
  obtain ⟨k, rfl⟩ := Int.eq_ofNat_of_zero_le (by omega : 0 ≤ e)
  have hk : 2 ^ k ≤ m * 10 ^ k :=
    (Nat.pow_le_pow_left (by decide) k).trans (Nat.le_mul_of_pos_left _ hm)
  calc (2 : ℚ) ^ (1024 : Int) ≤ 2 ^ (k : Int) := zpow_le_zpow_right₀ (by norm_num) (by omega)
    _ ≤ m * 10 ^ (k : Int) := by exact_mod_cast hk

/-- The digits cannot make up for a low power of ten. -/
theorem mul_ten_zpow_lt (h : e ≤ -(1076 + m.log2)) : (m : ℚ) * 10 ^ e < 2 ^ (-1075 : Int) := by
  obtain ⟨k, hk⟩ := Int.eq_ofNat_of_zero_le (by omega : 0 ≤ -e)
  obtain rfl : e = -(k : Int) := by omega
  have hlog : (m : ℚ) < 2 ^ (m.log2 + 1) := by exact_mod_cast Nat.lt_log2_self
  calc (m : ℚ) * 10 ^ (-(k : Int)) = m / 10 ^ k := by
        rw [zpow_neg, zpow_natCast, div_eq_mul_inv]
    _ < 2 ^ (m.log2 + 1) / 2 ^ k := by
        gcongr
        norm_num
    _ = 2 ^ ((m.log2 + 1 : Nat) - k : Int) := by
        rw [zpow_sub₀ (by norm_num), zpow_natCast, zpow_natCast]
    _ ≤ 2 ^ (-1075 : Int) := zpow_le_zpow_right₀ (by norm_num) (by omega)

/-- Multiplied or divided as natural numbers, the digits and the power of ten are rounded
    once. -/
theorem ofParts_ofScientific (hm : 0 < m) :
    ofParts (UnpackedFloat.ofScientific binary64 m e) = ofParts (nearest (m * 10 ^ e)) := by
  rw [UnpackedFloat.ofScientific, dif_neg hm.ne']
  split
  · rename_i h
    have he : 1024 ≤ e := Int.le_trans (by decide) (Int.le_of_lt (show 2048 < e from h))
    exact toModel_injective (pack_nearest_of_le (two_zpow_le_mul_ten_zpow hm he)).symm
  split
  · rename_i h
    have he : e < -(2048 + m.log2) := h
    rw [nearest_of_lt (by positivity) (mul_ten_zpow_lt (by omega))]
  split
  · rename_i h
    obtain ⟨k, rfl⟩ := Int.eq_ofNat_of_zero_le h
    have hb : binary64.mantissaBits = 53 := rfl
    have hm' : 2 ^ 52 ≤ m <<< 53 * 10 ^ k := by
      rw [Nat.shiftLeft_eq]
      have : 0 < 10 ^ k := by positivity
      nlinarith
    simp only [hb, Int.toNat_natCast]
    rw [mul_eq_nearest hm', Nat.shiftLeft_eq]
    congr 2
    rw [zpow_neg, zpow_natCast, zpow_natCast, zpow_zero]
    push_cast
    field_simp
    norm_num
  · rename_i h
    obtain ⟨k, hk⟩ := Int.eq_ofNat_of_zero_le (by omega : 0 ≤ -e)
    obtain rfl : e = -(k : Int) := by omega
    simp only [neg_neg, Int.toNat_natCast]
    rw [div_eq_nearest]
    congr 2
    rw [zpow_neg, zpow_natCast, zpow_zero]
    push_cast
    field_simp

theorem ofScientific_eq (hm : 0 < m) {s : Bool} {k : Nat} :
    Float.ofScientific m s k =
      ofParts (nearest (m * 10 ^ (if s then Int.negOfNat k else Int.ofNat k))) := by
  rw [Float.ofScientific]
  split
  · rename_i h
    have hk := isNormal_powerOfTen (Nat.lt_succ_of_le h.2 : k < 23)
    have hx := isNormal_toFloat hm h.1
    cases s with
    | true =>
      refine (hx.div hk).trans ?_
      rw [if_pos rfl, Int.negOfNat_eq, zpow_neg, ← div_eq_mul_inv]
      rfl
    | false => exact hx.mul hk
  · exact ofParts_ofScientific hm

end Doubles

end Catena.Double

/-! ### Decimals -/

namespace Catena.Decimal

open Double (parts ofParts nearest Canonical)

/-- The number that a decimal is. -/
def value (d : Decimal) : ℚ := d.digits * 10 ^ d.exponent

section

variable {d d' : Decimal} {x : Float} {m : Nat} {e : Int} {hm : 0 < m}

theorem value_pos_iff : 0 < d.value ↔ 0 < d.digits := by
  rw [value, mul_pos_iff_of_pos_right (by positivity), Nat.cast_pos]

/-- A decimal is the double nearest to it. -/
theorem toFloat_eq (h : 0 < d.digits) : d.toFloat = ofParts (nearest d.value) := by
  have he : (if (decide (d.exponent < 0)) = true then Int.negOfNat d.exponent.natAbs
      else Int.ofNat d.exponent.natAbs) = d.exponent := by
    simp only [Int.negOfNat_eq, Int.ofNat_eq_natCast, decide_eq_true_eq]
    split <;> omega
  rw [toFloat, Double.ofScientific_eq h, he, value]

/-- Without digits other than zero, a decimal is the positive zero. -/
theorem toFloat_of_digits_eq_zero (h : d.digits = 0) : d.toFloat = ofParts (.zero .positive) := by
  rw [toFloat, h, Float.ofScientific]
  split
  · rename_i hk
    have hx := Double.isNormal_powerOfTen (Nat.lt_succ_of_le hk.2)
    have h₀ : parts (Nat.toUInt64 0).toFloat = .zero .positive := Double.parts_ofParts_zero
    split
    · exact hx.zero_div h₀
    · exact hx.zero_mul h₀
  · rfl

/-- Decimals of one value are one double. -/
theorem toFloat_congr (h : d.value = d'.value) : d.toFloat = d'.toFloat := by
  have hp : 0 < d.digits ↔ 0 < d'.digits := by rw [← value_pos_iff, h, value_pos_iff]
  by_cases h₀ : 0 < d.digits
  · rw [toFloat_eq h₀, h, toFloat_eq (hp.1 h₀)]
  · rw [toFloat_of_digits_eq_zero (by omega), toFloat_of_digits_eq_zero (by omega)]

theorem value_exact : (exact m e).value = m * 2 ^ e := by
  rw [exact, value]
  obtain ⟨k, rfl | rfl⟩ := e.eq_nat_or_neg
  · simp
  · have h : (10 : ℚ) ^ k = 2 ^ k * 5 ^ k := by
      rw [← mul_pow]
      norm_num
    simp [h]
    field_simp

/-- The exact decimal of a double is that double. -/
theorem toFloat_exact (h : Canonical m e) (hm : 0 < m) :
    (exact m e).toFloat = ofParts (.finite .positive m e hm) := by
  have hv := value_exact (m := m) (e := e)
  have hd : 0 < (exact m e).digits := by
    rw [← value_pos_iff, hv]
    positivity
  rw [toFloat_eq hd, hv, Double.nearest_eq h]

/-- The shortest decimal of a double is that double. -/
theorem toFloat_shortest (hx : parts x = .finite .positive m e hm) :
    (shortest x m e).toFloat = x := by
  have hx' : ofParts (.finite .positive m e hm) = x := by
    rw [← hx]
    exact Double.ofParts_parts (by rw [Float.isFinite, Float.Model.isFinite, ← parts, hx]; rfl)
  simp only [shortest]
  generalize hs : List.findSome? _ _ = r
  cases r with
  | some d =>
    obtain ⟨i, -, hi⟩ := List.exists_of_findSome?_eq_some hs
    exact toFloat_onGrid hi
  | none =>
    exact (toFloat_exact (Double.canonical_of_parts hx) hm).trans hx'

end

end Catena.Decimal
