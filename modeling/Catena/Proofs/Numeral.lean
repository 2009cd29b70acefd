import Catena.Proofs.Double.Decimal
import Catena.Proofs.Token

/-!
# Numbers as they are written

A finite number is written as a numeral of the grammar, and the numeral stands for it: the
zeros that are written to get to the point, and those that are left out behind it, do not
change the value of the decimal, and decimals of one value are one double.

* `exists_text_eq_write`: the numeral of a finite number;
* `isName_write`: the other numbers are written as names.
-/

namespace Catena

open Float.Model.UnpackedFloat (Sign)

namespace Decimal

variable {d : Decimal} {s w f : List Char} {c : Char} {k : Nat}

/-- The value of digits does not change by zeros behind the point. -/
theorem value_ofDigits_append_zeros :
    (ofDigits w (f ++ List.replicate k '0')).value = (ofDigits w f).value := by
  simp only [ofDigits, value, ← List.append_assoc]
  rw [Nat.ofDigitChars_append, Nat.ofDigitChars_replicate_zero, List.length_append,
    List.length_replicate]
  push_cast
  rw [neg_add, zpow_add₀ (by norm_num), zpow_neg _ (k : Int), zpow_natCast]
  field_simp

/-- Only zeros are dropped. -/
theorem exists_eq_dropFinalZeros_append (s : List Char) :
    ∃ k, s = dropFinalZeros s ++ List.replicate k '0' := by
  have hz : ∀ c ∈ s.reverse.takeWhile (· == '0'), c = '0' := fun c hc => by
    simpa using List.mem_takeWhile_imp hc
  refine ⟨(s.reverse.takeWhile (· == '0')).length, ?_⟩
  rw [dropFinalZeros, ← List.reverse_replicate, ← List.eq_replicate_of_mem hz,
    ← List.reverse_append, List.takeWhile_append_dropWhile, List.reverse_reverse]

theorem mem_of_mem_dropFinalZeros (h : c ∈ dropFinalZeros s) : c ∈ s := by
  obtain ⟨k, hk⟩ := exists_eq_dropFinalZeros_append s
  rw [hk]
  exact List.mem_append_left _ h

theorem isDigit_of_mem_zeros (h : c ∈ List.replicate k '0') : c.isDigit = true := by
  rw [List.eq_of_mem_replicate h]
  rfl

theorem isDigit_of_mem_toDigits {n : Nat} (h : c ∈ Nat.toDigits 10 n) : c.isDigit = true :=
  Nat.isDigit_of_mem_toDigits (by decide) (by decide) h

/-- Zeros are written to get to a point behind the last digit. -/
theorem exists_text_eq_write_of_nonneg (h : 0 ≤ d.exponent) :
    ∃ n : Grammar.Numeral, n.negative = false ∧ n.text = d.write ∧
      (ofDigits n.whole n.fraction).value = d.value := by
  obtain ⟨k, hk⟩ := Int.eq_ofNat_of_zero_le h
  refine ⟨⟨false, Nat.toDigits 10 d.digits ++ List.replicate k '0', [], by simp, ?_, nofun⟩,
    rfl, ?_, ?_⟩
  · intro c hc
    exact (List.mem_append.1 hc).elim isDigit_of_mem_toDigits isDigit_of_mem_zeros
  · simp [Grammar.Numeral.text, Grammar.Numeral.sign, Grammar.Numeral.point, write, hk]
  · rw [ofDigits, value, value, hk, List.append_nil, Nat.ofDigitChars_append,
      Nat.ofDigitChars_replicate_zero, Nat.ofDigitChars_ten_toDigits, zpow_natCast]
    push_cast
    rw [List.length_nil, Nat.cast_zero, neg_zero, zpow_zero, mul_one, mul_comm]

/-- The digits of a number, with zeros in front of them so that there are more than `places`. -/
def padded (places digits : Nat) : List Char :=
  List.replicate (places + 1 - (Nat.toDigits 10 digits).length) '0' ++ Nat.toDigits 10 digits

theorem isDigit_of_mem_padded {places digits : Nat} (h : c ∈ padded places digits) :
    c.isDigit = true :=
  (List.mem_append.1 h).elim isDigit_of_mem_zeros isDigit_of_mem_toDigits

theorem lt_length_padded (places digits : Nat) : places < (padded places digits).length := by
  rw [padded, List.length_append, List.length_replicate]
  omega

theorem ofDigitChars_padded (places digits : Nat) :
    Nat.ofDigitChars 10 (padded places digits) 0 = digits := by
  rw [padded, Nat.ofDigitChars_append, Nat.ofDigitChars_replicate_zero, Nat.mul_zero,
    Nat.ofDigitChars_ten_toDigits]

/-- Zeros are written to get to a point in front of the first digit. -/
theorem exists_text_eq_write_of_neg (h : d.exponent < 0) :
    ∃ n : Grammar.Numeral, n.negative = false ∧ n.text = d.write ∧
      (ofDigits n.whole n.fraction).value = d.value := by
  obtain ⟨p, hp⟩ := Int.eq_ofNat_of_zero_le (by omega : 0 ≤ -d.exponent)
  obtain ⟨ds, hds⟩ : ∃ ds, ds = padded p d.digits := ⟨_, rfl⟩
  have hd : ∀ c ∈ ds, c.isDigit = true := fun c hc => isDigit_of_mem_padded (hds ▸ hc)
  have hl : p < ds.length := hds ▸ lt_length_padded p d.digits
  obtain ⟨k, hk⟩ := exists_eq_dropFinalZeros_append (ds.drop (ds.length - p))
  refine ⟨⟨false, ds.take (ds.length - p), dropFinalZeros (ds.drop (ds.length - p)), ?_,
    fun c hc => hd c (List.mem_of_mem_take hc),
    fun c hc => hd c (List.mem_of_mem_drop (mem_of_mem_dropFinalZeros hc))⟩, rfl, ?_, ?_⟩
  · rw [← List.length_pos_iff, List.length_take]
    omega
  · have ha : d.exponent.natAbs = p := by omega
    simp only [Grammar.Numeral.text, Grammar.Numeral.sign, Grammar.Numeral.point, write,
      h.not_ge, ha, ← padded.eq_1, ← hds, Bool.false_eq_true, if_false, List.nil_append,
      List.isEmpty_iff]
    split
    · rw [List.append_nil]
    · rfl
  · -- The zeros that were dropped may as well stand behind the point.
    have hf : ds.length - (ds.length - p) = p := by omega
    have he : -(p : Int) = d.exponent := by omega
    simp only
    rw [← value_ofDigits_append_zeros (k := k), ← hk, ofDigits, value, List.take_append_drop,
      hds, ofDigitChars_padded, ← hds, List.length_drop, hf, he, value]

/-- A decimal is written as a numeral without a sign, of the same value. -/
theorem exists_text_eq_write (d : Decimal) :
    ∃ n : Grammar.Numeral, n.negative = false ∧ n.text = d.write ∧
      (ofDigits n.whole n.fraction).value = d.value := by
  rcases Int.lt_or_le d.exponent 0 with h | h
  · exact exists_text_eq_write_of_neg h
  · exact exists_text_eq_write_of_nonneg h

end Decimal

namespace Numeral

variable {x : Float}

/-- A numeral with a sign in front of it. -/
theorem exists_signed (s : Sign) {n : Grammar.Numeral} (hn : n.negative = false) :
    ∃ n' : Grammar.Numeral, n'.text = sign s ++ n.text ∧
      n'.value = Double.signed s n.value := by
  cases s with
  | positive => exact ⟨n, rfl, rfl⟩
  | negative =>
    refine ⟨{ n with negative := true }, ?_, ?_⟩
    · simp [Grammar.Numeral.text, Grammar.Numeral.sign, Grammar.Numeral.point, sign, hn]
    · simp [Grammar.Numeral.value, Double.signed, hn]

/-- The text of a number, from its parts. -/
theorem write_eq (x : Float) :
    write x = match Double.parts x with
      | .notANumber => ['N', 'a', 'N']
      | .infinity s => sign s ++ ['i', 'n', 'f']
      | .zero s => sign s ++ ['0']
      | .finite s m e _ => sign s ++ (Decimal.shortest x.abs m e).write :=
  rfl

/-- A finite number is written as a numeral that stands for it. -/
theorem exists_text_eq_write (h : x.isFinite = true) :
    ∃ n : Grammar.Numeral, n.text = write x ∧ n.value = x := by
  have h : (Double.parts x).isFinite = true := h
  cases hp : Double.parts x with
  | finite s m e hm =>
    have ha : Double.parts x.abs = .finite .positive m e hm := by
      rw [Double.abs_eq, hp]
      exact Double.parts_ofParts (Double.canonical_of_parts hp)
    obtain ⟨n, hn, ht, hv⟩ := Decimal.exists_text_eq_write (Decimal.shortest x.abs m e)
    have hv : n.value = x.abs := by
      simp [Grammar.Numeral.value, hn, Decimal.toFloat_congr hv, Decimal.toFloat_shortest ha]
    obtain ⟨n', ht', hv'⟩ := exists_signed s hn
    exact ⟨n', by rw [ht', ht, write_eq, hp],
      by rw [hv', hv, Double.signed_abs (.inr ⟨m, e, hm, hp⟩)]⟩
  | zero s =>
    have h₀ : (⟨false, ['0'], [], by simp, by simp, by simp⟩ : Grammar.Numeral).value = x.abs := by
      rw [Double.abs_eq, hp]
      exact Decimal.toFloat_of_digits_eq_zero (d := Decimal.ofDigits ['0'] []) rfl
    obtain ⟨n', ht', hv'⟩ := exists_signed s (n := ⟨false, ['0'], [], _, _, _⟩) rfl
    exact ⟨n', by rw [ht', write_eq, hp]; rfl,
      by rw [hv', h₀, Double.signed_abs (.inl hp)]⟩
  | infinity s => simp [hp, Float.Model.UnpackedFloat.isFinite] at h
  | notANumber => simp [hp, Float.Model.UnpackedFloat.isFinite] at h

/-- What is no finite number is written as a name. -/
theorem isName_write (h : x.isFinite = false) : Text.isName (write x) = true := by
  have h : (Double.parts x).isFinite = false := h
  rw [write_eq]
  cases hp : Double.parts x with
  | infinity s => cases s <;> rfl
  | notANumber => rfl
  | finite s m e hm => simp [hp, Float.Model.UnpackedFloat.isFinite] at h
  | zero s => simp [hp, Float.Model.UnpackedFloat.isFinite] at h

end Numeral

end Catena
