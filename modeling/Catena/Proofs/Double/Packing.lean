import Mathlib

/-!
# The bits of doubles

A double is a word of 64 bits, and its *parts* are what it is taken apart into: an infinity,
a zero or a mantissa with an exponent, each with a sign, or no number at all. To take a
double apart and to put it together are inverse to one another, if the mantissa and the
exponent are those that the format asks for (`Canonical`).

* `ofParts_parts`: a double is put together from its parts;
* `parts_ofParts`: canonical parts are those of a double.
-/

namespace Catena.Double

open Float.Model (UnpackedFloat)
open Float.Model.UnpackedFloat
open Float.Model.Format (binary64)

/-- A mantissa and an exponent as the format has them: the mantissa has 53 bits, or less
    with the least exponent. -/
structure Canonical (mantissa : Nat) (exponent : Int) : Prop where
  lt : mantissa < 2 ^ 53
  le_max : exponent ≤ 971
  min_le : -1074 ≤ exponent
  normal : 2 ^ 52 ≤ mantissa ∨ exponent = -1074

/-! ### Words -/

section Words

variable {s : Sign} {m : Nat} {e : Int} {hm : 0 < m} {b : BitVec binary64.numBits}

@[simp]
theorem sign_ofBitVec_toBitVec : Sign.ofBitVec s.toBitVec = s := by
  cases s <;> rfl

@[simp]
theorem sign_toBitVec_ofBitVec {b : BitVec 1} : (Sign.ofBitVec b).toBitVec = b := by
  grind [Sign.ofBitVec, Sign.toBitVec]

@[simp]
theorem unpackSign_packComponents {e : BitVec binary64.exponentBits}
    {m : BitVec binary64.mantissaBitsWithoutImplicit} :
    unpackSign (packComponents binary64 s e m) = s.toBitVec := by
  simp only [unpackSign, packComponents, BitVec.extractLsb]
  ext i hi
  grind

/-- A word is put together from its sign, exponent and mantissa. -/
theorem packComponents_unpack :
    packComponents binary64 (Sign.ofBitVec (unpackSign b)) (unpackExponent b)
      (unpackMantissa b) = b := by
  simp only [packComponents, sign_toBitVec_ofBitVec, unpackSign, unpackExponent,
    unpackMantissa, BitVec.extractLsb]
  ext i hi
  grind

/-- The bit in front of a mantissa that is not written. -/
theorem toNat_implicit_append {m : BitVec 52} : (1#1 ++ m).toNat = 2 ^ 52 + m.toNat := by
  rw [BitVec.toNat_append, ← Nat.shiftLeft_add_eq_or_of_lt m.isLt]
  rfl

theorem log2_eq_of_normal (h : 2 ^ 52 ≤ m) (h' : m < 2 ^ 53) : m.log2 = 52 :=
  (Nat.log2_eq_iff (by omega)).2 ⟨h, h'⟩

/-- The word of a canonical mantissa of 53 bits. -/
theorem pack_of_normal (h : Canonical m e) (hn : 2 ^ 52 ≤ m) :
    pack binary64 (.finite s m e hm) =
      packComponents binary64 s (BitVec.ofNat 11 (e + 1075).toNat) (BitVec.ofNat 52 m) := by
  have hl := log2_eq_of_normal hn h.lt
  have := h.le_max
  have := h.min_le
  have hb : e + (binary64.exponentBias : Int) + (52 : Nat) = e + 1075 := by
    rw [show ((binary64.exponentBias : Nat) : Int) = 1023 from rfl]
    omega
  rw [pack, hb, if_neg (by simp; omega), if_pos (by rw [hl]; rfl)]

/-- The word of a mantissa with less bits. -/
theorem pack_of_subnormal (hn : m < 2 ^ 52) :
    pack binary64 (.finite s m (-1074) hm) = packComponents binary64 s 0 (BitVec.ofNat 52 m) := by
  have hl : m.log2 < 52 := (Nat.log2_lt hm.ne').2 hn
  have hb : (-1074 : Int) + (binary64.exponentBias : Int) + (52 : Nat) = 1 := rfl
  rw [pack, hb, if_neg (by simp), if_neg (by simp [Float.Model.Format.mantissaBits]; omega)]
  rfl

theorem pack_of_le_exponent (h : 972 ≤ e) :
    pack binary64 (.finite s m e hm) = packedInfinity binary64 s := by
  have hb : e + (binary64.exponentBias : Int) + (52 : Nat) = e + 1075 := by
    rw [show ((binary64.exponentBias : Nat) : Int) = 1023 from rfl]
    omega
  rw [pack, hb, if_pos (by simp; omega)]

theorem unpack_packComponents_normal {k : Nat} {t : BitVec 52} (h₀ : 0 < k) (h : k < 2047) :
    unpack binary64 (packComponents binary64 s (BitVec.ofNat 11 k) t) =
      .finite s (2 ^ 52 + t.toNat) (k - 1075) (Nat.add_pos_left (Nat.two_pow_pos 52) _) := by
  have hk : (BitVec.ofNat 11 k).toNat = k := by
    rw [BitVec.toNat_ofNat, Nat.mod_eq_of_lt (by omega)]
  have h₁ : BitVec.ofNat 11 k ≠ -1#11 := fun he =>
    h.ne (hk.symm.trans (congrArg BitVec.toNat he))
  have h₂ : BitVec.ofNat 11 k ≠ 0#11 := fun he =>
    h₀.ne' (hk.symm.trans (congrArg BitVec.toNat he))
  rw [unpack]
  simp only [unpackExponent_packComponents, unpackMantissa_packComponents,
    unpackSign_packComponents, sign_ofBitVec_toBitVec, h₁, h₂, if_false, hk,
    toNat_implicit_append]
  rfl

theorem unpack_packComponents_subnormal {t : BitVec 52} (h : 0 < t.toNat) :
    unpack binary64 (packComponents binary64 s 0 t) = .finite s t.toNat (-1074) h := by
  have h₁ : (0 : BitVec 11) ≠ -1#11 := by decide
  have ht : t ≠ 0#52 := fun he => by simp [he] at h
  rw [unpack]
  simp only [unpackExponent_packComponents, unpackMantissa_packComponents,
    unpackSign_packComponents, sign_ofBitVec_toBitVec, h₁, ht, if_false]
  rfl

theorem unpack_packedZero : unpack binary64 (packedZero binary64 s) = .zero s := by
  rw [unpack]
  simp [packedZero]

/-- Canonical parts are found again in their word. -/
theorem unpack_pack (h : Canonical m e) :
    unpack binary64 (pack binary64 (.finite s m e hm)) = .finite s m e hm := by
  by_cases hn : 2 ^ 52 ≤ m
  · have := h.le_max
    have := h.min_le
    have := h.lt
    rw [pack_of_normal h hn, unpack_packComponents_normal (by omega) (by omega)]
    congr 1
    · rw [BitVec.toNat_ofNat]
      omega
    · omega
  · obtain rfl := h.normal.resolve_left hn
    have ht : (BitVec.ofNat 52 m).toNat = m := by
      rw [BitVec.toNat_ofNat, Nat.mod_eq_of_lt (by omega)]
    rw [pack_of_subnormal (by omega), unpack_packComponents_subnormal (by omega)]
    congr 1

/-- What a word is taken apart into, if it is finite. -/
theorem unpack_eq_finite (h : unpack binary64 b = .finite s m e hm) :
    Canonical m e ∧ pack binary64 (.finite s m e hm) = b := by
  obtain ⟨t, k, u, rfl⟩ : ∃ t k u, packComponents binary64 t k u = b :=
    ⟨_, _, _, packComponents_unpack⟩
  rw [unpack] at h
  simp only [unpackExponent_packComponents, unpackMantissa_packComponents,
    unpackSign_packComponents, sign_ofBitVec_toBitVec] at h
  have hu : u.toNat < 2 ^ 52 := u.isLt
  have hk : k.toNat < 2048 := k.isLt
  split at h
  · split at h <;> cases h
  rename_i hk₁
  split at h
  · rename_i hk₂
    subst hk₂
    split at h
    · cases h
    · obtain ⟨rfl, rfl, rfl⟩ := UnpackedFloat.finite.inj h
      refine ⟨⟨by omega, by decide, by decide, .inr rfl⟩, (pack_of_subnormal hu).trans ?_⟩
      rw [BitVec.ofNat_toNat, BitVec.setWidth_eq]
      rfl
  · rename_i hk₂
    have hk₁ : k.toNat ≠ 2047 := fun he => hk₁ (BitVec.eq_of_toNat_eq he)
    have hk₂ : k.toNat ≠ 0 := fun he => hk₂ (BitVec.eq_of_toNat_eq he)
    have he : (k.toNat : Int) - ((binary64.exponentBias : Nat) + (52 : Nat)) = k.toNat - 1075 := rfl
    rw [he] at h
    obtain ⟨rfl, rfl, rfl⟩ := UnpackedFloat.finite.inj h
    have hm' := toNat_implicit_append (m := u)
    have hc : Canonical (1#1 ++ u).toNat (k.toNat - 1075) :=
      ⟨by omega, by omega, by omega, .inl (by omega)⟩
    refine ⟨hc, (pack_of_normal hc (by omega)).trans ?_⟩
    rw [hm', show ((k.toNat : Int) - 1075 + 1075).toNat = k.toNat by omega,
      BitVec.ofNat_toNat, BitVec.setWidth_eq]
    congr 1
    exact BitVec.eq_of_toNat_eq (by rw [BitVec.toNat_ofNat]; omega)

/-- What a word is taken apart into, if it is a zero. -/
theorem unpack_eq_zero (h : unpack binary64 b = .zero s) : packedZero binary64 s = b := by
  obtain ⟨t, k, u, rfl⟩ : ∃ t k u, packComponents binary64 t k u = b :=
    ⟨_, _, _, packComponents_unpack⟩
  rw [unpack] at h
  simp only [unpackExponent_packComponents, unpackMantissa_packComponents,
    unpackSign_packComponents, sign_ofBitVec_toBitVec] at h
  split at h
  · split at h <;> cases h
  split at h
  · rename_i hk
    split at h
    · rename_i hu
      cases h
      rw [hk, hu]
      rfl
    · cases h
  · cases h

end Words

/-! ### Doubles -/

/-- The parts of a double. -/
def parts (x : Float) : UnpackedFloat := x.toModel.unpack

/-- The double with these parts. -/
def ofParts (u : UnpackedFloat) : Float := .ofModel (.pack u)

section Doubles

variable {x : Float} {s : Sign} {m : Nat} {e : Int} {hm : 0 < m}

theorem toModel_injective {x y : Float} (h : x.toModel.toBits.toBitVec = y.toModel.toBits.toBitVec) :
    x = y := by
  rcases x with ⟨⟨⟨b⟩, _⟩⟩
  rcases y with ⟨⟨⟨c⟩, _⟩⟩
  obtain rfl : b = c := h
  rfl

theorem canonical_of_parts (h : parts x = .finite s m e hm) : Canonical m e :=
  (unpack_eq_finite h).1

/-- A finite double is put together from its parts. -/
theorem ofParts_parts (h : x.isFinite = true) : ofParts (parts x) = x := by
  refine toModel_injective ?_
  cases hp : parts x with
  | finite s m e hm => exact (unpack_eq_finite hp).2
  | zero s => exact unpack_eq_zero hp
  | infinity s => exact absurd h (by rw [Float.isFinite, Float.Model.isFinite, ← parts, hp]; nofun)
  | notANumber => exact absurd h (by rw [Float.isFinite, Float.Model.isFinite, ← parts, hp]; nofun)

/-- Canonical parts are those of a double. -/
theorem parts_ofParts (h : Canonical m e) :
    parts (ofParts (.finite s m e hm)) = .finite s m e hm :=
  unpack_pack h

@[simp]
theorem parts_ofParts_zero : parts (ofParts (.zero s)) = .zero s :=
  unpack_packedZero

/-- To negate a double is to negate its parts. -/
theorem neg_ofParts {u : UnpackedFloat} (h : parts (ofParts u) = u) :
    -ofParts u = ofParts u.neg := by
  change ofParts (parts (ofParts u)).neg = _
  rw [h]

theorem abs_eq (x : Float) : x.abs = ofParts (parts x).abs := rfl

/-- A double, or the negative of it. -/
def signed (s : Sign) (x : Float) : Float :=
  match s with
  | .negative => -x
  | .positive => x

/-- A finite double is its absolute value with its sign. -/
theorem signed_abs (h : parts x = .zero s ∨ ∃ m e hm, parts x = .finite s m e hm) :
    signed s x.abs = x := by
  have hf : x.isFinite = true := by
    change (parts x).isFinite = true
    rcases h with h | ⟨m, e, hm, h⟩ <;> rw [h] <;> rfl
  have ha : parts (ofParts (parts x).abs) = (parts x).abs := by
    rcases h with h | ⟨m, e, hm, h⟩ <;> rw [h]
    · exact parts_ofParts_zero
    · exact parts_ofParts (canonical_of_parts h)
  rw [abs_eq]
  cases s with
  | positive =>
    refine (congrArg ofParts ?_).trans (ofParts_parts hf)
    rcases h with h | ⟨m, e, hm, h⟩ <;> rw [h] <;> rfl
  | negative =>
    refine (neg_ofParts ha).trans ((congrArg ofParts ?_).trans (ofParts_parts hf))
    rcases h with h | ⟨m, e, hm, h⟩ <;> rw [h] <;> rfl

/-- A double that is no infinity and no NaN equals itself. -/
theorem beq_self (h : x.isFinite = true) : (x == x) = true := by
  change (parts x).beq (parts x) = true
  have h : (parts x).isFinite = true := h
  cases hp : parts x with
  | finite s m e hm =>
    cases s <;> simp [UnpackedFloat.beq, UnpackedFloat.compare]
  | zero s => rfl
  | infinity s => simp [hp, UnpackedFloat.isFinite] at h
  | notANumber => simp [hp, UnpackedFloat.isFinite] at h

end Doubles

end Catena.Double
