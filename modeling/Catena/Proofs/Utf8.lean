import Catena.Text.Utf8

/-!
# Well-formed bytes

The encoding of a text is read back as that text (`Utf8.decode?_encode`), and nothing but
the encodings of texts is well-formed (`Utf8.decode?_eq_some_iff`). A piece is the encoding
of a character if it is one (`Utf8.pieces_eq_some_cons_iff`), whatever follows it.
-/

namespace Catena.Utf8

/-! ### Characters -/

/-- The rows of the table of first bytes. -/
theorem lead_eq_some {b bits n lo hi : Nat} (h : lead b = some (bits, n, lo, hi)) :
    b < 0x80 ∧ bits = b ∧ n = 0 ∨
    (0xC2 ≤ b ∧ b ≤ 0xDF) ∧ bits = b % 32 ∧ n = 1 ∧ lo = 0x80 ∧ hi = 0xBF ∨
    (0xE0 ≤ b ∧ b ≤ 0xEF) ∧ bits = b % 16 ∧ n = 2 ∧ (0x80 ≤ lo ∧ hi ≤ 0xBF) ∧
      (b = 0xE0 → lo = 0xA0) ∧ (b = 0xED → hi = 0x9F) ∨
    (0xF0 ≤ b ∧ b ≤ 0xF4) ∧ bits = b % 8 ∧ n = 3 ∧ (0x80 ≤ lo ∧ hi ≤ 0xBF) ∧
      (b = 0xF0 → lo = 0x90) ∧ (b = 0xF4 → hi = 0x8F) := by
  unfold lead at h
  repeat' split at h
  all_goals cases h
  all_goals omega

/-- The first bytes of three, with the ranges that rule out short forms and surrogates. -/
theorem lead_three {b : Nat} (h : 0xE0 ≤ b ∧ b ≤ 0xEF) :
    lead b =
      some (b % 16, 2, if b = 0xE0 then 0xA0 else 0x80, if b = 0xED then 0x9F else 0xBF) := by
  unfold lead
  grind

/-- The first bytes of four, with the ranges that rule out short forms and large numbers. -/
theorem lead_four {b : Nat} (h : 0xF0 ≤ b ∧ b ≤ 0xF4) :
    lead b = some (b % 8, 3, if b = 0xF0 then 0x90 else 0x80, if b = 0xF4 then 0x8F else 0xBF) := by
  unfold lead
  grind

/-- A byte in its range adds six bits. -/
theorem follow_cons {n lo hi acc : Nat} {b : UInt8} {bs : List UInt8}
    (h : lo ≤ b.toNat ∧ b.toNat ≤ hi) :
    follow (n + 1) lo hi acc (b :: bs) = follow n 0x80 0xBF (acc * 64 + b.toNat % 64) bs := by
  rw [follow, if_pos h]

/-- Bytes that follow are as many as are to come, and the next one is in its range. -/
theorem follow_succ_eq_some {n lo hi acc v : Nat} {bs rest : List UInt8}
    (h : follow (n + 1) lo hi acc bs = (some v, rest)) :
    ∃ b bs', bs = b :: bs' ∧ lo ≤ b.toNat ∧ b.toNat ≤ hi ∧
      follow n 0x80 0xBF (acc * 64 + b.toNat % 64) bs' = (some v, rest) := by
  cases bs with
  | nil => cases h
  | cons b bs' =>
    unfold follow at h
    split at h
    case isTrue hb => exact ⟨b, bs', rfl, hb.1, hb.2, h⟩
    case isFalse => cases h

theorem toNat_ofNat_of_lt {n : Nat} (h : n < 256) : (UInt8.ofNat n).toNat = n := by
  rw [UInt8.toNat_ofNat', Nat.mod_eq_of_lt h]

/-- A first byte and those that follow it make up one piece. -/
theorem pieces_cons_of_lead {b : UInt8} {bs rest : List UInt8} {bits n lo hi v : Nat}
    (hl : lead b.toNat = some (bits, n, lo, hi)) (hf : follow n lo hi bits bs = (some v, rest)) :
    pieces (b :: bs) = some (Char.ofNat v) :: pieces rest := by
  rw [pieces, hl]
  simp only [hf, Option.map_some]

/-- The encoding of a code point, by the number of its bytes. -/
theorem utf8EncodeChar_ofNat {v : Nat} (hv : v.isValidChar) :
    String.utf8EncodeChar (Char.ofNat v) =
      if v ≤ 0x7F then [UInt8.ofNat v]
      else if v ≤ 0x7FF then [UInt8.ofNat (v / 64 % 32 + 192), UInt8.ofNat (v % 64 + 128)]
      else if v ≤ 0xFFFF then
        [UInt8.ofNat (v / 4096 % 16 + 224), UInt8.ofNat (v / 64 % 64 + 128),
          UInt8.ofNat (v % 64 + 128)]
      else
        [UInt8.ofNat (v / 262144 % 8 + 240), UInt8.ofNat (v / 4096 % 64 + 128),
          UInt8.ofNat (v / 64 % 64 + 128), UInt8.ofNat (v % 64 + 128)] := by
  have : (Char.ofNat v).val.toNat = v := by
    rw [Char.ofNat, dif_pos hv]
    rfl
  rw [String.utf8EncodeChar, this]

/-- The encoding of a character is one piece, in front of whatever it stands. -/
theorem pieces_utf8EncodeChar_append (c : Char) (bs : List UInt8) :
    pieces (String.utf8EncodeChar c ++ bs) = some c :: pieces bs := by
  obtain ⟨v, hv, rfl⟩ : ∃ v : Nat, v.isValidChar ∧ c = Char.ofNat v :=
    ⟨c.toNat, c.valid, (Char.ofNat_toNat c).symm⟩
  rw [utf8EncodeChar_ofNat hv]
  have byte {n : Nat} (h : n < 64) : (UInt8.ofNat (n + 128)).toNat = n + 128 :=
    toNat_ofNat_of_lt (by omega)
  have h₀ := byte (n := v % 64) (by omega)
  have h₁ := byte (n := v / 64 % 64) (by omega)
  have h₂ := byte (n := v / 4096 % 64) (by omega)
  -- One to four bytes: all but the first have six bits each.
  split
  · have hl : lead (UInt8.ofNat v).toNat = some (v, 0, 0x80, 0xBF) := by
      rw [toNat_ofNat_of_lt (by omega), lead, if_pos (by omega)]
    exact pieces_cons_of_lead hl rfl
  split
  · have hl : lead (UInt8.ofNat (v / 64 % 32 + 192)).toNat = some (v / 64, 1, 0x80, 0xBF) := by
      rw [toNat_ofNat_of_lt (by omega), lead, if_neg (by omega), if_pos (by omega)]
      simp only [Option.some.injEq, Prod.mk.injEq, and_true]
      omega
    simp only [List.cons_append, List.nil_append]
    refine pieces_cons_of_lead hl ?_
    rw [follow_cons (by omega), h₀, follow]
    simp only [Prod.mk.injEq, and_true, Option.some.injEq]
    omega
  split
  · have hl := toNat_ofNat_of_lt (n := v / 4096 % 16 + 224) (by omega)
    simp only [List.cons_append, List.nil_append]
    refine pieces_cons_of_lead (lead_three (by omega)) ?_
    rw [follow_cons (by split <;> split <;> omega), follow_cons (by omega), follow, hl, h₀, h₁]
    simp only [Prod.mk.injEq, and_true, Option.some.injEq]
    omega
  · have hl := toNat_ofNat_of_lt (n := v / 262144 % 8 + 240) (by omega)
    simp only [List.cons_append, List.nil_append]
    refine pieces_cons_of_lead (lead_four (by omega)) ?_
    rw [follow_cons (by split <;> split <;> omega), follow_cons (by omega),
      follow_cons (by omega), follow, hl, h₀, h₁, h₂]
    simp only [Prod.mk.injEq, and_true, Option.some.injEq]
    omega

theorem ofNat_eq_of_toNat {n : Nat} {b : UInt8} (h : n = b.toNat) : UInt8.ofNat n = b := by
  rw [h, UInt8.ofNat_toNat]

/-- The first byte of a code point and those that follow it are the encoding of the code
    point. -/
theorem eq_utf8EncodeChar_append {b : UInt8} {bs rest : List UInt8} {bits n lo hi v : Nat}
    (hl : lead b.toNat = some (bits, n, lo, hi)) (hf : follow n lo hi bits bs = (some v, rest)) :
    b :: bs = String.utf8EncodeChar (Char.ofNat v) ++ rest := by
  -- The first byte fixes how many there are, and the range of the second that no form is too long.
  rcases lead_eq_some hl with ⟨hb, rfl, rfl⟩ | ⟨hb, rfl, rfl, rfl, rfl⟩ |
    ⟨hb, rfl, rfl, hr, hlo, hhi⟩ | ⟨hb, rfl, rfl, hr, hlo, hhi⟩
  · cases hf
    rw [utf8EncodeChar_ofNat (by omega), if_pos (by omega), UInt8.ofNat_toNat]
    rfl
  · obtain ⟨b₁, bs, rfl, _, _, hf⟩ := follow_succ_eq_some hf
    cases hf
    rw [utf8EncodeChar_ofNat (by omega), if_neg (by omega), if_pos (by omega),
      ofNat_eq_of_toNat (b := b) (by omega), ofNat_eq_of_toNat (b := b₁) (by omega)]
    rfl
  · obtain ⟨b₁, bs, rfl, _, _, hf⟩ := follow_succ_eq_some hf
    obtain ⟨b₂, bs, rfl, _, _, hf⟩ := follow_succ_eq_some hf
    cases hf
    rw [utf8EncodeChar_ofNat (by omega), if_neg (by omega), if_neg (by omega),
      if_pos (by omega), ofNat_eq_of_toNat (b := b) (by omega),
      ofNat_eq_of_toNat (b := b₁) (by omega), ofNat_eq_of_toNat (b := b₂) (by omega)]
    rfl
  · obtain ⟨b₁, bs, rfl, _, _, hf⟩ := follow_succ_eq_some hf
    obtain ⟨b₂, bs, rfl, _, _, hf⟩ := follow_succ_eq_some hf
    obtain ⟨b₃, bs, rfl, _, _, hf⟩ := follow_succ_eq_some hf
    cases hf
    rw [utf8EncodeChar_ofNat (by omega), if_neg (by omega), if_neg (by omega),
      if_neg (by omega), ofNat_eq_of_toNat (b := b) (by omega),
      ofNat_eq_of_toNat (b := b₁) (by omega), ofNat_eq_of_toNat (b := b₂) (by omega),
      ofNat_eq_of_toNat (b := b₃) (by omega)]
    rfl

/-- A piece is a character if and only if it is its encoding. -/
theorem pieces_eq_some_cons_iff {bs : List UInt8} {c : Char} {ps : List (Option Char)} :
    pieces bs = some c :: ps ↔
      ∃ rest, bs = String.utf8EncodeChar c ++ rest ∧ pieces rest = ps := by
  constructor
  · intro h
    unfold pieces at h
    split at h
    case h_1 => cases h
    case h_2 b bs =>
      split at h
      case h_1 => cases h
      case h_2 bits n lo hi hl =>
        obtain ⟨hc, rfl⟩ := List.cons.inj h
        obtain ⟨v, hv, rfl⟩ := Option.map_eq_some_iff.1 hc
        exact ⟨_, eq_utf8EncodeChar_append hl (Prod.ext hv rfl), rfl⟩
  · rintro ⟨rest, rfl, rfl⟩
    exact pieces_utf8EncodeChar_append c rest

/-! ### Texts -/

/-- The pieces are characters throughout if and only if the bytes are their encoding. -/
theorem pieces_eq_map_some_iff {bs : List UInt8} {cs : List Char} :
    pieces bs = cs.map some ↔ bs = cs.flatMap String.utf8EncodeChar := by
  induction cs generalizing bs with
  | nil =>
    cases bs with
    | nil => simp [pieces]
    | cons b bs =>
      unfold pieces
      split <;> simp
  | cons c cs ih =>
    rw [List.map_cons, List.flatMap_cons, pieces_eq_some_cons_iff]
    simp only [ih, exists_eq_right]

/-- All pieces are characters if and only if the characters, taken as pieces, are the pieces. -/
theorem mapM_id_eq_some_iff {ps : List (Option Char)} {cs : List Char} :
    ps.mapM id = some cs ↔ ps = cs.map some := by
  induction ps generalizing cs with
  | nil => cases cs <;> simp
  | cons p ps ih =>
    cases p with
    | none => cases cs <;> simp [List.mapM_cons]
    | some c =>
      cases cs with
      | nil => simp [List.mapM_cons, Option.bind_eq_some_iff]
      | cons d ds =>
        simp only [List.mapM_cons, id_eq, Option.bind_eq_bind, Option.bind_some,
          Option.bind_eq_some_iff, ih, Option.pure_def, Option.some.injEq, List.cons.injEq,
          List.map_cons]
        exact ⟨fun ⟨_, h, hc, hd⟩ => ⟨hc, hd ▸ h⟩, fun ⟨hc, h⟩ => ⟨ds, h, hc, rfl⟩⟩

/-- The well-formed bytes are the encodings of texts, each read back as its own. -/
theorem decode?_eq_some_iff {bs : List UInt8} {s : String} :
    decode? bs = some s ↔ bs = encode s := by
  unfold decode? encode
  rw [Option.map_eq_some_iff, ← pieces_eq_map_some_iff]
  constructor
  · rintro ⟨cs, h, rfl⟩
    rw [String.toList_ofList, mapM_id_eq_some_iff.1 h]
  · intro h
    exact ⟨s.toList, mapM_id_eq_some_iff.2 h, String.ofList_toList⟩

@[simp]
theorem decode?_encode (s : String) : decode? (encode s) = some s :=
  decode?_eq_some_iff.2 rfl

/-- Different texts have different encodings. -/
theorem encode_injective {s t : String} (h : encode s = encode t) : s = t :=
  Option.some.inj (by rw [← decode?_encode s, h, decode?_encode])

/-- Nothing is replaced in well-formed bytes. -/
theorem decodeLossy_encode (s : String) : decodeLossy (encode s) = s := by
  have h : pieces (encode s) = s.toList.map some := pieces_eq_map_some_iff.2 rfl
  rw [decodeLossy, h, List.map_map]
  simp [Function.comp_def]

end Catena.Utf8
