/-!
# UTF-8

Files and the output of commands are bytes; the text of a program is characters.
`Utf8.encode` takes a text to its bytes. Decoding reads the bytes in *pieces*: a
piece is one well-formed character, or one maximal ill-formed subpart, that is the
longest beginning of some character's encoding that stands there, or else a single
byte. `decode?` accepts well-formed bytes only, and `decodeLossy` puts U+FFFD for
each ill-formed piece.
-/

namespace Catena.Utf8

/-- The bytes of a text. -/
def encode (s : String) : List UInt8 :=
  s.toList.flatMap String.utf8EncodeChar

/-- What may follow a first byte: its payload bits, the number of bytes to come and
    the range of the next one. The ranges rule out overlong forms, surrogates and
    code points above U+10FFFF. -/
def lead (b : Nat) : Option (Nat × Nat × Nat × Nat) :=
  if b < 0x80 then some (b, 0, 0x80, 0xBF)
  else if 0xC2 ≤ b ∧ b ≤ 0xDF then some (b % 32, 1, 0x80, 0xBF)
  else if b = 0xE0 then some (b % 16, 2, 0xA0, 0xBF)
  else if b = 0xED then some (b % 16, 2, 0x80, 0x9F)
  else if 0xE1 ≤ b ∧ b ≤ 0xEF then some (b % 16, 2, 0x80, 0xBF)
  else if b = 0xF0 then some (b % 8, 3, 0x90, 0xBF)
  else if 0xF1 ≤ b ∧ b ≤ 0xF3 then some (b % 8, 3, 0x80, 0xBF)
  else if b = 0xF4 then some (b % 8, 3, 0x80, 0x8F)
  else none

/-- Read `n` more bytes of a character, the next one between `lo` and `hi`: the code
    point, or `none` at the first byte that does not fit, and the bytes not read. -/
def follow : (n lo hi acc : Nat) → List UInt8 → Option Nat × List UInt8
  | 0, _, _, acc, bs => (some acc, bs)
  | _ + 1, _, _, _, [] => (none, [])
  | n + 1, lo, hi, acc, b :: bs =>
    if lo ≤ b.toNat ∧ b.toNat ≤ hi then follow n 0x80 0xBF (acc * 64 + b.toNat % 64) bs
    else (none, b :: bs)

theorem length_follow_le (n lo hi acc : Nat) (bs : List UInt8) :
    (follow n lo hi acc bs).2.length ≤ bs.length := by
  induction n generalizing lo hi acc bs with
  | zero => simp [follow]
  | succ n ih =>
    cases bs with
    | nil => simp [follow]
    | cons b bs =>
      unfold follow
      split
      · have := ih 0x80 0xBF (acc * 64 + b.toNat % 64) bs
        simp only [List.length_cons]
        omega
      · simp

/-- The pieces of a byte sequence: a character, or `none` for a maximal ill-formed
    subpart. -/
def pieces : List UInt8 → List (Option Char)
  | [] => []
  | b :: bs =>
    match lead b.toNat with
    | none => none :: pieces bs
    | some (bits, n, lo, hi) =>
      let r := follow n lo hi bits bs
      r.1.map Char.ofNat :: pieces r.2
termination_by bs => bs.length
decreasing_by
  · simp
  · have := length_follow_le n lo hi bits bs
    simp only [List.length_cons]
    omega

/-- The text of well-formed bytes. -/
def decode? (bs : List UInt8) : Option String :=
  ((pieces bs).mapM id).map String.ofList

/-- The text of any bytes, with U+FFFD for each maximal ill-formed subpart. -/
def decodeLossy (bs : List UInt8) : String :=
  String.ofList ((pieces bs).map (·.getD '\uFFFD'))

end Catena.Utf8
