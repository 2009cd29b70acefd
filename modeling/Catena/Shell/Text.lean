import Catena.Workspace

/-!
# Text in a shell

What the shell's words and the commands `echo`, `printf` and `tr` do with bytes: file
name patterns, escapes, formats, and sets of bytes.
-/

namespace Catena.Shell

/-- The bytes of a text. -/
def bytes (s : String) : Bytes := Utf8.encode s

/-- The byte of an ASCII character. -/
def byte (c : Char) : UInt8 := c.toUInt8

/-- A byte of a word, and whether it stands for itself even if it is special. -/
abbrev Glyph := UInt8 × Bool

namespace Pattern

/-- Whether a byte is in a bracketed set, written as single bytes and ranges. -/
def inSet (b : UInt8) : List Glyph → Bool
  | (lo, _) :: (dash, _) :: (hi, p) :: rest =>
    if dash = byte '-' then (lo ≤ b && b ≤ hi) || inSet b rest
    else b = lo || inSet b ((dash, false) :: (hi, p) :: rest)
  | (x, _) :: rest => b = x || inSet b rest
  | [] => false

/-- Whether a bracketed set goes on with a byte. -/
def isInside (g : Glyph) : Bool := g ≠ (byte ']', false)

/-- The content of a bracketed set, and the pattern after it; the first byte may be a
    closing bracket. -/
def bracketed : List Glyph → Option (List Glyph × List Glyph)
  | [] => none
  | g :: gs =>
    match gs.dropWhile isInside with
    | [] => none
    | _ :: rest => some (g :: gs.takeWhile isInside, rest)

theorem length_bracketed_lt {gs members rest : List Glyph}
    (h : bracketed gs = some (members, rest)) : rest.length < gs.length := by
  cases gs with
  | nil => cases h
  | cons g gs =>
    have hs := (List.dropWhile_suffix (l := gs) isInside).length_le
    cases hd : gs.dropWhile isInside with
    | nil => simp [bracketed, hd] at h
    | cons mark tail =>
      rw [hd, List.length_cons] at hs
      simp only [bracketed, hd, Option.some.injEq, Prod.mk.injEq] at h
      obtain ⟨-, rfl⟩ := h
      exact Nat.lt_succ_of_lt hs

/-- A part of a pattern. -/
inductive Part where
  /-- A byte that stands for itself. -/
  | byte (b : UInt8)
  /-- Any byte. -/
  | any
  /-- Any number of bytes. -/
  | many
  /-- A byte that is in a set, or one that is not. -/
  | set (isNegated : Bool) (members : List Glyph)

/-- The part for a bracketed set. -/
def Part.ofSet : List Glyph → Part
  | (b, p) :: more =>
    if b = Shell.byte '!' || b = Shell.byte '^' then .set true more
    else .set false ((b, p) :: more)
  | [] => .set false []

/-- The parts of a pattern. -/
def parts : List Glyph → List Part
  | [] => []
  | (b, isPlain) :: p =>
    if isPlain then .byte b :: parts p
    else if b = byte '*' then .many :: parts p
    else if b = byte '?' then .any :: parts p
    else if b = byte '[' then
      match _h : bracketed p with
      | none => .byte b :: parts p
      | some (members, rest) => .ofSet members :: parts rest
    else .byte b :: parts p
termination_by p => p.length
decreasing_by
  · simp
  · simp
  · simp
  · simp
  · exact Nat.lt_succ_of_lt (length_bracketed_lt _h)
  · simp

/-- Whether the parts of a pattern fit bytes, one after another. -/
def fits : List Part → Bytes → Bool
  | [], s => s.isEmpty
  | .many :: p, s => (List.range (s.length + 1)).any fun n => fits p (s.drop n)
  | _ :: _, [] => false
  | .byte b :: p, c :: s => b = c && fits p s
  | .any :: p, _ :: s => fits p s
  | .set isNegated members :: p, c :: s => (inSet c members != isNegated) && fits p s

/-- Whether a pattern fits bytes as a whole. -/
def matches? (p : List Glyph) (s : Bytes) : Bool := fits (parts p) s

/-- Whether a pattern has a byte that does not stand for itself. -/
def isSpecial (p : List Glyph) : Bool :=
  p.any fun (b, isPlain) => !isPlain && (b = byte '*' || b = byte '?' || b = byte '[')

/-- What is left of bytes when a fitting part is taken off their front. -/
def dropFront (p : List Glyph) (longest : Bool) (s : Bytes) : Bytes :=
  let cuts := (List.range (s.length + 1)).filter fun n => matches? p (s.take n)
  match if longest then cuts.getLast? else cuts.head? with
  | some n => s.drop n
  | none => s

/-- What is left of bytes when a fitting part is taken off their end. -/
def dropEnd (p : List Glyph) (longest : Bool) (s : Bytes) : Bytes :=
  let cuts := (List.range (s.length + 1)).filter fun n => matches? p (s.drop n)
  match if longest then cuts.head? else cuts.getLast? with
  | some n => s.take n
  | none => s

end Pattern

def isOctal (b : UInt8) : Bool := byte '0' ≤ b && b ≤ byte '7'

/-- The byte that at most `n` octal digits stand for, and what follows them. -/
def octal (n : Nat) (s : Bytes) : UInt8 × Bytes :=
  let digits := (s.take n).takeWhile isOctal
  (digits.foldl (fun v d => v * 8 + (d - byte '0')) 0, s.drop digits.length)

/-- The control byte of an escape letter. -/
def control? (b : UInt8) : Option UInt8 :=
  if b = byte 'a' then some 7
  else if b = byte 'b' then some 8
  else if b = byte 'f' then some 12
  else if b = byte 'n' then some 10
  else if b = byte 'r' then some 13
  else if b = byte 't' then some 9
  else if b = byte 'v' then some 11
  else if b = byte '\\' then some (byte '\\')
  else none

theorem length_octal_le (n : Nat) (s : Bytes) : (octal n s).2.length ≤ s.length := by
  simp [octal]

/-- The byte of an octal number whose first digit is given, which may be a zero more. -/
def echoOctal (c : UInt8) (s : Bytes) : UInt8 × Bytes :=
  octal 3 (if c = byte '0' then s else c :: s)

theorem length_echoOctal_le (c : UInt8) (s : Bytes) : (echoOctal c s).2.length ≤ s.length + 1 := by
  unfold echoOctal
  split
  · exact Nat.le_succ_of_le (length_octal_le 3 s)
  · exact length_octal_le 3 (c :: s)

/-- Bytes with their escapes carried out, where an octal number may follow a zero. The
    escape `\c` ends the output: then the second answer is true. -/
def unescape : Bytes → Bytes × Bool
  | [] => ([], false)
  | b :: s =>
    if b ≠ byte '\\' then
      let (r, stop) := unescape s
      (b :: r, stop)
    else
      match s with
      | [] => ([b], false)
      | c :: s =>
        if c = byte 'c' then ([], true)
        else if isOctal c then
          let (r, stop) := unescape (echoOctal c s).2
          ((echoOctal c s).1 :: r, stop)
        else
          let (r, stop) := unescape s
          match control? c with
          | some v => (v :: r, stop)
          | none => (b :: c :: r, stop)
termination_by s => s.length
decreasing_by
  · simp
  · have := length_echoOctal_le c s
    simp only [List.length_cons]
    omega
  · simp only [List.length_cons]
    omega

/-- What `echo` writes. -/
def echo (args : List Bytes) : Bytes :=
  let (isPlain, args) : Bool × List Bytes :=
    match args with
    | a :: rest => if a = bytes "-n" then (true, rest) else (false, args)
    | [] => (false, [])
  let line := (args.intersperse (bytes " ")).flatten
  let (out, stop) := unescape line
  if isPlain || stop then out else out ++ bytes "\n"

/-- The value of a decimal, octal or hexadecimal integer, and whether all of it was
    read. -/
def integer (s : Bytes) : Int × Bool :=
  let chars := (Utf8.decodeLossy s).toList.dropWhile Char.isWhitespace
  let (negative, chars) : Bool × List Char :=
    match chars with
    | '-' :: r => (true, r)
    | '+' :: r => (false, r)
    | r => (false, r)
  let (v, rest) : Nat × List Char :=
    match chars with
    | '0' :: 'x' :: r =>
      let isHex (c : Char) := c.isDigit || ('a' ≤ c.toLower && c.toLower ≤ 'f')
      let digit (c : Char) := if c.isDigit then c.toNat - 48 else c.toLower.toNat - 87
      ((r.takeWhile isHex).foldl (fun v c => v * 16 + digit c) 0, r.dropWhile isHex)
    | '0' :: r =>
      let isOct (c : Char) := '0' ≤ c && c ≤ '7'
      (Nat.ofDigitChars 8 (r.takeWhile isOct) 0, r.dropWhile isOct)
    | r => (Nat.ofDigitChars 10 (r.takeWhile Char.isDigit) 0, r.dropWhile Char.isDigit)
  (if negative then -(v : Int) else v, rest.isEmpty && !chars.isEmpty)

/-- Bytes filled up to a width. -/
def pad (width : Nat) (left : Bool) (fill : UInt8) (s : Bytes) : Bytes :=
  let more := List.replicate (width - s.length) fill
  if left then s ++ List.replicate (width - s.length) (byte ' ') else more ++ s

/-- A conversion of a format: flags, width, precision. -/
structure Conversion where
  flags : Bytes
  width : Nat
  precision : Option Nat

/-- An integer as a conversion writes it, in a base and with digits of its own. -/
def Conversion.integerText (c : Conversion) (n : Int) (base : Nat) (upper : Bool) : Bytes :=
  let magnitude := if base = 10 then n.natAbs else (n % 0x10000000000000000).natAbs
  let digits := Nat.toDigits base magnitude
  let digits := if upper then digits.map Char.toUpper else digits
  let digits := List.replicate ((c.precision.getD 1) - digits.length) '0' ++ digits
  let sign : List Char :=
    if base ≠ 10 then []
    else if n < 0 then ['-']
    else if c.flags.contains (byte '+') then ['+']
    else if c.flags.contains (byte ' ') then [' ']
    else []
  let left := c.flags.contains (byte '-')
  if c.flags.contains (byte '0') && !left && c.precision.isNone then
    let zeros := List.replicate (c.width - digits.length - sign.length) '0'
    (sign ++ zeros ++ digits).map byte
  else pad c.width left (byte ' ') ((sign ++ digits).map byte)

/-- A number in a format: written out, or the value of an argument. -/
inductive Count where
  | number (n : Nat)
  | argument

/-- What a format says to do. -/
inductive Directive where
  | write (bs : Bytes)
  /-- The output ends here. -/
  | stop
  /-- The format is broken off here. -/
  | fail
  /-- Write an argument in a way that a letter tells. -/
  | convert (flags : Bytes) (width precision : Option Count) (letter : Option UInt8)

def isDigitByte (b : UInt8) : Bool := byte '0' ≤ b && b ≤ byte '9'

/-- A number at the front of a format, and what follows it. -/
def takeCount : Bytes → Option Count × Bytes
  | [] => (none, [])
  | b :: s =>
    if b = byte '*' then (some .argument, s)
    else
      let digits := (b :: s).takeWhile isDigitByte
      if digits.isEmpty then (none, b :: s)
      else
        (some (.number (digits.foldl (fun v d => v * 10 + (d - byte '0').toNat) 0)),
          (b :: s).drop digits.length)

/-- A precision at the front of a format, and what follows it. -/
def takePrecision : Bytes → Option Count × Bytes
  | [] => (none, [])
  | b :: s =>
    if b = byte '.' then
      let (n, rest) := takeCount s
      (some (n.getD (.number 0)), rest)
    else (none, b :: s)

theorem length_takeCount_le (s : Bytes) : (takeCount s).2.length ≤ s.length := by
  unfold takeCount
  split
  · simp
  · dsimp only
    split
    · simp
    · split <;> simp

theorem length_takePrecision_le (s : Bytes) : (takePrecision s).2.length ≤ s.length := by
  unfold takePrecision
  split
  · simp
  · rename_i b s
    have := length_takeCount_le s
    dsimp only
    split
    · simp only [List.length_cons]
      omega
    · simp

def isFlag (b : UInt8) : Bool := "-+ #0".toList.any (byte · = b)

/-- What a format says to do, in turn. -/
def directives : Bytes → List Directive
  | [] => []
  | b :: s =>
    if b = byte '\\' then
      match s with
      | [] => [.write [b]]
      | c :: rest =>
        if isOctal c then .write [(octal 3 (c :: rest)).1] :: directives (octal 3 (c :: rest)).2
        else if c = byte 'c' then [.stop]
        else .write (((control? c).map ([·])).getD [b, c]) :: directives rest
    else if b = byte '%' then
      match s with
      | [] => [.write [b], .fail]
      | c :: rest =>
        if c = byte '%' then .write [b] :: directives rest
        else
          let flags := (c :: rest).takeWhile isFlag
          let width := takeCount ((c :: rest).dropWhile isFlag)
          let precision := takePrecision width.2
          .convert flags width.1 precision.1 precision.2.head? :: directives (precision.2.drop 1)
    else .write [b] :: directives s
termination_by s => s.length
decreasing_by
  · have := length_octal_le 3 (c :: rest)
    simp only [List.length_cons] at this ⊢
    omega
  · simp only [List.length_cons]
    omega
  · simp only [List.length_cons]
    omega
  · have h₁ := (List.dropWhile_suffix (l := c :: rest) isFlag).length_le
    have h₂ := length_takeCount_le ((c :: rest).dropWhile isFlag)
    have h₃ := length_takePrecision_le (takeCount ((c :: rest).dropWhile isFlag)).2
    simp only [List.length_cons, List.length_drop] at h₁ ⊢
    omega
  · simp

/-- What one pass of a format writes: the output, the arguments left, whether all was well,
    and whether the output ends there. -/
structure Pass where
  out : Bytes := []
  args : List Bytes
  success : Bool := true
  stop : Bool := false

namespace Pass

def write (bs : Bytes) (p : Pass) : Pass := { p with out := p.out ++ bs }

/-- The value of a number in a format, which may take an argument. -/
def count (p : Pass) : Option Count → Option Nat × Pass
  | none => (none, p)
  | some (.number n) => (some n, p)
  | some .argument =>
    match p.args with
    | [] => (some 0, p)
    | a :: more => (some (integer a).1.toNat, { p with args := more })

/-- Write an argument in a way that a letter tells. -/
def convert (p : Pass) (flags : Bytes) (width : Nat) (precision : Option Nat) (letter : UInt8) :
    Pass :=
  let left := flags.contains (byte '-')
  let cut (t : Bytes) : Bytes := (precision.map t.take).getD t
  let argument := p.args.head?
  let text := argument.getD []
  let next : Pass := { p with args := p.args.drop 1 }
  let number (base : Nat) (upper : Bool) : Pass :=
    let (n, whole) := integer text
    let out := Conversion.integerText ⟨flags, width, precision⟩ n base upper
    { next with success := next.success && (whole || argument.isNone) }.write out
  let padded (t : Bytes) : Pass := next.write (pad width left (byte ' ') t)
  if letter = byte 's' then padded (cut text)
  else if letter = byte 'b' then
    let (t, stop) := unescape text
    { padded (cut t) with stop := stop }
  else if letter = byte 'c' then padded (text.take 1)
  else if letter = byte 'd' || letter = byte 'i' || letter = byte 'u' then number 10 false
  else if letter = byte 'o' then number 8 false
  else if letter = byte 'x' then number 16 false
  else if letter = byte 'X' then number 16 true
  else { p with success := false, stop := true }

/-- Do what a format says, unless the output has ended. -/
def carryOut (p : Pass) (d : Directive) : Pass :=
  if p.stop then p
  else
    match d with
    | .write bs => p.write bs
    | .stop => { p with stop := true }
    | .fail => { p with success := false }
    | .convert flags width precision letter =>
      let (width, p) := p.count width
      let (precision, p) := p.count precision
      match letter with
      | none => { p with success := false }
      | some letter => p.convert flags (width.getD 0) precision letter

end Pass

/-- Do once what a format says. -/
def formatOnce (format : List Directive) (args : List Bytes) : Pass :=
  format.foldl Pass.carryOut { args := args }

/-- What `printf` writes, and whether all was well. What the format says is done again as
    long as it takes arguments and some are left. -/
def printf (format : List Directive) (args : List Bytes) : Bytes × Bool :=
  let p := formatOnce format args
  if p.stop || p.args.isEmpty then (p.out, p.success)
  else if p.args.length < args.length then
    let (out, success) := printf format p.args
    (p.out ++ out, p.success && success)
  else (p.out, p.success)
termination_by args.length

/-- The bytes of a named class. -/
def classBytes (name : String) : Option Bytes :=
  let all := (List.range 128).map UInt8.ofNat
  let some' (p : Char → Bool) : Option Bytes := some (all.filter fun b => p (Char.ofNat b.toNat))
  let isPunct (c : Char) := 33 ≤ c.toNat && c.toNat ≤ 126 && !c.isAlphanum
  match name with
  | "upper" => some' Char.isUpper
  | "lower" => some' Char.isLower
  | "alpha" => some' Char.isAlpha
  | "digit" => some' Char.isDigit
  | "alnum" => some' Char.isAlphanum
  | "space" => some' fun c => c.isWhitespace || c = '\x0b' || c = '\x0c'
  | "blank" => some' fun c => c = ' ' || c = '\t'
  | "punct" => some' isPunct
  | "cntrl" => some' fun c => c.toNat < 32 || c.toNat = 127
  | "print" => some' fun c => 32 ≤ c.toNat && c.toNat ≤ 126
  | "graph" => some' fun c => 33 ≤ c.toNat && c.toNat ≤ 126
  | "xdigit" => some' fun c => c.isDigit || ('a' ≤ c.toLower && c.toLower ≤ 'f')
  | _ => none

/-- One byte of a set, with its escape carried out. -/
def setByte : Bytes → Option (UInt8 × Bytes)
  | [] => none
  | b :: s =>
    if b ≠ byte '\\' then some (b, s)
    else
      match s with
      | [] => some (b, [])
      | c :: rest =>
        if isOctal c then some (octal 3 s)
        else some ((control? c).getD c, rest)

theorem length_setByte_lt {s rest : Bytes} {b : UInt8} (h : setByte s = some (b, rest)) :
    rest.length < s.length := by
  unfold setByte at h
  split at h
  · cases h
  · split at h
    · cases h
      simp
    · split at h
      · cases h
        simp
      · rename_i c more
        split at h
        · have := length_octal_le 3 (c :: more)
          rw [Option.some.inj h] at this
          exact Nat.lt_succ_of_le this
        · cases h
          simp only [List.length_cons]
          omega

/-- The bytes of a named class at the front of a set, and what follows it. -/
def setClass (s : Bytes) : Option (Bytes × Bytes) :=
  if (bytes "[:").isPrefixOf s then
    let name := (s.drop 2).takeWhile (· ≠ byte ':')
    (classBytes (Utf8.decodeLossy name)).map fun bs => (bs, s.drop (name.length + 4))
  else none

/-- The bytes of a set of `tr`, in order: single bytes, ranges and classes. -/
def setBytes : Bytes → Bytes
  | [] => []
  | b :: s =>
    match setClass (b :: s) with
    | some (bs, rest) => if rest.length < (b :: s).length then bs ++ setBytes rest else bs
    | none =>
      match _h : setByte (b :: s) with
      | none => []
      | some (lo, rest) =>
        match rest with
        | [] => [lo]
        | dash :: more =>
          if dash = byte '-' then
            match _h' : setByte more with
            | none => [lo, dash]
            | some (hi, rest) =>
              let range := (List.range (hi.toNat + 1 - lo.toNat)).map fun i =>
                UInt8.ofNat (lo.toNat + i)
              range ++ setBytes rest
          else lo :: setBytes (dash :: more)
termination_by s => s.length
decreasing_by
  · assumption
  · have := length_setByte_lt _h
    have := length_setByte_lt _h'
    simp only [List.length_cons] at *
    omega
  · exact length_setByte_lt _h

/-- A run of equal bytes of a set becomes one. -/
def squeeze (set : Bytes) : Bytes → Bytes
  | [] => []
  | [b] => [b]
  | b :: c :: s =>
    if b = c && set.contains b then squeeze set (c :: s) else b :: squeeze set (c :: s)

/-- What `tr` makes of its input, or `none` if its arguments are wrong. -/
def translate (flags : List Char) (sets : List Bytes) (input : Bytes) : Option Bytes :=
  let isComplement := flags.contains 'c' || flags.contains 'C'
  let first := (sets.map setBytes).head?.getD []
  let first := if isComplement then
      ((List.range 256).map UInt8.ofNat).filter fun b => !first.contains b
    else first
  let second := ((sets.map setBytes).drop 1).head?
  let removes := flags.contains 'd'
  let squeezes := flags.contains 's'
  match sets.length, second with
  | 1, _ =>
    if removes then some (input.filter fun b => !first.contains b)
    else if squeezes then some (squeeze first input)
    else none
  | 2, some second =>
    if removes then
      if squeezes then some (squeeze second (input.filter fun b => !first.contains b)) else none
    else
      match second.getLast? with
      | none => none
      | some last =>
        let change (b : UInt8) : UInt8 :=
          match first.reverse.idxOf? b with
          | none => b
          | some i => (second[first.length - 1 - i]?).getD last
        let changed := input.map change
        some (if squeezes then squeeze second changed else changed)
  | _, _ => none

end Catena.Shell
