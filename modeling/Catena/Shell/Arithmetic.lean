import Catena.Shell.Reading

/-!
# Arithmetic in a shell

Expressions over whole numbers of 64 bits with the usual operators, the loosest first:
choice, or, and, bitwise operators, equality, order, shifts, sums, products, signs.
Names stand for the numbers that their values are. An expression may assign to a name;
its value is the number assigned.
-/

namespace Catena.Shell.Arithmetic

/-! ### Operators -/

/-- A number in the range of 64 bits. -/
def wrap (n : Int) : Int := Int.bmod n 0x10000000000000000

def ofBool (b : Bool) : Int := if b then 1 else 0

def bits (f : BitVec 64 → BitVec 64 → BitVec 64) (a b : Int) : Option Int :=
  some (f (BitVec.ofInt 64 a) (BitVec.ofInt 64 b)).toInt

def quotient (a b : Int) : Option Int := if b = 0 then none else some (wrap (a.tdiv b))

def remainder (a b : Int) : Option Int := if b = 0 then none else some (a.tmod b)

/-- Operators that join two operands: the text, what may not follow it, the function,
    which is undefined for a division by zero. -/
abbrev Level := List (String × List Char × (Int → Int → Option Int))

/-- The levels of operators, the loosest first. -/
def levels : List Level :=
  [[("||", [], fun a b => some (ofBool (a ≠ 0 || b ≠ 0)))],
   [("&&", [], fun a b => some (ofBool (a ≠ 0 && b ≠ 0)))],
   [("|", ['|', '='], bits (· ||| ·))],
   [("^", ['='], bits (· ^^^ ·))],
   [("&", ['&', '='], bits (· &&& ·))],
   [("==", [], fun a b => some (ofBool (a = b))), ("!=", [], fun a b => some (ofBool (a ≠ b)))],
   [("<=", [], fun a b => some (ofBool (a ≤ b))), (">=", [], fun a b => some (ofBool (b ≤ a))),
    ("<", ['<'], fun a b => some (ofBool (a < b))), (">", ['>'], fun a b => some (ofBool (b < a)))],
   [("<<", ['='], fun a b => some (wrap (a * Nat.pow 2 (b % 64).toNat))),
    (">>", ['='], fun a b => some (a >>> (b % 64).toNat))],
   [("+", ['='], fun a b => some (wrap (a + b))), ("-", ['='], fun a b => some (wrap (a - b)))],
   [("*", ['='], fun a b => some (wrap (a * b))), ("/", ['='], quotient), ("%", ['='], remainder)]]

/-- Assignments with an operator. -/
def updates : Level :=
  [("+=", [], fun a b => some (wrap (a + b))), ("-=", [], fun a b => some (wrap (a - b))),
   ("*=", [], fun a b => some (wrap (a * b))), ("/=", [], quotient), ("%=", [], remainder),
   ("=", ['='], fun _ b => some b)]

/-- An expression. -/
inductive Expr where
  | number (n : Int)
  | name (name : String)
  /-- Assign to a name what a function makes of its number and another. -/
  | update (name : String) (f : Int → Int → Option Int) (e : Expr)
  | unary (f : Int → Int) (e : Expr)
  | binary (f : Int → Int → Option Int) (a b : Expr)
  | choice (condition a b : Expr)

/-! ### Reading -/

def skip : Reader Unit := modify fun s => s.dropWhile Char.isWhitespace

/-- Take an operator, unless it is the beginning of a longer one. -/
def accept (operator : String) (barred : List Char) : Reader Bool := do
  skip
  let s ← get
  let rest := s.drop operator.length
  if operator.toList.isPrefixOf s && !rest.head?.any barred.contains then do
    set rest
    return true
  else return false

/-- Take an operator, which must stand at the front. -/
def expect (operator : String) : Reader Unit := do
  if ← accept operator [] then return else failure

def acceptOperator : Level → Reader (Option (Int → Int → Option Int))
  | [] => return none
  | (t, barred, f) :: rest => do
    if ← accept t barred then return some f else acceptOperator rest

/-- The number of a run of letters and digits that begins with a digit. -/
def literal (s : List Char) : Option Int :=
  let digit (c : Char) : Nat :=
    if c.isDigit then c.toNat - 48 else c.toLower.toNat - 87
  let number (base : Nat) (ds : List Char) : Option Int :=
    if ds.all fun c => digit c < base then
      some (ds.foldl (fun v c => v * base + digit c) 0 : Nat)
    else none
  match s with
  | '0' :: 'x' :: ds => number 16 ds
  | '0' :: 'X' :: ds => number 16 ds
  | '0' :: ds => number 8 ds
  | ds => number 10 ds

/-- The readers of what stands inside of an expression. -/
structure Nested where
  expression : Reader Expr
  primary : Reader Expr

namespace Nested

/-- A name, or an assignment to it. -/
def named (nested : Nested) (name : String) : Reader Expr := do
  match ← acceptOperator updates with
  | none => return .name name
  | some f => return .update name f (← nested.expression)

/-- An operand without operators around it. -/
def primaryWith (nested : Nested) : Reader Expr := do
  skip
  match ← get with
  | [] => failure
  | '(' :: s => do
    set s
    let e ← nested.expression
    expect ")"
    return e
  | '-' :: s => do set s; return .unary (fun v => wrap (-v)) (← nested.primary)
  | '+' :: s => do set s; nested.primary
  | '!' :: s => do set s; return .unary (fun v => ofBool (v = 0)) (← nested.primary)
  | '~' :: s => do set s; return .unary (fun v => -v - 1) (← nested.primary)
  | c :: s => do
    let name := (c :: s).takeWhile isNamePart
    set ((c :: s).dropWhile isNamePart)
    if c.isDigit then
      match literal name with
      | some v => return .number (wrap v)
      | none => failure
    else if name.isEmpty then failure
    else nested.named (String.ofList name)

/-- Join an operand to the next one, if there is an operator of a level. -/
def join (level : Level) (operand : Reader Expr) (a : Expr) : Reader (Expr ⊕ Expr) := do
  match ← acceptOperator level with
  | none => return .inr a
  | some f => return .inl (.binary f a (← operand))

/-- Operands joined by the operators of some levels. -/
def operand (nested : Nested) : List Level → Reader Expr
  | [] => nested.primaryWith
  | level :: tighter => do
    let a ← nested.operand tighter
    Reader.iterate (join level (nested.operand tighter)) a

/-- A whole expression. -/
def expressionWith (nested : Nested) : Reader Expr := do
  let c ← nested.operand levels
  if ← accept "?" [] then do
    let a ← nested.expression
    expect ":"
    let b ← nested.expression
    return .choice c a b
  else return c

end Nested

/-- The readers of expressions in texts of less than some length. -/
def nested (length : Nat) : Nested :=
  { expression := Reader.shorter length fun n _ => (nested n).expressionWith
    primary := Reader.shorter length fun n _ => (nested n).primaryWith }
termination_by length

/-- The expression that a text is. -/
def readExpr (source : List Char) : Option Expr := do
  let (e, rest) ← (nested source.length).expressionWith source
  if rest.all Char.isWhitespace then return e else none

/-! ### Values -/

/-- What a name stands for, and the assignments made so far, the latest in front. -/
structure Names where
  value : String → Option Int
  assigned : List (String × Int) := []

/-- The number that a name stands for. -/
def Names.get (names : Names) (name : String) : Option Int :=
  match names.assigned.lookup name with
  | some v => some v
  | none => names.value name

/-- The value of an expression, whose assignments are made. Both sides of a choice have
    one. -/
def Expr.eval : Expr → StateT Names Option Int
  | number n => return n
  | name n => do (← get).get n
  | update n f e => do
    let before := ((← get).get n).getD 0
    let v ← f before (← e.eval)
    modify fun names => { names with assigned := (n, v) :: names.assigned }
    return v
  | unary f e => do return f (← e.eval)
  | binary f a b => do f (← a.eval) (← b.eval)
  | choice condition a b => do
    let c ← condition.eval
    let v ← a.eval
    let w ← b.eval
    return if c ≠ 0 then v else w

/-- The value of an expression and the assignments that it makes, the latest in front;
    an empty expression is zero. -/
def value (names : String → Option Int) (source : List Char) :
    Option (Int × List (String × Int)) := do
  if source.all Char.isWhitespace then return (0, [])
  let e ← readExpr source
  let (v, names) ← e.eval ⟨names, []⟩
  return (v, names.assigned)

end Catena.Shell.Arithmetic
