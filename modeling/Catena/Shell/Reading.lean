/-!
# Readers

A reader takes characters off the front of a text, or fails. A reader that goes on for as
long as there is something to read is made of one step (`Reader.iterate`, `Reader.many`), and
one that reads what may stand inside of itself does so on shorter texts only
(`Reader.shorter`): both come to an end because every round takes something.
-/

namespace Catena.Shell

def isNameStart (c : Char) : Bool := c.isAlpha || c == '_'

def isNamePart (c : Char) : Bool := c.isAlphanum || c == '_'

/-- A reader takes characters off the front of a text, or fails. -/
abbrev Reader := StateT (List Char) Option

namespace Reader

variable {α σ : Type}

/-- Take the characters for which `p` holds. -/
def takeRun (p : Char → Bool) : Reader String := fun s =>
  some (String.ofList (s.takeWhile p), s.dropWhile p)

/-- Take a text if it stands at the front. -/
def accept (t : String) : Reader Bool := fun s =>
  if t.toList.isPrefixOf s then some (true, s.drop t.length) else some (false, s)

/-- Take a text, which must stand at the front. -/
def expect (t : String) : Reader Unit := do
  if ← accept t then return else failure

/-- Take the characters up to a mark, and the mark. -/
def upTo (mark : Char) : Reader String := do
  let t ← takeRun (· ≠ mark)
  expect (String.singleton mark)
  return t

/-- Repeat a step up to its answer. A step that is not the last must take something. -/
def iterate (step : σ → Reader (σ ⊕ α)) (x : σ) : Reader α := fun s =>
  match step x s with
  | none => none
  | some (.inr a, rest) => some (a, rest)
  | some (.inl y, rest) => if rest.length < s.length then iterate step y rest else none
termination_by s => s.length

/-- Read items as long as there are any. -/
def many (item : Reader (Option α)) : Reader (List α) :=
  iterate next []
where
  next (items : List α) : Reader (List α ⊕ List α) := do
    match ← item with
    | none => return .inr items.reverse
    | some a => return .inl (a :: items)

/-- A reader for a text of less than some length, given the length that the text has. -/
def shorter (length : Nat) (reader : (n : Nat) → n < length → Reader α) : Reader α := fun s =>
  if h : s.length < length then reader s.length h s else none

end Reader

end Catena.Shell
