/-!
# Shell scripts

The commands of a small shell: a command line as a tree. A word is a sequence of pieces,
each of which was quoted or not; quoted pieces are never split into several words.
-/

namespace Catena.Shell

/-- What a redirection does with a stream. -/
inductive Redirection where
  /-- Read from a file. -/
  | source
  /-- Write to a file, which is emptied first. -/
  | replace
  /-- Write at the end of a file. -/
  | extend
  /-- Write where another stream writes. -/
  | duplicate
  /-- Read a text that is part of the script. -/
  | document
  /-- Read a text that is part of the script, without the tabs in front of its lines. -/
  | indented
deriving DecidableEq, Repr

/-- What stands in the place of a parameter. With `orEmpty` an empty value is no value. -/
inductive Operator where
  /-- Its value. -/
  | value
  /-- How many bytes its value has. -/
  | length
  /-- Its value, or else the argument. -/
  | preset (orEmpty : Bool)
  /-- Its value, or else the argument, which is assigned then. -/
  | assign (orEmpty : Bool)
  /-- The argument, if it has a value. -/
  | replace (orEmpty : Bool)
  /-- Its value, without which the script ends. -/
  | demand (orEmpty : Bool)
  /-- Its value without a part at the front that the argument fits. -/
  | dropFront (longest : Bool)
  /-- Its value without a part at the end that the argument fits. -/
  | dropEnd (longest : Bool)
deriving DecidableEq, Repr

mutual

/-- A piece of a word. -/
inductive Piece where
  /-- Characters that stand for themselves. -/
  | text (chars : String) (quoted : Bool)
  /-- A parameter, with an operator and its argument. -/
  | parameter (name : String) (operator : Operator) (argument : List Piece) (quoted : Bool)
  /-- The value of an arithmetic expression. -/
  | arithmetic (expression : List Piece) (quoted : Bool)
  /-- What a command writes. -/
  | output (command : Command) (quoted : Bool)

/-- A command. -/
inductive Command where
  /-- Assignments, and a command with its arguments. -/
  | simple (assignments : List (String × List Piece)) (words : List (List Piece))
  /-- A command with streams redirected, one after another. -/
  | redirected (command : Command) (redirections : List (Nat × Redirection × List Piece))
  /-- Commands one after another. -/
  | sequence (commands : List Command)
  /-- The second command if the first succeeds. -/
  | both (first second : Command)
  /-- The second command if the first fails. -/
  | either (first second : Command)
  /-- A command whose success is failure. -/
  | negated (command : Command)
  /-- Two commands, the second reading what the first writes. -/
  | pipe (first second : Command)
  /-- A command whose assignments are its own. -/
  | subshell (command : Command)
  | branch (condition consequent alternative : Command)
  /-- A body as long as a condition succeeds, or fails. -/
  | loop (untilSuccess : Bool) (condition body : Command)
  /-- A body for each of some words. -/
  | each (name : String) (words : List (List Piece)) (body : Command)
  /-- The first arm with a pattern that fits a word. -/
  | choose (word : List Piece) (arms : List (List (List Piece) × Command))
  /-- Give a command a name. -/
  | function (name : String) (body : Command)

end

/-- A word of a script. -/
abbrev ScriptWord := List Piece

/-- Whether a piece was quoted. -/
def Piece.isQuoted : Piece → Bool
  | text _ q | parameter _ _ _ q | arithmetic _ q | output _ q => q

end Catena.Shell
