import Catena.Shell.Reading
import Catena.Shell.Script

/-!
# Reading shell scripts

A script is read line by line, each line with all the lines that its constructs take. A
line that cannot be read ends the script: the lines before it stand.
-/

namespace Catena.Shell

namespace Reader

/-! ### Marks and words -/

/-- The characters that end a word unless they are quoted. -/
def isMeta (c : Char) : Bool := " \t\n;&|<>()".toList.contains c

/-- The characters that stand for themselves in a word without quotation. -/
def isPlain (c : Char) : Bool := !isMeta c && !"'\"\\$`".toList.contains c

/-- Take blanks, joined lines and a comment. -/
def skipBlanks : Reader Unit := fun s => some ((), go s)
where
  go : List Char → List Char
    | '\\' :: '\n' :: s => go s
    | ' ' :: s => go s
    | '\t' :: s => go s
    | '#' :: s => s.dropWhile (· ≠ '\n')
    | s => s

/-- Take blanks and ends of lines. -/
def skipLines : Reader Unit :=
  iterate (fun () => do
    skipBlanks
    return if ← accept "\n" then .inl () else .inr ()) ()

/-- The word without quotation at the front, which is not taken. -/
def bareWord : Reader String := do
  return String.ofList ((← get).takeWhile isPlain)

/-- Take a reserved word if it stands at the front as a whole word. -/
def acceptWord (t : String) : Reader Bool := do
  if (← bareWord) = t then accept t else return false

def expectWord (t : String) : Reader Unit := do
  if ← acceptWord t then return else failure

/-- The words that end a list of commands. -/
def closingWords : List String := ["then", "else", "elif", "fi", "do", "done", "esac", "\x7d"]

/-- The lines of a text that is part of the script, up to a line that ends it, and what
    follows that line. Lines of an indented text lose the tabs in front. -/
def documentLines (indented : Bool) (delimiter : List Char) : List Char → List Char × List Char
  | [] => ([], [])
  | c :: s =>
    let line := (c :: s).takeWhile (· ≠ '\n')
    let line := if indented then line.dropWhile (· = '\t') else line
    let after := ((c :: s).dropWhile (· ≠ '\n')).drop 1
    if line = delimiter then ([], after)
    else
      let (more, rest) := documentLines indented delimiter after
      (line ++ '\n' :: more, rest)
termination_by s => s.length
decreasing_by
  have := (List.dropWhile_suffix (l := c :: s) (· ≠ '\n')).length_le
  simp only [List.length_drop, List.length_cons] at this ⊢
  omega

/-- Take the text of a document out of the lines that follow. -/
def takeDocument (indented : Bool) (delimiter : String) : Reader (List Char) := fun s =>
  let line := s.takeWhile (· ≠ '\n')
  let (document, rest) := documentLines indented delimiter.toList (s.drop (line.length + 1))
  some (document, line ++ '\n' :: rest)

/-- The characters of the pieces of a word, without quotation. -/
def plainText (word : ScriptWord) : String :=
  String.join (word.map fun
    | .text t _ => t
    | _ => "")

/-- Whether a piece is text with quotation. -/
def isQuotedText : Piece → Bool
  | .text _ isQuoted => isQuoted
  | _ => false

/-- A word that assigns to a name, as the name and the value. -/
def assignment? : ScriptWord → Option (String × ScriptWord)
  | .text t false :: more =>
    let name := t.toList.takeWhile (· ≠ '=')
    match t.toList.drop name.length, name with
    | '=' :: value, c :: cs =>
      if isNameStart c && cs.all isNamePart then
        let rest := if value.isEmpty then more else .text (String.ofList value) false :: more
        some (String.ofList name, rest)
      else none
    | _, _ => none
  | _ => none

/-- The operators of parameters that have an argument, the longest first. -/
def operators : List (String × Operator) :=
  [(":-", .preset true), (":=", .assign true), (":+", .replace true), (":?", .demand true),
   ("%%", .dropEnd true), ("##", .dropFront true), ("-", .preset false), ("=", .assign false),
   ("+", .replace false), ("?", .demand false), ("%", .dropEnd false), ("#", .dropFront false)]

/-- Take the first of some operators that stands at the front. -/
def acceptOperator : List (String × Operator) → Reader (Option Operator)
  | [] => return none
  | (t, o) :: more => do
    if ← accept t then return some o else acceptOperator more

/-- The parameters that are written as one mark. -/
def isSpecialParameter (c : Char) : Bool := "?#@*!$-".toList.contains c

/-- Take the name of a parameter in braces. -/
def parameterName : Reader String := do
  let name ← takeRun isNamePart
  if name ≠ "" then return name
  match ← get with
  | c :: s =>
    if isSpecialParameter c then do
      set s
      return String.singleton c
    else failure
  | [] => failure

/-- Take the characters up to a backquote, without the backslashes in front of special
    ones. -/
def unescaped : List Char → Option (List Char × List Char)
  | [] => none
  | '`' :: s => some ([], s)
  | '\\' :: c :: s =>
    (unescaped s).map fun (t, rest) =>
      (if c = '`' ∨ c = '\\' ∨ c = '$' then c :: t else '\\' :: c :: t, rest)
  | c :: s => (unescaped s).map fun (t, rest) => (c :: t, rest)

/-- Whether a list of commands ends here. -/
def atClosing : Reader Bool := do
  match ← get with
  | [] => return true
  | ')' :: _ => return true
  | ';' :: ';' :: _ => return true
  | _ => return closingWords.contains (← bareWord)

/-- The stream, the kind and the mark of a redirection at the front. -/
def acceptRedirection : Reader (Option (Nat × Redirection)) := fun s =>
  let digits := s.takeWhile Char.isDigit
  let rest := s.drop digits.length
  let stream (n : Nat) := if digits.isEmpty then n else Nat.ofDigitChars 10 digits 0
  match rest with
  | '<' :: '<' :: '-' :: r => some (some (stream 0, .indented), r)
  | '<' :: '<' :: r => some (some (stream 0, .document), r)
  | '<' :: '&' :: r => some (some (stream 0, .duplicate), r)
  | '<' :: r => some (some (stream 0, .source), r)
  | '>' :: '>' :: r => some (some (stream 1, .extend), r)
  | '>' :: '&' :: r => some (some (stream 1, .duplicate), r)
  | '>' :: '|' :: r => some (some (stream 1, .replace), r)
  | '>' :: r => some (some (stream 1, .replace), r)
  | _ => some (none, s)

/-- Take the name of a function and its parentheses if they stand at the front. -/
def acceptFunction : Reader (Option String) := fun s =>
  let name := s.takeWhile isNamePart
  match name, (s.drop name.length).dropWhile (· = ' ') with
  | c :: _, '(' :: ')' :: rest =>
    if isNameStart c then some (some (String.ofList name), rest) else some (none, s)
  | _, _ => some (none, s)

/-! ### Words -/

/-- The readers of what stands inside of the constructs that it is itself part of. -/
structure Nested where
  /-- What follows a dollar sign. -/
  dollar : (isQuoted : Bool) → Reader Piece
  /-- Commands on one or several lines. -/
  commands : Reader Command
  /-- One command. -/
  command : Reader Command

namespace Nested

variable (nested : Nested)

/-- A command between backquotes. -/
def backquoted (isQuoted : Bool) : Reader Piece := do
  match unescaped (← get) with
  | none => failure
  | some (source, after) => do
    set source
    let c ← nested.commands
    unless (← get).isEmpty do failure
    set after
    return .output c isQuoted

/-- The next pieces between quotation marks, up to the mark, or up to the end if there is
    none. -/
def quotedPart (mark : Option Char) : Reader (Option ScriptWord) := do
  match ← get with
  | [] => if mark.isSome then failure else return none
  | '\\' :: '\n' :: s => do set s; return some []
  | '\\' :: c :: s => do
    set s
    let t := if c = '$' ∨ c = '`' ∨ c = '\\' ∨ some c = mark then [c] else ['\\', c]
    return some [.text (String.ofList t) true]
  | '$' :: s => do set s; return some [← nested.dollar true]
  | '`' :: s => do set s; return some [← nested.backquoted true]
  | c :: s => do
    set s
    return if some c = mark then none else some [.text (String.singleton c) true]

/-- The pieces between quotation marks. -/
def quoted (mark : Option Char) : Reader ScriptWord := do
  return (← many (nested.quotedPart mark)).flatten

/-- The next pieces of a word, unless it ends. -/
def wordPart : Reader (Option ScriptWord) := do
  match ← get with
  | [] => return none
  | '\\' :: '\n' :: s => do set s; return some []
  | '\\' :: c :: s => do set s; return some [.text (String.singleton c) true]
  | '\'' :: s => do set s; return some [.text (← upTo '\'') true]
  | '\"' :: s => do set s; return some (.text "" true :: (← nested.quoted (some '\"')))
  | '$' :: s => do set s; return some [← nested.dollar false]
  | '`' :: s => do set s; return some [← nested.backquoted false]
  | c :: s =>
    if isMeta c then return none
    else if isPlain c then return some [.text (← takeRun isPlain) false]
    else do set s; return some [.text (String.singleton c) false]

/-- The pieces of a word, which may be none. -/
def word : Reader ScriptWord := do
  return (← many nested.wordPart).flatten

/-- The next pieces of the argument of a parameter's operator, up to the closing brace. -/
def argumentPart (isQuoted : Bool) : Reader (Option ScriptWord) := do
  match ← get with
  | [] => failure
  | '}' :: s => do set s; return none
  | '\\' :: c :: s => do set s; return some [.text (String.singleton c) true]
  | '\'' :: s => do
    set s
    let t ← if isQuoted then pure "'" else upTo '\''
    return some [.text t true]
  | '\"' :: s => do set s; return some (.text "" true :: (← nested.quoted (some '\"')))
  | '$' :: s => do set s; return some [← nested.dollar isQuoted]
  | '`' :: s => do set s; return some [← nested.backquoted isQuoted]
  | c :: s => do set s; return some [.text (String.singleton c) isQuoted]

/-- A parameter in braces. -/
def braces (isQuoted : Bool) : Reader Piece := do
  match ← get with
  | '#' :: '}' :: s => do set s; return .parameter "#" .value [] isQuoted
  | '#' :: c :: s => do
    set (c :: s)
    let name ← parameterName
    expect "\x7d"
    return .parameter name .length [] isQuoted
  | _ => do
    let name ← parameterName
    if ← accept "\x7d" then return .parameter name .value [] isQuoted
    match ← acceptOperator operators with
    | none => failure
    | some operator => do
      let argument ← many (nested.argumentPart isQuoted)
      return .parameter name operator argument.flatten isQuoted

/-- The next pieces of an arithmetic expression up to its two closing parentheses, with so
    many parentheses open in it and with the pieces read so far, the latest in front. -/
def expressionPart : Nat × ScriptWord → Reader ((Nat × ScriptWord) ⊕ ScriptWord)
  | (depth, read) => do
    match ← get with
    | [] => failure
    | '$' :: s => do set s; return .inl (depth, (← nested.dollar true) :: read)
    | '`' :: s => do set s; return .inl (depth, (← nested.backquoted true) :: read)
    | '\"' :: s => do set s; return .inl (depth, read)
    | '\\' :: '\n' :: s => do set s; return .inl (depth, read)
    | '(' :: s => do set s; return .inl (depth + 1, .text "(" true :: read)
    | ')' :: s => do
      set s
      if depth = 0 then do
        expect ")"
        return .inr read.reverse
      else return .inl (depth - 1, .text ")" true :: read)
    | c :: s => do set s; return .inl (depth, .text (String.singleton c) true :: read)

/-- What follows a dollar sign. -/
def dollarWith (isQuoted : Bool) : Reader Piece := do
  match ← get with
  | '(' :: '(' :: s => do
    set s
    return .arithmetic (← iterate nested.expressionPart (0, [])) isQuoted
  | '(' :: s => do
    set s
    let c ← nested.commands
    expect ")"
    return .output c isQuoted
  | '{' :: s => do set s; nested.braces isQuoted
  | c :: s =>
    if isNameStart c then
      return .parameter (← takeRun isNamePart) .value [] isQuoted
    else if c.isDigit || isSpecialParameter c then do
      set s
      return .parameter (String.singleton c) .value [] isQuoted
    else return .text "$" isQuoted
  | [] => return .text "$" isQuoted

/-! ### Redirections -/

/-- Where a redirection leads. -/
def target (how : Redirection) : Reader ScriptWord := do
  skipBlanks
  let w ← nested.word
  if w.isEmpty then failure
  if how ≠ .document ∧ how ≠ .indented then return w
  let document ← takeDocument (how = .indented) (plainText w)
  if w.any isQuotedText then return [.text (String.ofList document) true]
  else do
    let after ← get
    set document
    let inner ← nested.quoted none
    set after
    return inner

/-- The next redirection, if there is one. -/
def redirection : Reader (Option (Nat × Redirection × ScriptWord)) := do
  skipBlanks
  match ← acceptRedirection with
  | none => return none
  | some (stream, how) => return some (stream, how, ← nested.target how)

/-- A command with the redirections that follow it. -/
def withRedirections (c : Command) : Reader Command := do
  match ← many nested.redirection with
  | [] => return c
  | rs => return .redirected c rs

/-! ### Simple commands -/

/-- The parts of a simple command that have been read, each with the latest in front. -/
structure Parts where
  assignments : List (String × ScriptWord) := []
  words : List ScriptWord := []
  redirections : List (Nat × Redirection × ScriptWord) := []

/-- The command that parts make up, if there are any. -/
def Parts.command? : Parts → Option Command
  | ⟨[], [], []⟩ => none
  | ⟨assignments, words, []⟩ => some (.simple assignments.reverse words.reverse)
  | ⟨assignments, words, redirections⟩ =>
    some (.redirected (.simple assignments.reverse words.reverse) redirections.reverse)

/-- The parts with a word, which is an assignment if no other word stands in front of it. -/
def Parts.addWord (parts : Parts) (w : ScriptWord) : Parts :=
  match parts.words, assignment? w with
  | [], some a => { parts with assignments := a :: parts.assignments }
  | _, _ => { parts with words := w :: parts.words }

/-- The next part of a simple command. -/
def simplePart (parts : Parts) : Reader (Parts ⊕ Command) := do
  match ← nested.redirection with
  | some r => return .inl { parts with redirections := r :: parts.redirections }
  | none =>
    match ← nested.word with
    | [] => do return .inr (← parts.command?)
    | w => return .inl (parts.addWord w)

/-! ### Constructs -/

/-- What stands between the word `if` and its end, given the conditions so far and what
    they lead to, the latest in front. -/
def branch (branches : List (Command × Command)) :
    Reader (List (Command × Command) ⊕ Command) := do
  let condition ← nested.commands
  expectWord "then"
  let consequent ← nested.commands
  let branches := (condition, consequent) :: branches
  if ← acceptWord "elif" then return .inl branches
  else if ← acceptWord "else" then do
    let alternative ← nested.commands
    expectWord "fi"
    return .inr (chain branches alternative)
  else do
    expectWord "fi"
    return .inr (chain branches (.sequence []))
where
  chain (branches : List (Command × Command)) (alternative : Command) : Command :=
    branches.foldl (fun c (condition, consequent) => .branch condition consequent c) alternative

/-- What stands between the words `do` and `done`. -/
def body : Reader Command := do
  expectWord "do"
  let c ← nested.commands
  expectWord "done"
  return c

/-- What stands after the word `while` or `until`. -/
def loop (untilSuccess : Bool) : Reader Command := do
  let condition ← nested.commands
  return .loop untilSuccess condition (← nested.body)

/-- The next of some words, if there is one. -/
def nextWord : Reader (Option ScriptWord) := do
  skipBlanks
  match ← nested.word with
  | [] => return none
  | w => return some w

/-- What stands after the word `for`. -/
def forLoop : Reader Command := do
  skipBlanks
  let name ← takeRun isNamePart
  skipLines
  let words ←
    if ← acceptWord "in" then many nested.nextWord else pure [[.parameter "@" .value [] true]]
  skipBlanks
  let _ ← accept ";"
  skipLines
  return .each name words (← nested.body)

/-- The next pattern of an arm, given those in front of it. -/
def pattern (patterns : List ScriptWord) : Reader (List ScriptWord ⊕ List ScriptWord) := do
  skipBlanks
  let patterns := (← nested.word) :: patterns
  skipBlanks
  if ← accept "|" then return .inl patterns
  else do
    expect ")"
    return .inr patterns.reverse

/-- The next arm of a choice, up to its end. -/
def arm : Reader (Option (List ScriptWord × Command)) := do
  skipLines
  if ← acceptWord "esac" then return none
  let _ ← accept "("
  let patterns ← iterate nested.pattern []
  let c ← nested.commands
  unless ← accept ";;" do
    skipLines
    unless (← bareWord) = "esac" do failure
  return some (patterns, c)

/-- What stands after the word `case`. -/
def cases : Reader Command := do
  skipBlanks
  let w ← nested.word
  skipLines
  expectWord "in"
  return .choose w (← many nested.arm)

/-- The constructs that begin with a word of their own. -/
def constructs : List (String × Reader Command) :=
  [("\x7b", do
      let c ← nested.commands
      expectWord "\x7d"
      return c),
   ("if", iterate nested.branch []), ("while", nested.loop false), ("until", nested.loop true),
   ("for", nested.forLoop), ("case", nested.cases)]

/-- One command, with its redirections. -/
def commandWith : Reader Command := do
  skipBlanks
  if ← accept "(" then do
    let c ← nested.commands
    expect ")"
    nested.withRedirections (.subshell c)
  else
    match nested.constructs.lookup (← bareWord) with
    | some construct => do
      let _ ← takeRun isPlain
      nested.withRedirections (← construct)
    | none =>
      match ← acceptFunction with
      | some name => do
        skipLines
        return .function name (← nested.command)
      | none => iterate nested.simplePart {}

/-! ### Lists of commands -/

/-- A mark that negates a pipeline, if there is one. -/
def negation : Reader (Option Unit) := do
  skipBlanks
  return if ← acceptWord "!" then some () else none

/-- The command that a pipe leads to, if there is one. -/
def piped : Reader (Option Command) := do
  skipBlanks
  match ← get with
  | '|' :: '|' :: _ => return none
  | '|' :: s => do
    set s
    skipLines
    return some (← nested.commandWith)
  | _ => return none

/-- Commands joined by pipes. -/
def pipe : Command → List Command → Command
  | c, [] => c
  | c, d :: ds => .pipe c (pipe d ds)

/-- A pipeline, which may be negated. -/
def pipeline : Reader Command := do
  let negations ← many negation
  let c ← nested.commandWith
  let cs ← many nested.piped
  return negations.foldl (fun c () => .negated c) (pipe c cs)

/-- Join to a command what happens after its success or its failure. -/
def join (c : Command) : Reader (Command ⊕ Command) := do
  skipBlanks
  if ← accept "&&" then do
    skipLines
    return .inl (.both c (← nested.pipeline))
  else if ← accept "||" then do
    skipLines
    return .inl (.either c (← nested.pipeline))
  else return .inr c

/-- The next command of a list, unless it ends. With `lines` the commands may stand on
    several lines. -/
def listed (lines : Bool) : Reader (Option Command) := do
  if lines then skipLines else skipBlanks
  if (← get).head? = some '\n' then return none
  if ← atClosing then return none
  let c ← iterate nested.join (← nested.pipeline)
  skipBlanks
  match ← get with
  | ';' :: ';' :: _ => return some c
  | ';' :: s => do set s; return some c
  | '&' :: s => do set s; return some c
  | '\n' :: s => do
    if lines then set s
    return some c
  | _ => if ← atClosing then return some c else failure

end Nested

/-- The readers for texts of less than some length. -/
def nested (length : Nat) : Nested :=
  { dollar := fun isQuoted => shorter length fun n _ => (nested n).dollarWith isQuoted
    commands := shorter length fun n _ => return .sequence (← many ((nested n).listed true))
    command := shorter length fun n _ => (nested n).commandWith }
termination_by length

/-- The commands on one line, with the lines that they take. -/
def line : Reader Command := do
  let length := (← get).length
  return .sequence (← many ((nested length).listed false))

/-- The next line of a script, unless it is over. -/
def nextLine : Reader (Option Command) := do
  skipLines
  match ← get with
  | [] => return none
  | _ => do
    let c ← line
    match ← get with
    | [] => return some c
    | '\n' :: s => do set s; return some c
    | _ => failure

end Reader

/-- The lines of a script that can be read, and whether they are all. -/
def readScript (source : String) : List Command × Bool :=
  linesOf source.toList
where
  linesOf (s : List Char) : List Command × Bool :=
    match Reader.nextLine s with
    | none => ([], false)
    | some (none, _) => ([], true)
    | some (some c, rest) =>
      if rest.length < s.length then
        let (more, whole) := linesOf rest
        (c :: more, whole)
      else ([], false)
  termination_by s.length

end Catena.Shell
