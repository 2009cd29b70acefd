import Catena.Host.Terminal
import Catena.Shell.Arithmetic
import Catena.Shell.Builtin
import Catena.Shell.Reader

/-!
# The shell

A shell for the commands that a program gives to its host, with the usual constructs and
builtins. Of what a script does, its output and its changes to the files are kept; its
messages and its status are not. Commands run one after another, also the two sides of a
pipe.

A command is carried out by means of others, and a loop or a function by means of itself.
What a command does is therefore defined relative to `Calls`, which say how others are
carried out, and the shell goes as deep as its fuel lasts (`Shell.calls`). A script that is
not through by then has no result.

This is one interpreter for the terminal among others, and what is known of all programs
depends on none of them. The fuel does not decide what a script comes to, only whether it comes
to anything.
-/

namespace Catena.Shell

/-- How the parts of a command are carried out. -/
structure Calls where
  /-- The values of a piece of a word: one, save for a list of parameters. -/
  values : Piece → Job (List Bytes)
  /-- Carry out a command. -/
  exec : Command → Job Unit
  /-- Go on with a loop, whose body has ended with a status. -/
  loop : (untilSuccess : Bool) → (condition body : Command) → Nat → Job Unit
  /-- Carry out a command whose name and arguments are known. -/
  invoke : List (String × ScriptWord) → List Bytes → Job Unit

namespace Calls

/-! ### Words -/

/-- The bytes of a word that is not split, each with its quotation. -/
def glyphs (calls : Calls) : ScriptWord → Job (List Glyph)
  | [] => return []
  | p :: ps => do
    let vs ← calls.values p
    let more ← calls.glyphs ps
    return (vs.intersperse (bytes " ")).flatten.map (·, p.isQuoted) ++ more

/-- The bytes of a word that is not split. -/
def joined (calls : Calls) (w : ScriptWord) : Job Bytes := do
  let gs ← calls.glyphs w
  return gs.map (·.1)

/-- The fields of a word, with those there are. -/
def fields (calls : Calls) : ScriptWord → Fields → Job Fields
  | [], f => return f
  | p :: ps, f => do
    let vs ← calls.values p
    let s ← get
    calls.fields ps (f.addPiece s.gaps p vs)

/-- The arguments that the words of a command come to. -/
def arguments (calls : Calls) : List ScriptWord → Job (List Bytes)
  | [] => return []
  | w :: ws => do
    let f ← calls.fields w {}
    let s ← get
    let more ← calls.arguments ws
    return f.toList.flatMap (globbed s.files) ++ more

/-- The value of an arithmetic expression, whose assignments are made. -/
def calculate (source : Bytes) : Job Int := do
  let s ← get
  match Arithmetic.value s.number (Utf8.decodeLossy source).toList with
  | some (v, assigned) => do
    -- The assignment that was made last comes first.
    let values := assigned.foldr (fun (n, v) d => d.insert n (decimal v)) s.values
    set { s with values := values }
    return v
  | none => abort 2

/-- The value of a parameter, changed by an operator. -/
def expand (calls : Calls) (name : String) (argument : ScriptWord) : Operator → Job Bytes
  | .value => do
    let s ← get
    return s.valueOf name
  | .length => do
    let s ← get
    return decimal (s.valueOf name).length
  | .preset orEmpty => do
    let s ← get
    if s.lacks name orEmpty then calls.joined argument else return s.valueOf name
  | .assign orEmpty => do
    let s ← get
    if s.lacks name orEmpty then do
      let v ← calls.joined argument
      assign name v
      return v
    else return s.valueOf name
  | .replace orEmpty => do
    let s ← get
    if s.lacks name orEmpty then return [] else calls.joined argument
  | .demand orEmpty => do
    let s ← get
    if s.lacks name orEmpty then abort 2 else return s.valueOf name
  | .dropFront longest => do
    let s ← get
    let p ← calls.glyphs argument
    return Pattern.dropFront p longest (s.valueOf name)
  | .dropEnd longest => do
    let s ← get
    let p ← calls.glyphs argument
    return Pattern.dropEnd p longest (s.valueOf name)

/-- Whether a parameter stands for the list of all positional ones. -/
def isList (name : String) (operator : Operator) (isQuoted : Bool) : Bool :=
  operator = .value && (name = "@" || name = "*" && !isQuoted)

/-- The values of a piece of a word. -/
def valuesOf (calls : Calls) : Piece → Job (List Bytes)
  | .text t _ => return [bytes t]
  | .arithmetic e _ => do
    let source ← calls.joined e
    let v ← calculate source
    return [decimal v]
  | .output c _ => do
    let out ← outputOf (calls.exec c)
    return [dropFinalLines out]
  | .parameter name operator argument isQuoted =>
    if isList name operator isQuoted then do
      let s ← get
      return s.args
    else do
      let v ← calls.expand name argument operator
      return [v]

/-! ### Redirections -/

/-- Point a stream to a place for the rest of a job. -/
def point (stream : Nat) (sink : Sink) : Job Bool := do
  modify fun s =>
    if stream = 1 then { s with out := sink } else if stream = 2 then { s with err := sink } else s
  return true

/-- Point a stream to the file of a path, which is made if it is missing. -/
def openFile (stream : Nat) (empty : Bool) (path : String) : Job Bool := do
  let s ← get
  match s.files.locate path with
  | .ok (.file name) => do
    set (if empty || (s.files.get? name).isNone then
      { s with files := s.files.insert name [] } else s)
    point stream (.file name)
  | .ok .nowhere => point stream .dropped
  | _ => return false

/-- Redirect a stream; whether this has succeeded. -/
def redirect (stream : Nat) (how : Redirection) (target : Bytes) : Job Bool := do
  let s ← get
  match how with
  | .source =>
    match s.files.read (pathOf target) with
    | .ok bs => do
      set { s with input := bs }
      return true
    | .error _ => return false
  | .document | .indented => do
    set { s with input := target }
    return true
  | .replace => openFile stream true (pathOf target)
  | .extend => openFile stream false (pathOf target)
  | .duplicate =>
    if target = bytes "1" then point stream s.out
    else if target = bytes "2" then point stream s.err
    else if target = bytes "-" then point stream .dropped
    else return stream = 0

/-- Redirect streams in turn, as long as this succeeds. -/
def redirectAll (calls : Calls) : List (Nat × Redirection × ScriptWord) → Job Bool
  | [] => return true
  | (stream, how, target) :: more => do
    let t ← calls.joined target
    if ← redirect stream how t then calls.redirectAll more else return false

/-- Carry out a job after some redirections, which last beyond it or do not. -/
def redirected (isLasting readsInput : Bool) (redirections : Job Bool) (job : Job Unit) :
    Job Unit := do
  let before ← get
  let left ← afterwards
  modify fun s =>
    if isLasting then s
    else { s with
      out := before.out, err := before.err, input := if readsInput then before.input else s.input }
  leave left
where
  afterwards : Job (Option Leave) := do
    if ← redirections then caught job
    else do
      setCode 2
      return none

/-- Whether the redirections of a command stay for the rest of the script. -/
def isLasting : Command → Bool
  | .simple [] [[.text "exec" false]] => true
  | _ => false

/-- The words of a simple command. -/
def words : Command → List ScriptWord
  | .simple _ words => words
  | _ => []

/-- Carry out a command whose arguments are made already, if it is a simple one. -/
def execWith (calls : Calls) (args : List Bytes) : Command → Job Unit
  | .simple assignments _ => calls.invoke assignments args
  | c => calls.exec c

/-! ### Loops and choices -/

/-- Go on with a loop after a part of it, unless that part has left the loop. -/
def goOn (left : Option Leave) (next : Job Unit) : Job Unit :=
  match left with
  | none => next
  | some (.continue n) => if n ≤ 1 then next else throw (.continue (n - 1))
  | some (.break n) => if n ≤ 1 then setCode 0 else throw (.break (n - 1))
  | some l => throw l

/-- Carry out a body as long as a condition allows, given the status of the body before. -/
def execLoop (calls : Calls) (untilSuccess : Bool) (condition body : Command) (code : Nat) :
    Job Unit := do
  match ← caught (calls.exec condition) with
  | some (.continue n) => throw (.continue n)
  | left => goOn left do
    let s ← get
    if (s.code = 0) = untilSuccess then setCode code
    else do
      let left ← caught (calls.exec body)
      let s ← get
      goOn left (calls.loop untilSuccess condition body s.code)

/-- Carry out a body for each of some values. -/
def execEach (calls : Calls) (name : String) (body : Command) : List Bytes → Job Unit
  | [] => return
  | v :: vs => do
    assign name v
    let left ← caught (calls.exec body)
    goOn left (calls.execEach name body vs)

/-- Whether one of some patterns fits bytes. -/
def fitsAny (calls : Calls) (bs : Bytes) : List ScriptWord → Job Bool
  | [] => return false
  | p :: ps => do
    let gs ← calls.glyphs p
    if Pattern.matches? gs bs then return true else calls.fitsAny bs ps

/-- Carry out the first arm with a pattern that fits bytes. -/
def execArms (calls : Calls) (bs : Bytes) : List (List ScriptWord × Command) → Job Unit
  | [] => setCode 0
  | (ps, c) :: arms => do
    if ← calls.fitsAny bs ps then do
      setCode 0
      calls.exec c
    else calls.execArms bs arms

/-! ### Simple commands -/

/-- Carry out a script, up to a line that cannot be read. -/
def execScript (calls : Calls) (source : String) : Job Unit := do
  let (lines, whole) := readScript source
  lines.forM calls.exec
  if whole then return else abort 2

/-- Make the assignments in front of a command, in order. -/
def assignAll (calls : Calls) : List (String × ScriptWord) → Job Unit
  | [] => return
  | (n, w) :: more => do
    let v ← calls.joined w
    assign n v
    calls.assignAll more

/-- Carry out the body of a function with its arguments, with what it left for. -/
def called (args : List Bytes) (body : Job Unit) : Job (Option Leave) := do
  let before ← get
  set { before with args := args }
  let left ← caught body
  modify fun s => { s with args := before.args }
  return match left with
    | some .return => none
    | left => left

/-- Give some variables the values that they had before. -/
def restore (names : List String) (before : Status) : Job Unit := modify fun s =>
  { s with values := names.foldl (fun d n =>
      match before.values.get? n with
      | some v => d.insert n v
      | none => d.erase n) s.values }

/-- Leave a place, with a status if there is an argument. -/
def leaveWith (l : Leave) (args : List Bytes) : Job Unit := do
  modify fun s => { s with code := firstNumber s.code args % 256 }
  throw l

/-- Carry out the command that the arguments are, or tell where some commands are. -/
def execPlain (calls : Calls) : List Bytes → Job Unit
  | [] => setCode 0
  | a :: args => if a = bytes "-v" then lookUp args else calls.invoke [] (a :: args)

/-- Carry out the command that the arguments are in the place of the script. -/
def execInstead (calls : Calls) : List Bytes → Job Unit
  | [] => setCode 0
  | a :: args => do
    calls.invoke [] (a :: args)
    throw .exit

/-- Carry out the script of a file. -/
def execFile (calls : Calls) : List Bytes → Job Unit
  | [] => setCode 2
  | a :: _ => do
    let s ← get
    match s.files.readText (pathOf a) with
    | .ok t => calls.execScript t
    | .error _ => abort 2

/-- The builtins that carry out others, or look at the status. -/
def special? (calls : Calls) (name : String) (args : List Bytes) : Option (Job Unit) :=
  if name = "exit" then some (leaveWith .exit args)
  else if name = "return" then some (leaveWith .return args)
  else if name = "eval" then
    some (calls.execScript (pathOf (args.intersperse (bytes " ")).flatten))
  else if name = "command" then some (calls.execPlain args)
  else if name = "exec" then some (calls.execInstead args)
  else if name = "." then some (calls.execFile args)
  else none

/-- Carry out a command whose name and arguments are known. -/
def run (calls : Calls) (assignments : List (String × ScriptWord)) :
    List Bytes → Job Unit
  | [] => do
    setCode 0
    calls.assignAll assignments
  | name :: args => do
    let before ← get
    calls.assignAll assignments
    let s ← get
    match s.functions.get? (pathOf name), calls.special? (pathOf name) args with
    | some body, _ => do
      let left ← called args (calls.exec body)
      restore (assignments.map (·.1)) before
      leave left
    | none, some job => job
    | none, none => do
      runBuiltin (pathOf name) args
      restore (assignments.map (·.1)) before

/-! ### Commands -/

/-- Carry out a command. -/
def execCommand (calls : Calls) : Command → Job Unit
  | .simple assignments words => do
    let args ← calls.arguments words
    calls.invoke assignments args
  | .redirected c redirections => do
    let args ← calls.arguments (words c)
    redirected (isLasting c) (redirections.any fun r => r.1 = 0) (calls.redirectAll redirections)
      (calls.execWith args c)
  | .sequence cs => cs.forM calls.exec
  | .both a b => do
    calls.exec a
    let s ← get
    if s.code = 0 then calls.exec b else return
  | .either a b => do
    calls.exec a
    let s ← get
    if s.code = 0 then return else calls.exec b
  | .negated a => do
    calls.exec a
    modify fun s => { s with code := if s.code = 0 then 1 else 0 }
  | .pipe a b => do
    let out ← outputOf (calls.exec a)
    let before ← get
    set { before with input := out }
    isolated (calls.exec b)
    modify fun s => { s with input := before.input }
  | .subshell a => isolated (calls.exec a)
  | .branch condition consequent alternative => do
    calls.exec condition
    let s ← get
    if s.code = 0 then calls.exec consequent
    else do
      setCode 0
      calls.exec alternative
  | .loop untilSuccess condition body => calls.loop untilSuccess condition body 0
  | .each name words body => do
    let vs ← calls.arguments words
    setCode 0
    calls.execEach name body vs
  | .choose word arms => do
    let bs ← calls.joined word
    calls.execArms bs arms
  | .function name body => modify fun s =>
    { s with functions := s.functions.insert name body, code := 0 }

end Calls

/-- How commands are carried out to some depth. -/
def calls : (fuel : Nat) → Calls
  | 0 => ⟨fun _ => giveUp, fun _ => giveUp, fun _ _ _ _ => giveUp, fun _ _ => giveUp⟩
  | fuel + 1 =>
    { values := fun p => (calls fuel).valuesOf p
      exec := fun c => (calls fuel).execCommand c
      loop := fun untilSuccess condition body code =>
        (calls fuel).execLoop untilSuccess condition body code
      invoke := fun assignments args => (calls fuel).run assignments args }

/-- The output of a script run on some files, and the files after it; `none` if the script
    goes deeper than the fuel lasts. -/
def run (fuel : Nat) (source : String) (files : Files) : Option (Bytes × Files) :=
  ((calls fuel).execScript source { files }).map fun (_, s) => (s.captured.reverse, s.files)

/-- How deep a script may go. -/
def patience : Nat := 100000

/-- A script that is not through by then has done nothing. -/
instance : Interpreter where
  run command files := (run patience command files).getD ([], files)

end Catena.Shell
