import Catena.Shell.Job

/-!
# Builtins of a shell

The commands that a shell carries out by itself, and the programs `cat`, `tr` and `rm`. Any
other name is an unknown command. The builtins that run scripts or commands are not here.
-/

namespace Catena.Shell

/-! ### Conditions -/

/-- A condition on one argument; `none` if there is no such condition. -/
def unaryCondition (files : Files) (operator : String) (a : Bytes) : Option Bool :=
  let isFile := (files.read (pathOf a)).toOption.isSome
  let isDirectory := match files.locate (pathOf a) with
    | .ok .directory => true
    | _ => false
  match operator with
  | "-n" => some (!a.isEmpty)
  | "-z" => some a.isEmpty
  | "-f" => some (isFile && pathOf a ≠ "/dev/null")
  | "-d" => some isDirectory
  | "-e" | "-r" | "-w" => some (isFile || isDirectory)
  | "-x" => some isDirectory
  | "-s" => some (((files.read (pathOf a)).toOption.map (!·.isEmpty)).getD isDirectory)
  | _ => none

/-- A condition on two arguments; `none` if there is no such condition, or an argument that
    is to be a number is none. -/
def binaryCondition (operator : String) (a b : Bytes) : Option Bool :=
  let numbers (f : Int → Int → Bool) : Option Bool :=
    let (x, xok) := integer a
    let (y, yok) := integer b
    if xok && yok then some (f x y) else none
  match operator with
  | "=" | "==" => some (a = b)
  | "!=" => some (a ≠ b)
  | "-eq" => numbers fun x y => x = y
  | "-ne" => numbers fun x y => x ≠ y
  | "-lt" => numbers fun x y => x < y
  | "-le" => numbers fun x y => x ≤ y
  | "-gt" => numbers fun x y => y < x
  | "-ge" => numbers fun x y => y ≤ x
  | _ => none

/-- The arguments in front of the first mark and those behind it, if there is one. -/
def splitAt? (mark : Bytes) : List Bytes → Option (List Bytes × List Bytes)
  | [] => none
  | a :: args =>
    if a = mark then some ([], args) else (splitAt? mark args).map fun (l, r) => (a :: l, r)

theorem length_lt_of_splitAt? {mark : Bytes} {args l r : List Bytes}
    (h : splitAt? mark args = some (l, r)) : l.length < args.length ∧ r.length < args.length := by
  induction args generalizing l r with
  | nil => cases h
  | cons a args ih =>
    unfold splitAt? at h
    split at h
    · cases h
      simp
    · obtain ⟨⟨l', r'⟩, hs, he⟩ := Option.map_eq_some_iff.1 h
      cases he
      have := ih hs
      simp only [List.length_cons]
      omega

/-- A condition of at most three arguments that no other is part of. -/
def simpleCondition (files : Files) : List Bytes → Option Bool
  | [] => some false
  | [a] => some (!a.isEmpty)
  | [o, a] => if o = bytes "!" then some a.isEmpty else unaryCondition files (pathOf o) a
  | [a, o, b] => binaryCondition (pathOf o) a b
  | _ => none

/-- The condition of `test`, or `none` if it cannot be read. -/
def condition (files : Files) (args : List Bytes) : Option Bool :=
  match simpleCondition files args with
  | some b => some b
  | none =>
    if args.length < 3 then none
    else
      match _h : splitAt? (bytes "-o") args with
      | some (l, r) => do return (← condition files l) || (← condition files r)
      | none =>
        match _h : splitAt? (bytes "-a") args with
        | some (l, r) => do return (← condition files l) && (← condition files r)
        | none =>
          match args with
          | [] => none
          | a :: args => if a = bytes "!" then (condition files args).map (!·) else none
termination_by args.length
decreasing_by
  · exact (length_lt_of_splitAt? _h).1
  · exact (length_lt_of_splitAt? _h).2
  · exact (length_lt_of_splitAt? _h).1
  · exact (length_lt_of_splitAt? _h).2
  · simp

/-! ### Arguments -/

/-- The letters of the options in front of some arguments, and the other arguments. -/
def options : List Bytes → List Char × List Bytes
  | [] => ([], [])
  | a :: rest =>
    if a = bytes "--" then ([], rest)
    else if a.head? = some (byte '-') && a.length > 1 then
      let (letters, others) := options rest
      ((pathOf a).toList.drop 1 ++ letters, others)
    else ([], a :: rest)

/-- The first argument as a number. -/
def firstNumber (preset : Nat) (args : List Bytes) : Nat :=
  match args with
  | a :: _ => (integer a).1.toNat
  | [] => preset

/-! ### Reading -/

/-- Split the bytes that `read` has read for its names, the last of which takes all that
    is left. -/
def readInto (gaps : Bytes) : List String → Bytes → Job Unit
  | [], _ => return
  | [n], s => assign n ((s.dropWhile isBlankGap).reverse.dropWhile isBlankGap).reverse
  | n :: ns, s => do
    let s := s.dropWhile isBlankGap
    assign n (s.takeWhile (!gaps.contains ·))
    match (s.dropWhile (!gaps.contains ·)).dropWhile isBlankGap with
    | [] => readInto gaps ns []
    | b :: more => readInto gaps ns (if gaps.contains b then more else b :: more)
where
  isBlankGap (b : UInt8) : Bool := Fields.isGap b && gaps.contains b

/-- One line of the input, with escaped characters as they are, what follows it, and whether
    it ended. -/
def takeLine (raw : Bool) : Bytes → Bytes × Bytes × Bool
  | [] => ([], [], false)
  | b :: s =>
    if b = byte '\n' then ([], s, true)
    else if !raw && b = byte '\\' then
      match s with
      | [] => ([], [], false)
      | c :: s =>
        let (line, rest, ended) := takeLine raw s
        (if c = byte '\n' then line else c :: line, rest, ended)
    else
      let (line, rest, ended) := takeLine raw s
      (b :: line, rest, ended)

def runRead (args : List Bytes) : Job Unit := do
  let (flags, names) := options args
  let s ← get
  let (line, rest, ended) := takeLine (flags.contains 'r') s.input
  set { s with input := rest }
  readInto s.gaps (names.map pathOf) line
  setCode (if names.isEmpty then 2 else if ended then 0 else 1)

/-! ### Programs -/

/-- Whether a stream is written to the file of a path. -/
def Sink.leadsTo (sink : Sink) (files : Files) (path : String) : Bool :=
  match sink, files.locate path with
  | .file name, .ok (.file other) => name = other
  | _, _ => false

/-- Write one file of `cat`. A file is not written to itself. -/
def writeFile (name : Bytes) : Job Unit := do
  let s ← get
  if name = bytes "-" then do
    set { s with input := [] }
    write s.input
  else if s.out.leadsTo s.files (pathOf name) then setCode 1
  else
    match s.files.read (pathOf name) with
    | .ok bs => write bs
    | .error _ => setCode 1

def runCat (args : List Bytes) : Job Unit :=
  let names := (options args).2
  (if names.isEmpty then [bytes "-"] else names).forM writeFile

def runTr (args : List Bytes) : Job Unit := do
  let (flags, sets) := options args
  let s ← get
  match translate flags sets s.input with
  | some out => do
    set { s with input := [] }
    write out
  | none => setCode 1

/-- Remove one file of `rm`. -/
def removeFile (force : Bool) (name : Bytes) : Job Unit := do
  let s ← get
  match s.files.locate (pathOf name) with
  | .ok (.file n) =>
    if (s.files.get? n).isSome then set { s with files := s.files.erase n }
    else unless force do setCode 1
  | .ok _ => setCode 1
  | .error _ => unless force do setCode 1

def runRm (args : List Bytes) : Job Unit := do
  let (flags, names) := options args
  let force := flags.contains 'f'
  setCode (if names.isEmpty && !force then 1 else 0)
  names.forM (removeFile force)

/-! ### Builtins -/

def runPrintf (args : List Bytes) : Job Unit :=
  match if args.head? = some (bytes "--") then args.drop 1 else args with
  | [] => setCode 2
  | format :: args => do
    let (out, success) := printf (directives format) args
    write out
    setCode (if success then 0 else 1)

/-- Tell whether a condition holds. In brackets the last argument closes them. -/
def runTest (inBrackets : Bool) (args : List Bytes) : Job Unit := do
  let s ← get
  if inBrackets && args.getLast? ≠ some (bytes "]") then setCode 2
  else setCode (status (condition s.files (if inBrackets then args.dropLast else args)))
where
  status : Option Bool → Nat
    | some true => 0
    | some false => 1
    | none => 2

def runSet (args : List Bytes) : Job Unit := modify fun s =>
  match args with
  | [] => s
  | a :: rest =>
    if a = bytes "--" then { s with args := rest }
    else if a.head? ≠ some (byte '-') && a.head? ≠ some (byte '+') then { s with args := args }
    else s

def runShift (args : List Bytes) : Job Unit := modify fun s =>
  let n := firstNumber 1 args
  if n ≤ s.args.length then { s with args := s.args.drop n } else { s with code := 2 }

def runUnset (args : List Bytes) : Job Unit := modify fun s =>
  let (flags, names) := options args
  if flags.contains 'f' then
    { s with functions := names.foldl (fun d n => d.erase (pathOf n)) s.functions }
  else { s with values := names.foldl (fun d n => d.erase (pathOf n)) s.values }

/-- Set a variable, as `export` and its kin do. -/
def declare (a : Bytes) : Job Unit :=
  let name := a.takeWhile (· ≠ byte '=')
  if name.length < a.length then assign (pathOf name) (a.drop (name.length + 1)) else return

def runCd (args : List Bytes) : Job Unit := do
  let s ← get
  match args.head?.map fun a => s.files.locate (pathOf a) with
  | none | some (.ok .directory) => setCode 0
  | _ => setCode 2

/-- The programs outside of the shell. -/
def programs : List (String × (List Bytes → Job Unit)) :=
  [("cat", runCat), ("tr", runTr), ("rm", runRm)]

/-- The builtins that run no commands and do not look at the status. -/
def builtins : List (String × (List Bytes → Job Unit)) :=
  [(":", fun _ => return), ("true", fun _ => return), ("wait", fun _ => return),
   ("umask", fun _ => return), ("trap", fun _ => return), ("false", fun _ => setCode 1),
   ("echo", fun args => write (echo args)), ("printf", runPrintf), ("test", runTest false),
   ("[", runTest true), ("read", runRead), ("set", runSet), ("shift", runShift),
   ("unset", runUnset), ("export", fun args => (options args).2.forM declare),
   ("readonly", fun args => (options args).2.forM declare),
   ("local", fun args => (options args).2.forM declare), ("cd", runCd),
   ("break", fun args => throw (.break (firstNumber 1 args))),
   ("continue", fun args => throw (.continue (firstNumber 1 args)))]

/-- Carry out a builtin or a program. -/
def runBuiltin (name : String) (args : List Bytes) : Job Unit :=
  match (builtins ++ programs).lookup name with
  | some job => do
    setCode 0
    job args
  | none => setCode 127

/-- Where a name leads, as `command` tells it. -/
def placeOf (s : Status) (name : String) : Option Bytes :=
  if [".", "command", "eval", "exec", "exit", "return"].contains name ||
      (builtins.lookup name).isSome || (s.functions.get? name).isSome then
    some (bytes (name ++ "\n"))
  else if (programs.lookup name).isSome then some (bytes ("/usr/bin/" ++ name ++ "\n"))
  else none

/-- Write where each of some names leads, up to the first that leads nowhere. -/
def lookUp : List Bytes → Job Unit
  | [] => return
  | a :: rest => do
    let s ← get
    match placeOf s (pathOf a) with
    | some bs => do
      write bs
      setCode 0
      lookUp rest
    | none => setCode 127

end Catena.Shell
