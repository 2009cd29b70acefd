import Catena.Proofs.Reader
import Catena.Proofs.Shell

/-!
# Quoted arguments

A program that puts arbitrary texts into a command has to quote them. A command with quoted
arguments does what the builtin or the program of its name does with these arguments, byte
for byte (`Shell.run_quotedCommand`), and so on a terminal (`Shell.command_quotedCommand`).
Thus `printf` gives back any text (`Shell.command_printf`), and what a program has saved in a
file is what `cat` tells it (`Shell.command_cat_of_save`). Where a pattern is asked for, what is
quoted fits itself alone (`Shell.matches?_quoted`).
-/

namespace Catena.Shell

open Reader (IsCommandName quotedTree quotedLine)

/-! ### Words -/

/-- A command with arguments in quotation marks, as a script. -/
def quotedCommand (name : String) (args : List String) : String :=
  String.ofList (quotedLine name args)

/-- A word that is a text comes to this text alone. -/
theorem globbed_text {t : String} {isQuoted : Bool} (files : Files)
    (ht : isQuoted ∨ bytes t ≠ [])
    (hs : Pattern.isSpecial ((bytes t).map (·, isQuoted)) = false) :
    (Fields.add isQuoted (bytes t) {}).toList.flatMap (globbed files) = [bytes t] := by
  have ha : Fields.add isQuoted (bytes t) {} =
      { current := some ((bytes t).map (·, isQuoted)).reverse } := by
    simp only [Fields.add]
    rw [if_neg (by rcases ht with rfl | ht <;> simp_all)]
    simp
  rw [ha]
  simp [Fields.toList, Fields.close, globbed, hs, Function.comp_def]

/-- What stands between quotation marks is no pattern. -/
theorem isSpecial_quoted (bs : Bytes) : Pattern.isSpecial (bs.map (·, true)) = false := by
  simp [Pattern.isSpecial]

/-- As a pattern, what stands between quotation marks fits itself alone. -/
theorem matches?_quoted (bs s : Bytes) :
    Pattern.matches? (bs.map (·, true)) s = true ↔ s = bs := by
  unfold Pattern.matches?
  induction bs generalizing s with
  | nil => cases s <;> simp [Pattern.parts, Pattern.fits]
  | cons b bs ih =>
    rw [List.map_cons, Pattern.parts, if_pos rfl]
    cases s with
    | nil => simp [Pattern.fits]
    | cons c s =>
      rw [Pattern.fits, Bool.and_eq_true, decide_eq_true_eq, ih, List.cons.injEq, eq_comm]

/-- The encoding of an ASCII character is its byte. -/
theorem utf8EncodeChar_ascii {c : Char} (hc : c.toNat ≤ 0x7F) :
    String.utf8EncodeChar c = [byte c] := by
  simp only [String.utf8EncodeChar, show c.val.toNat ≤ 0x7F from hc, if_true]
  rfl

theorem ofNat_toNat_byte {c : Char} (hc : c.toNat ≤ 0x7F) : Char.ofNat (byte c).toNat = c := by
  have hlt : c.toNat < 256 := Nat.lt_of_le_of_lt hc (by decide)
  have hb : (byte c).toNat = c.toNat := by
    rw [byte, Char.toUInt8, UInt32.toNat_toUInt8]
    exact Nat.mod_eq_of_lt hlt
  rw [hb, Char.ofNat_toNat]

/-- The name of a command is no pattern either. -/
theorem isSpecial_name {name : String} (h : IsCommandName name) :
    Pattern.isSpecial ((bytes name).map (·, false)) = false := by
  -- A name is ASCII, so its bytes are its characters, and these are letters, digits or underscores.
  have hmarks : ∀ d ∈ ['*', '?', '['], isNamePart (Char.ofNat (byte d).toNat) = false := by
    intro d hd
    simp only [List.mem_cons, List.not_mem_nil, or_false] at hd
    rcases hd with rfl | rfl | rfl <;> rfl
  have hne : ∀ b ∈ bytes name, ∀ d ∈ ['*', '?', '['], b ≠ byte d := by
    rintro b hb d hd rfl
    obtain ⟨c, hc, hbc⟩ := List.mem_flatMap.1 hb
    have hp := h.isNamePart_of_mem c hc
    have hle := Reader.toNat_le_of_isNamePart hp
    rw [utf8EncodeChar_ascii hle, List.mem_singleton] at hbc
    rw [← ofNat_toNat_byte hle, ← hbc, hmarks d hd] at hp
    cases hp
  simp only [Pattern.isSpecial, List.any_map, List.any_eq_false]
  intro b hb
  simp [hne b hb]

theorem bytes_name_ne_nil {name : String} (h : IsCommandName name) : bytes name ≠ [] := by
  intro hb
  obtain ⟨c, t, hn, -⟩ := h.isNameStart_head
  have he : name = "" := Utf8.encode_injective hb
  rw [he] at hn
  cases hn

/-! ### Scripts -/

section Run

variable {name : String} {args : List String} {job : List Bytes → Job Unit} {fuel : Nat}
  {s : Status}

/-- A word that is a text is one argument. -/
theorem arguments_cons_text {t : String} {isQuoted : Bool} {ws : List ScriptWord}
    {vs : List Bytes} (ht : isQuoted ∨ bytes t ≠ [])
    (hs : Pattern.isSpecial ((bytes t).map (·, isQuoted)) = false)
    (hws : (calls (fuel + 1)).arguments ws s = some (.ok vs, s)) :
    (calls (fuel + 1)).arguments ([.text t isQuoted] :: ws) s = some (.ok (bytes t :: vs), s) := by
  have hf : (calls (fuel + 1)).fields [.text t isQuoted] {} s =
      some (.ok (Fields.add isQuoted (bytes t) {}), s) := rfl
  rw [Calls.arguments, Job.bind_eq, hf]
  refine (Job.get_bind _ s).trans ?_
  rw [Job.bind_eq, hws, globbed_text _ ht hs]
  rfl

/-- The name and the quoted texts are the arguments, byte for byte. -/
theorem arguments_quoted (h : IsCommandName name) :
    (calls (fuel + 1)).arguments ([.text name false] :: args.map fun t => [.text t true]) s =
      some (.ok (bytes name :: args.map bytes), s) := by
  have ha : (calls (fuel + 1)).arguments (args.map fun t => [.text t true]) s =
      some (.ok (args.map bytes), s) := by
    induction args with
    | nil => rfl
    | cons t args ih => exact arguments_cons_text (.inl rfl) (isSpecial_quoted _) ih
  exact arguments_cons_text (.inr (bytes_name_ne_nil h)) (isSpecial_name h) ha

/-- The builtins that carry out commands have names of their own. -/
theorem special?_eq_none (calls : Calls) (hjob : (builtins ++ programs).lookup name = some job)
    (args : List Bytes) : calls.special? name args = none := by
  have hne : ∀ n ∈ ["exit", "return", "eval", "command", "exec", "."], name ≠ n := by
    rintro n hn rfl
    have hnone : ∀ n ∈ ["exit", "return", "eval", "command", "exec", "."],
        (builtins ++ programs).lookup n = none := by
      simp [builtins, programs, List.lookup_cons]
    rw [hnone name hn] at hjob
    cases hjob
  simp [Calls.special?, hne]

theorem runBuiltin_eq (hjob : (builtins ++ programs).lookup name = some job)
    (args : List Bytes) : runBuiltin name args s = job args { s with code := 0 } := by
  rw [runBuiltin, hjob]
  rfl

/-- The builtin or the program of a name, which is not the name of a function. -/
theorem run_builtin (calls : Calls) (hjob : (builtins ++ programs).lookup name = some job)
    (hf : s.functions.get? name = none) (args : List Bytes) :
    calls.run [] (bytes name :: args) s = job args { s with code := 0 } := by
  have hname : pathOf (bytes name) = name := Utf8.decodeLossy_encode name
  rw [Calls.run, Job.get_bind, show calls.assignAll [] = pure () from rfl, pure_bind,
    Job.get_bind, hname, hf, special?_eq_none calls hjob]
  -- There are no assignments, so there is nothing to restore.
  exact (congrFun (bind_pure (runBuiltin name args)) s).trans (runBuiltin_eq hjob args)

/-- A command with quoted arguments does what the builtin or the program of its name does with
    these arguments. -/
theorem exec_quotedTree (h : IsCommandName name)
    (hjob : (builtins ++ programs).lookup name = some job) (hf : s.functions.get? name = none) :
    (calls (fuel + 2)).exec (quotedTree name args) s =
      job (args.map bytes) { s with code := 0 } := by
  refine (Job.bind_eq _ _ s).trans ?_
  -- One level of calls is for the words, and one is for the command itself.
  rw [arguments_quoted h]
  exact run_builtin (calls fuel) hjob hf _

theorem execScript_quotedCommand (h : IsCommandName name)
    (hargs : ∀ t ∈ args, '\'' ∉ t.toList)
    (hjob : (builtins ++ programs).lookup name = some job) (hf : s.functions.get? name = none) :
    (calls (fuel + 3)).execScript (quotedCommand name args) s =
      job (args.map bytes) { s with code := 0 } := by
  rw [Calls.execScript, quotedCommand, Reader.readScript_quotedLine h hargs]
  dsimp only
  rw [Job.forM_singleton, if_pos rfl]
  refine (congrFun (bind_pure ((calls (fuel + 3)).exec _)) s).trans ?_
  exact (congrFun (Job.forM_singleton _ _) s).trans (exec_quotedTree h hjob hf)

/-- A script with one command with quoted arguments goes three deep. -/
theorem run_quotedCommand (h : IsCommandName name) (hargs : ∀ t ∈ args, '\'' ∉ t.toList)
    (hjob : (builtins ++ programs).lookup name = some job) (hfuel : 3 ≤ fuel) (files : Files) :
    run fuel (quotedCommand name args) files =
      (job (args.map bytes) { files }).map fun (_, s) => (s.captured.reverse, s.files) := by
  obtain ⟨n, rfl⟩ := Nat.exists_eq_add_of_le' hfuel
  rw [run, execScript_quotedCommand h hargs hjob rfl]

end Run

/-! ### Commands of a terminal -/

/-- Whether a text can be an argument in quotation marks. -/
def IsQuotable (t : String) : Prop := '\'' ∉ t.toList ∧ '\x00' ∉ t.toList

instance : DecidablePred IsQuotable := fun t =>
  inferInstanceAs (Decidable ('\'' ∉ t.toList ∧ '\x00' ∉ t.toList))

section Terminal

variable {name t : String} {args : List String} {job : List Bytes → Job Unit} {h h' : Terminal}

/-- A terminal takes the command, which has no character NUL. -/
theorem nul_not_mem_quotedCommand (hn : IsCommandName name) (hargs : ∀ t ∈ args, IsQuotable t) :
    '\x00' ∉ (quotedCommand name args).toList := by
  have ha : '\x00' ∉ Reader.quotedArguments args := by
    induction args with
    | nil => exact List.not_mem_nil
    | cons t args ih =>
      have ht := (hargs t List.mem_cons_self).2
      have := ih fun t ht => hargs t (List.mem_cons_of_mem _ ht)
      simp [Reader.quotedArguments, ht, this]
  rw [quotedCommand, String.toList_ofList, quotedLine, List.mem_append, not_or]
  refine ⟨fun hm => ?_, ha⟩
  have := hn.isNamePart_of_mem _ hm
  cases this

/-- What a program is told by a command with quoted arguments. -/
theorem command_quotedCommand {a : Except Leave Unit} {s : Status} (hn : IsCommandName name)
    (hargs : ∀ t ∈ args, IsQuotable t) (hjob : (builtins ++ programs).lookup name = some job)
    (hs : job (args.map bytes) { files := h.files } = some (a, s)) :
    Host.command (quotedCommand name args) h =
      (.ok (Utf8.decodeLossy s.captured.reverse), { h with files := s.files }) := by
  have hpatience : 3 ≤ patience := by decide
  have hr := run_quotedCommand hn (fun t ht => (hargs t ht).1) hjob hpatience h.files
  have hnul := nul_not_mem_quotedCommand hn hargs
  simp only [Host.command, Interpreter.run, hr, hs]
  rw [if_neg (by simpa using hnul)]
  rfl

/-- The format `%s` writes one text as it is. -/
theorem printf_text (bs : Bytes) : printf (directives (bytes "%s")) [bs] = (bs, true) := by
  have hd : directives (bytes "%s") = [.convert [] none none (some (byte 's'))] := by
    rw [show bytes "%s" = [byte '%', byte 's'] by decide, directives, if_neg (by decide),
      if_pos rfl]
    dsimp only
    rw [if_neg (by decide)]
    exact congrArg (_ :: ·) directives.eq_1
  have hp : formatOnce [.convert [] none none (some (byte 's'))] [bs] =
      { out := [] ++ pad 0 false (byte ' ') bs, args := [] } := rfl
  rw [hd, printf, hp]
  simp [pad]

theorem runPrintf_text (bs : Bytes) :
    runPrintf [bytes "%s", bs] = (do write bs; setCode 0 : Job Unit) := by
  have hne : [bytes "%s", bs].head? ≠ some (bytes "--") := by
    rw [List.head?_cons]
    decide
  unfold runPrintf
  rw [if_neg hne]
  dsimp only
  rw [printf_text]
  rfl

/-- The command `printf` gives back any text that is put to it as it is. -/
theorem command_printf (ht : IsQuotable t) (h : Terminal) :
    Host.command (quotedCommand "printf" ["%s", t]) h = (.ok t, h) := by
  have hn : IsCommandName "printf" :=
    ⟨⟨'p', "rintf".toList, rfl, rfl⟩, List.all_eq_true.1 rfl, by decide⟩
  have hargs : ∀ u ∈ ["%s", t], IsQuotable u := by
    simp only [List.forall_mem_cons]
    exact ⟨by decide, ht, nofun⟩
  have hj : runPrintf (["%s", t].map bytes) { files := h.files } =
      some (.ok (), { files := h.files, captured := (bytes t).reverse ++ [] }) :=
    congrFun (runPrintf_text (bytes t)) _
  rw [command_quotedCommand hn hargs rfl hj]
  simp [bytes, Utf8.decodeLossy_encode]

/-- The command `cat` tells what is in a file. -/
theorem command_cat {bs : Bytes} (ht : IsQuotable t) (hne : t ≠ "-")
    (hr : h.files.read t = .ok bs) :
    Host.command (quotedCommand "cat" ["--", t]) h = (.ok (Utf8.decodeLossy bs), h) := by
  have hn : IsCommandName "cat" :=
    ⟨⟨'c', "at".toList, rfl, rfl⟩, List.all_eq_true.1 rfl, by decide⟩
  have hargs : ∀ u ∈ ["--", t], IsQuotable u := by
    simp only [List.forall_mem_cons]
    exact ⟨by decide, ht, nofun⟩
  have hb : bytes t ≠ bytes "-" := fun he => hne (Utf8.encode_injective he)
  have hp : pathOf (bytes t) = t := Utf8.decodeLossy_encode t
  have hw : writeFile (bytes t) { files := h.files } =
      some (.ok (), { files := h.files, captured := bs.reverse ++ [] }) := by
    refine (Job.get_bind _ _).trans ?_
    rw [if_neg hb, hp, if_neg (by exact Bool.false_ne_true), hr]
    rfl
  have hj : runCat (["--", t].map bytes) { files := h.files } =
      some (.ok (), { files := h.files, captured := bs.reverse ++ [] }) :=
    (congrFun (bind_pure (writeFile (bytes t))) _).trans hw
  rw [command_quotedCommand hn hargs rfl hj]
  simp

/-- A program that saves a text in a file and asks `cat` for it is told the text. -/
theorem command_cat_of_save {text : String} (hs : Host.save t text h = (.ok (), h'))
    (hnull : t ≠ "/dev/null") (ht : '\'' ∉ t.toList) (hne : t ≠ "-") :
    Host.command (quotedCommand "cat" ["--", t]) h' = (.ok text, h') := by
  simp only [Host.save] at hs
  split at hs
  case h_2 => cases hs
  case h_1 files hw =>
    cases hs
    obtain ⟨hn, -⟩ | ⟨name, hl, -⟩ := Files.write_eq_ok_iff.1 hw
    · exact absurd hn hnull
    · have hnul := (Files.locate_eq_file_iff.1 hl).1
      rw [command_cat ⟨ht, hnul⟩ hne (Files.read_write hw hnull), Utf8.decodeLossy_encode]

end Terminal

end Catena.Shell
