import Catena.Proofs.Workspace
import Catena.Shell.Builtin

/-!
# Jobs that come to no less

A job comes to an answer and a changed shell, or it is given up. Of two jobs one comes to *no
less* than the other if it comes to whatever the other does; besides, a shell that has to do
with files of some names only has to do with no others afterwards (`Status.Confined`,
`Job.Within`). Jobs that are made of others in the same way are related as their parts are. A
job that is within itself keeps to the names, as all builtins do (`keeps_runBuiltin`).
-/

namespace Catena.Shell

/-- Whether a stream is written to no file but those of some names. -/
def Sink.Confined (P : String → Prop) : Sink → Prop
  | .captured => True
  | .dropped => True
  | .file name => P name

/-- A shell that has to do with no files but those of some names. -/
structure Status.Confined (P : String → Prop) (s : Status) : Prop where
  files : ∀ name bs, s.files.get? name = some bs → P name
  out : s.out.Confined P
  err : s.err.Confined P

variable {P : String → Prop} {α β : Type}

/-- Whatever the one job comes to, the other comes to as well, and a shell that keeps to some
    names keeps to them. -/
def Job.Within (P : String → Prop) (j j' : Job α) : Prop :=
  ∀ s : Status, s.Confined P → ∀ a t, j s = some (a, t) → j' s = some (a, t) ∧ t.Confined P

/-- A job goes on after another one if that comes to an answer. -/
theorem Job.bind_eq (j : Job α) (f : α → Job β) (s : Status) :
    (j >>= f) s =
      match j s with
      | none => none
      | some (.ok a, t) => f a t
      | some (.error l, t) => some (.error l, t) := by
  simp only [bind, ExceptT.bind, ExceptT.mk, StateT.bind, Option.bind]
  rcases j s with _ | ⟨_ | _, _⟩ <;> rfl

theorem Job.get_bind (f : Status → Job α) (s : Status) : (get >>= f) s = f s s := rfl

theorem Job.forM_singleton {γ : Type} (f : γ → Job PUnit) (c : γ) : [c].forM f = f c :=
  bind_pure (f c)

namespace Job.Within

variable {j j' : Job α} {u u' : Job Unit}

/-! ### Parts of jobs -/

/-- Any job comes to no less than one that is given up, which comes to nothing. -/
theorem giveUp (j : Job α) : Within P giveUp j := nofun

theorem pure (a : α) : Within P (pure a) (pure a) := by
  intro s hs b t h
  cases h
  exact ⟨rfl, hs⟩

theorem throw (l : Leave) : Within P (throw l : Job α) (throw l) := by
  intro s hs b t h
  cases h
  exact ⟨rfl, hs⟩

/-- Jobs in a row are related if the first ones are, and the others whatever they are given. -/
theorem bind {f f' : α → Job β} (hj : j.Within P j') (hf : ∀ a, Within P (f a) (f' a)) :
    Within P (j >>= f) (j' >>= f') := by
  intro s hs b t h
  rw [bind_eq] at h ⊢
  split at h
  case h_1 => cases h
  case h_2 a s₁ he =>
    obtain ⟨he', hs₁⟩ := hj s hs _ _ he
    rw [he']
    exact hf a s₁ hs₁ b t h
  case h_3 l s₁ he =>
    obtain ⟨he', hs₁⟩ := hj s hs _ _ he
    cases h
    exact ⟨by rw [he'], hs₁⟩

/-- What is done with the shell as it is need only be so on shells that keep to the names. -/
theorem get {f f' : Status → Job β} (hf : ∀ s : Status, s.Confined P → Within P (f s) (f' s)) :
    Within P (get >>= f) (get >>= f') :=
  fun s hs => hf s hs s hs

theorem set {s : Status} (hs : s.Confined P) : Within P (set s) (set s) := by
  intro _ _ b t h
  cases h
  exact ⟨rfl, hs⟩

/-- A change of the shell has to keep it to the names. -/
theorem modify {f : Status → Status} (hf : ∀ s : Status, s.Confined P → (f s).Confined P) :
    Within P (modify f) (modify f) := by
  intro s hs b t h
  cases h
  exact ⟨rfl, hf s hs⟩

theorem ite {c : Prop} [Decidable c] (h : c → j.Within P j') {k k' : Job α}
    (hk : ¬ c → k.Within P k') : Within P (if c then j else k) (if c then j' else k') := by
  split
  case isTrue hc => exact h hc
  case isFalse hc => exact hk hc

/-- A job for each of some things, one after the other. -/
theorem forM {γ : Type} {f f' : γ → Job PUnit} (hf : ∀ c, Within P (f c) (f' c)) :
    ∀ cs : List γ, Within P (cs.forM f) (cs.forM f')
  | [] => pure _
  | c :: cs => (hf c).bind fun _ => forM hf cs

/-! ### Jobs inside of jobs -/

/-- Why a job has left its place is an answer as well. -/
theorem caught (hu : u.Within P u') : Within P (caught u) (caught u') := by
  intro s hs b t h
  unfold Shell.caught at h ⊢
  split at h
  case h_1 => cases h
  case h_2 he | h_3 he =>
    cases h
    obtain ⟨he', ht⟩ := hu s hs _ _ he
    exact ⟨by rw [he'], ht⟩

/-- A job on a copy of the shell takes the streams of the shell. -/
theorem isolated (hu : u.Within P u') : Within P (isolated u) (isolated u') := by
  intro s hs b t h
  unfold Shell.isolated at h ⊢
  split at h
  case h_1 => cases h
  case h_2 he =>
    cases h
    obtain ⟨he', ht⟩ := hu s hs _ _ he
    exact ⟨by rw [he'], ht.files, hs.out, hs.err⟩

/-- The output that is captured goes to no file. -/
theorem outputOf (hu : u.Within P u') : Within P (outputOf u) (outputOf u') := by
  intro s hs b t h
  unfold Shell.outputOf at h ⊢
  split at h
  case h_1 => cases h
  case h_2 he =>
    cases h
    have hs' : Status.Confined P { s with out := .captured, captured := [] } :=
      ⟨hs.files, trivial, hs.err⟩
    obtain ⟨he', ht⟩ := hu.isolated _ hs' _ _ he
    exact ⟨by rw [he'], ht.files, hs.out, ht.err⟩

end Job.Within

/-! ### What builtins do to a shell -/

/-- Whether a job keeps a shell to the names that it has to do with. -/
abbrev Job.Keeps (P : String → Prop) (j : Job α) : Prop := j.Within P j

open Job (Within Keeps)

theorem keeps_setCode (n : Nat) : Keeps P (setCode n) :=
  .modify fun _ hs => ⟨hs.files, hs.out, hs.err⟩

theorem keeps_leave : ∀ l : Option Leave, Keeps P (leave l)
  | none => .pure _
  | some l => .throw l

theorem keeps_abort (n : Nat) : Keeps P (abort n : Job α) :=
  (keeps_setCode n).bind fun _ => .throw _

theorem keeps_assign (name : String) (v : Bytes) : Keeps P (assign name v) :=
  .modify fun _ hs => ⟨hs.files, hs.out, hs.err⟩

/-- What is written to a stream goes to the file that the stream leads to. -/
theorem keeps_emit {sink : Sink} (h : sink.Confined P) (bs : Bytes) : Keeps P (emit sink bs) := by
  refine .modify fun s hs => ?_
  cases sink with
  | captured => exact ⟨hs.files, hs.out, hs.err⟩
  | dropped => exact hs
  | file name => exact ⟨Dictionary.forall_get?_insert hs.files h, hs.out, hs.err⟩

theorem keeps_write (bs : Bytes) : Keeps P (write bs) :=
  .get fun _ hs => keeps_emit hs.out bs

/-- Reading assigns to variables only, which are not files. -/
theorem keeps_readInto (gaps : Bytes) : ∀ (names : List String) (s : Bytes),
    Keeps P (readInto gaps names s)
  | [], _ => .pure _
  | [_], _ => keeps_assign _ _
  | n :: m :: ns, s => by
    refine .bind (keeps_assign _ _) fun _ => ?_
    split
    · exact keeps_readInto gaps (m :: ns) _
    · exact keeps_readInto gaps (m :: ns) _

theorem keeps_runRead (args : List Bytes) : Keeps P (runRead args) :=
  .get fun s hs => by
    dsimp only
    exact .bind (.set ⟨hs.files, hs.out, hs.err⟩) fun _ =>
      .bind (keeps_readInto _ _ _) fun _ => keeps_setCode _

/-- The program `cat` writes to the output, and reads anything. -/
theorem keeps_writeFile (name : Bytes) : Keeps P (writeFile name) := by
  refine .get fun s hs => .ite (fun _ => ?_) fun _ => .ite (fun _ => keeps_setCode _) fun _ => ?_
  · exact .bind (.set ⟨hs.files, hs.out, hs.err⟩) fun _ => keeps_write _
  · split
    · exact keeps_write _
    · exact keeps_setCode _

theorem keeps_runCat (args : List Bytes) : Keeps P (runCat args) :=
  .forM keeps_writeFile _

theorem keeps_runTr (args : List Bytes) : Keeps P (runTr args) := by
  refine .get fun s hs => ?_
  split
  · exact .bind (.set ⟨hs.files, hs.out, hs.err⟩) fun _ => keeps_write _
  · exact keeps_setCode _

/-- A file that has been removed has no name at all. -/
theorem keeps_removeFile (force : Bool) (name : Bytes) : Keeps P (removeFile force name) := by
  refine .get fun s hs => ?_
  split
  · refine .ite (fun _ => ?_) fun _ => ?_
    · exact .set ⟨Dictionary.forall_get?_erase hs.files, hs.out, hs.err⟩
    · exact .ite (fun _ => .pure _) fun _ => keeps_setCode _
  · exact keeps_setCode _
  · exact .ite (fun _ => .pure _) fun _ => keeps_setCode _

theorem keeps_runRm (args : List Bytes) : Keeps P (runRm args) :=
  .bind (keeps_setCode _) fun _ => .forM (keeps_removeFile _) _

theorem keeps_runPrintf (args : List Bytes) : Keeps P (runPrintf args) := by
  unfold runPrintf
  split
  · exact keeps_setCode _
  · exact .bind (keeps_write _) fun _ => keeps_setCode _

theorem keeps_runTest (inBrackets : Bool) (args : List Bytes) :
    Keeps P (runTest inBrackets args) :=
  .get fun _ _ => .ite (fun _ => keeps_setCode _) fun _ => keeps_setCode _

theorem keeps_runSet (args : List Bytes) : Keeps P (runSet args) := by
  refine .modify fun s hs => ?_
  split
  · exact hs
  · split_ifs
    · exact ⟨hs.files, hs.out, hs.err⟩
    · exact ⟨hs.files, hs.out, hs.err⟩
    · exact hs

theorem keeps_runShift (args : List Bytes) : Keeps P (runShift args) := by
  refine .modify fun s hs => ?_
  dsimp only
  split <;> exact ⟨hs.files, hs.out, hs.err⟩

theorem keeps_runUnset (args : List Bytes) : Keeps P (runUnset args) := by
  refine .modify fun s hs => ?_
  dsimp only
  split <;> exact ⟨hs.files, hs.out, hs.err⟩

theorem keeps_declare (a : Bytes) : Keeps P (declare a) :=
  .ite (fun _ => keeps_assign _ _) fun _ => .pure _

theorem keeps_runCd (args : List Bytes) : Keeps P (runCd args) := by
  refine .get fun s hs => ?_
  split <;> exact keeps_setCode _

/-- No builtin and no program gives a file a name that it may not have. -/
theorem keeps_of_mem : ∀ e ∈ builtins ++ programs, ∀ args, Keeps P (e.2 args) := by
  simp only [builtins, programs, List.cons_append, List.nil_append, List.forall_mem_cons]
  exact ⟨fun _ => .pure _, fun _ => .pure _, fun _ => .pure _, fun _ => .pure _, fun _ => .pure _,
    fun _ => keeps_setCode _, fun _ => keeps_write _, keeps_runPrintf, keeps_runTest _,
    keeps_runTest _, keeps_runRead, keeps_runSet, keeps_runShift, keeps_runUnset,
    fun _ => .forM keeps_declare _, fun _ => .forM keeps_declare _, fun _ => .forM keeps_declare _,
    keeps_runCd, fun _ => .throw _, fun _ => .throw _, keeps_runCat, keeps_runTr, keeps_runRm,
    nofun⟩

theorem keeps_runBuiltin (name : String) (args : List Bytes) : Keeps P (runBuiltin name args) := by
  unfold runBuiltin
  split
  case h_1 job hl =>
    obtain ⟨l, r, he, -⟩ := List.lookup_eq_some_iff.1 hl
    have hm : (name, job) ∈ builtins ++ programs := by simp [he]
    exact .bind (keeps_setCode _) fun _ => keeps_of_mem _ hm args
  case h_2 => exact keeps_setCode _

theorem keeps_lookUp : ∀ names : List Bytes, Keeps P (lookUp names)
  | [] => .pure _
  | a :: rest => by
    refine .get fun s hs => ?_
    split
    · exact .bind (keeps_write _) fun _ => .bind (keeps_setCode _) fun _ => keeps_lookUp rest
    · exact keeps_setCode _

end Catena.Shell
