import Catena.Host.Sandbox
import Catena.Proofs.Matching
import Catena.Proofs.Printing
import Catena.Proofs.Steps

/-!
# Names on machines

Every name that a machine comes to hold is one that could be read in a source text. The parser
makes only such names, and no word makes new ones out of strings: what a word puts on the stack
has its names from the values it takes, or is one of a few symbols (`Word.Rewrites.readable`).
Substitution puts together names that were there before, and `def` binds the name of a symbol.
What a host answers is a string, which only the parser can turn into anything else.

* `State.Runs.readable`: a run keeps all names readable;
* `Machine.readable_of_reachesIn`: so are the names on every machine that has grown out of a new
  one, at every level of nesting and at every moment.
-/

namespace Catena

open Grammar (IsName)
open Catena.Action (applyTo firstClause)

/-! ### Names in values -/

namespace Value

/-- Every atom and every symbol in a value has a name that could be read, which has at least one
    character, and none but those of names: in patterns and bodies at all levels. -/
def Readable (v : Value) : Prop :=
  ∀ name, .atom name ∈ v.leaves ∨ .sym name ∈ v.leaves → IsName name.toList

variable {v : Value} {vs p b : List Value} {bindings bindings' : Bindings} {name : String}

@[simp]
theorem readable_num (x : Float) : (num x).Readable := by
  simp [Readable, leaves]

@[simp]
theorem readable_str (t : String) : (str t).Readable := by
  simp [Readable, leaves]

@[simp]
theorem readable_atom : (atom name).Readable ↔ IsName name.toList := by
  simp [Readable, leaves]

@[simp]
theorem readable_sym : (sym name).Readable ↔ IsName name.toList := by
  simp [Readable, leaves]

/-- The names in a quote are those in its pattern and in its body. -/
@[simp]
theorem readable_quote :
    (quote p b).Readable ↔ (∀ v ∈ p, v.Readable) ∧ ∀ v ∈ b, v.Readable := by
  simp only [Readable, leaves, List.mem_append, mem_leavesOf]
  grind

@[simp]
theorem readable_ofBody : (ofBody vs).Readable ↔ ∀ v ∈ vs, v.Readable := by
  simp [ofBody]

@[simp]
theorem readable_toValue {q : Quote} :
    q.toValue.Readable ↔ (∀ v ∈ q.pattern, v.Readable) ∧ ∀ v ∈ q.body, v.Readable :=
  readable_quote

@[simp]
theorem readable_ok : ok.Readable := readable_sym.2 (by decide)

@[simp]
theorem readable_notOk : notOk.Readable := readable_sym.2 (by decide)

@[simp]
theorem readable_nil : nil.Readable := readable_sym.2 (by decide)

@[simp]
theorem readable_truth (c : Bool) : (truth c).Readable := by
  cases c
  · exact readable_sym.2 (by decide)
  · exact readable_sym.2 (by decide)

/-- The names of types could be read. -/
@[simp]
theorem readable_toValue_ty (t : Ty) : t.toValue.Readable := by
  induction t with
  | quote p b ihp ihb =>
    have hq : (sym "Quote").Readable := readable_sym.2 (by decide)
    simp [Ty.toValue, hq, ihp, ihb]
  | _ => exact readable_sym.2 (by decide)

/-- What is read has names that could be read. -/
theorem readable_of_parse {limit : Nat} {source : String}
    (h : Parser.parse limit source = .ok vs) : ∀ v ∈ vs, v.Readable := by
  intro v hv name hn
  have hs : ∀ l ∈ v.leaves, l.IsSpelled := fun l hl =>
    Parser.isSpelled_of_parse h l (mem_leavesOf.2 ⟨v, hv, hl⟩)
  rcases hn with hn | hn
  · exact hs _ hn
  · exact hs _ hn

/-! ### Names in bindings -/

/-- What is put in for variables, and what it is put into, contribute all names. -/
theorem readable_subst (hb : ∀ n w, bindings.get? n = some w → w.Readable) (h : v.Readable) :
    (subst bindings v).Readable := by
  induction v using Value.induction with
  | atom n =>
    rw [subst]
    cases hg : bindings.get? n with
    | none => exact h
    | some w => exact hb n w hg
  | quote p b _ ihb =>
    rw [readable_quote] at h
    rw [subst_quote, substAll_eq_map, readable_quote]
    exact ⟨h.1, List.forall_mem_map.2 fun w hw => ihb w hw (h.2 w hw)⟩
  | _ => exact h

end Value

/-! ### Names on stacks -/

namespace Action

variable {stack body below clauses : List Value} {q : Quote}

/-- A call puts together names of the quote and of the values that it takes. -/
theorem readable_applyTo (h : applyTo stack q = some (body, below)) (hq : q.toValue.Readable)
    (hs : ∀ v ∈ stack, v.Readable) : (∀ v ∈ body, v.Readable) ∧ ∀ v ∈ below, v.Readable := by
  obtain ⟨bindings, hm, he⟩ := Option.map_eq_some_iff.1 h
  cases he
  -- The names in what is bound come from the values that the pattern is matched against.
  have hb (n : String) (w : Value) (hn : bindings.get? n = some w) : w.Readable :=
    hs w (List.mem_of_mem_take (List.mem_reverse.1 (Pattern.mem_of_match? hm hn)))
  refine ⟨?_, fun v hv => hs v (List.mem_of_mem_drop hv)⟩
  rw [Quote.bind_eq, Value.substAll_eq_map]
  exact List.forall_mem_map.2 fun v hv =>
    Value.readable_subst hb ((Value.readable_toValue.1 hq).2 v hv)

/-- A choice puts together names of its clauses and of the values that it takes. -/
theorem readable_firstClause (h : firstClause stack clauses = some (body, below))
    (hc : ∀ v ∈ clauses, v.Readable) (hs : ∀ v ∈ stack, v.Readable) :
    (∀ v ∈ body, v.Readable) ∧ ∀ v ∈ below, v.Readable := by
  obtain ⟨c, hmem, hf⟩ := List.exists_of_findSome?_eq_some h
  cases c with
  | quote p b => exact readable_applyTo (q := ⟨p, b⟩) hf (hc _ hmem) hs
  | _ => cases hf

end Action

/-! ### Names on machines -/

/-- Every name that a machine holds could be read: those of the atoms and symbols on its stack,
    in its queue and in the quotes that are bound, and those that they are bound to. -/
structure Machine.Readable (m : Machine) : Prop where
  stack : ∀ v ∈ m.stack, v.Readable
  queue : ∀ v ∈ m.queue, v.Readable
  env : ∀ name q, m.env.get? name = some q → IsName name.toList ∧ q.toValue.Readable

variable {H : Type}

section Items

variable [Host H] {w : Word} {s s' : State H} {d : Demand}

/-- What a core word puts on the stack has no names but those that it has taken, names of its own,
    and names that have been read. -/
theorem Word.Rewrites.readable {taken pushed : List Value} {h h' : H}
    (hr : w.Rewrites taken h pushed h') (ht : ∀ v ∈ taken, v.Readable) :
    ∀ v ∈ pushed, v.Readable := by
  -- Some words move values between the stack and the halves of quotes. What the others put there
  -- has no names in it, or a name that is always the same, unless it has been read.
  cases hr with
  | parse hp =>
    have hi := Value.readable_of_parse hp
    simpa using hi
  | takeBody | putBody | takePattern | putPattern | join | split =>
    simp_all [Quote.push, Quote.pushPattern, or_imp, forall_and]
  | _ => simp_all

/-- No core word makes names that could not be read. -/
theorem Word.Effect.readable (h : w.Effect s d s') (hs : s.Readable) : s'.Readable := by
  obtain ⟨hstack, hqueue, henv⟩ := hs
  cases h with
  | rewrite hr hst =>
    rw [hst, List.forall_mem_append] at hstack
    exact ⟨List.forall_mem_append.2 ⟨hr.readable hstack.1, hstack.2⟩, hqueue, henv⟩
  | printStack => exact ⟨hstack, hqueue, henv⟩
  | call hst ha =>
    rw [hst, List.forall_mem_cons] at hstack
    obtain ⟨hb, hr⟩ := Action.readable_applyTo ha hstack.1 hstack.2
    exact ⟨hr, List.forall_mem_append.2 ⟨hb, hqueue⟩, henv⟩
  | callFails hst ha =>
    rw [hst, List.forall_mem_cons] at hstack
    refine ⟨List.forall_mem_cons.2 ⟨Value.readable_nil, fun v hv => ?_⟩, hqueue, henv⟩
    exact hstack.2 v (List.mem_of_mem_drop hv)
  | select hst ha =>
    rw [hst, List.forall_mem_cons] at hstack
    obtain ⟨hb, hr⟩ := Action.readable_firstClause ha (Value.readable_toValue.1 hstack.1).2 hstack.2
    exact ⟨hr, List.forall_mem_append.2 ⟨hb, hqueue⟩, henv⟩
  | selectNone hst ha =>
    rw [hst, List.forall_mem_cons] at hstack
    exact ⟨hstack.2, hqueue, henv⟩
  | define hst =>
    rw [hst, List.forall_mem_cons, List.forall_mem_cons] at hstack
    exact ⟨hstack.2.2, hqueue,
      Dictionary.forall_get?_insert henv ⟨Value.readable_sym.1 hstack.1, hstack.2.1⟩⟩
  | eval hst =>
    rw [hst, List.forall_mem_cons] at hstack
    exact ⟨hstack.2, hqueue, henv⟩
  | exit => exact ⟨hstack, nofun, henv⟩

end Items

namespace State

section Runs

variable [Host H] {s s' t u : State H} {d : Demand} {v : Value} {e : Fault} {source : String}
  {program : List Value} {r : Ending H} {log : List (Event H)} {fuel : Nat}

/-- No item makes names that could not be read. -/
theorem Carries.readable (h : Carries v s d s') (hs : s.Readable) (hv : v.Readable) :
    s'.Readable := by
  cases h with
  | literal => exact { hs with stack := List.forall_mem_cons.2 ⟨hv, hs.stack⟩ }
  | core hw ha he => exact he.readable hs
  | bound hw hq =>
    have hc : (Value.atom Word.call.name).Readable := Value.readable_atom.2 (by decide)
    exact { hs with
      queue := List.forall_mem_cons.2 ⟨(hs.env _ _ hq).2, List.forall_mem_cons.2 ⟨hc, hs.queue⟩⟩ }

omit [Host H] in
/-- A machine that is stopped has lost an item, and no more. -/
theorem readable_turn_stop (ht : s.turn = .stop e t) (hs : s.Readable) : t.Readable := by
  obtain ⟨-, v, rest, _, hq, -, -, rfl⟩ := turn_eq_stop.1 ht
  have hqueue := hs.queue
  rw [hq, List.forall_mem_cons] at hqueue
  exact { hs with queue := hqueue.2 }

omit [Host H] in
/-- The item that comes next is one of the queue. -/
theorem readable_turn_item (ht : s.turn = .item v t) (hs : s.Readable) :
    v.Readable ∧ t.Readable := by
  obtain ⟨-, rest, hq, -, rfl⟩ := turn_eq_item.1 ht
  have hqueue := hs.queue
  rw [hq, List.forall_mem_cons] at hqueue
  exact ⟨hqueue.1, { hs with queue := hqueue.2 }⟩

/-- Names stay readable when the next item is carried out. -/
theorem readable_dispatch (ht : s.turn = .item v t) (hd : dispatch v t = .ok d u)
    (hs : s.Readable) : u.Readable := by
  obtain ⟨hv, hr⟩ := readable_turn_item ht hs
  exact (carries_of_dispatch hd).readable hr hv

omit [Host H] in
/-- A nested machine has the names of the outer one and those of the text. -/
theorem readable_nested (hp : s.programOf source = .ok program) (hs : s.Readable) :
    (s.nested program).Readable :=
  { hs with queue := Value.readable_of_parse (programOf_eq_ok.1 hp).2 }

omit [Host H] in
/-- A transaction brings names back from the nested machine, or none. -/
theorem readable_settle (hs : s.Readable) (hr : r.state.Readable) :
    (s.settle r).state.Readable := by
  cases r with
  | stopped e inner => exact { hs with }
  | finished inner =>
    rw [settle, Ending.state, commit_eq]
    -- The queue is that of the outer machine, or empty if the program has ended.
    refine ⟨hr.stack, fun v hv => ?_, hr.env⟩
    dsimp only at hv
    split at hv
    · cases hv
    · exact hs.queue v hv

omit [Host H] in
/-- The symbols that tell how a run has ended could be read. -/
theorem readable_withStatus (hr : r.state.Readable) : r.withStatus.Readable := by
  cases r with
  | finished s => exact { hr with stack := List.forall_mem_cons.2 ⟨Value.readable_ok, hr.stack⟩ }
  | stopped e s =>
    exact { hr with stack := List.forall_mem_cons.2 ⟨Value.readable_notOk, hr.stack⟩ }

/-- A run keeps all names readable. -/
theorem Runs.readable (h : Runs s log r) (hs : s.Readable) : r.state.Readable := by
  induction h with
  | idle => exact hs
  | stop ht => exact readable_turn_stop ht hs
  | fail ht hd =>
    obtain ⟨-, rfl⟩ := fails_of_dispatch hd
    exact (readable_turn_item ht hs).2
  | step ht hd _ ih => exact ih (readable_dispatch ht hd hs)
  | refuse ht hd hp _ ih => exact ih (readable_withStatus (readable_dispatch ht hd hs))
  | nest ht hd hp _ _ ihi ih =>
    have hu := readable_dispatch ht hd hs
    exact ih (readable_withStatus (readable_settle hu (ihi (readable_nested hp hu))))

/-- A transaction keeps all names readable. -/
theorem Evaluates.readable (h : Evaluates source s log r) (hs : s.Readable) :
    r.state.Readable := by
  cases h with
  | refuse => exact hs
  | nest hp hr => exact readable_settle hs (hr.readable (readable_nested hp hs))

/-- A step keeps all names readable. -/
theorem Step.readable (h : Step s s') (hs : s.Readable) : s'.Readable := by
  obtain ⟨v, t, d, u, log, ht, hd, hm⟩ := h.exists_meets
  have hu := readable_dispatch ht hd hs
  cases hm with
  | proceed => exact hu
  | evaluate he => exact readable_withStatus (he.readable hu)

theorem readable_evaluate (h : evaluate fuel source s = some r) (hs : s.Readable) :
    r.state.Readable := by
  obtain ⟨log, he⟩ := exists_evaluates_of_evaluate h
  exact he.readable hs

end Runs

/-! ### Everywhere in a run -/

/-- A state that a machine comes to in its run, or a machine nested in it does, whether or not
    the run ends: between two items, once an item is off the queue, once it has been carried out,
    and once a text has been run for it. -/
inductive Reaches [Host H] : State H → State H → Prop
  | refl {s} : Reaches s s
  | stop {s t e} : s.turn = .stop e t → Reaches s t
  | item {s t v} : s.turn = .item v t → Reaches s t
  | dispatch {s t u v d} : s.turn = .item v t → dispatch v t = .ok d u → Reaches s u
  | nest {s t u s' v source program} : s.turn = .item v t →
    State.dispatch v t = .ok (.evaluate source) u → u.programOf source = .ok program →
    Reaches (u.nested program) s' → Reaches s s'
  | settle {s t u v source fuel r} : s.turn = .item v t →
    State.dispatch v t = .ok (.evaluate source) u → evaluate fuel source u = some r →
    Reaches s r.state
  | later {s s' s''} : Step s s' → Reaches s' s'' → Reaches s s''

/-- A state that a machine comes to when it runs a text, or a machine nested in it does. -/
inductive ReachesIn [Host H] (source : String) (s : State H) : State H → Prop
  | refl : ReachesIn source s s
  | nest {program s'} : s.programOf source = .ok program → Reaches (s.nested program) s' →
    ReachesIn source s s'
  | settle {fuel r} : evaluate fuel source s = some r → ReachesIn source s r.state

section Reached

variable [Host H] {s t : State H} {source : String}

/-- All states that a run comes to have readable names. -/
theorem Reaches.readable (h : Reaches s t) (hs : s.Readable) : t.Readable := by
  induction h with
  | refl => exact hs
  | stop ht => exact readable_turn_stop ht hs
  | item ht => exact (readable_turn_item ht hs).2
  | dispatch ht hd => exact readable_dispatch ht hd hs
  | nest ht hd hp _ ih => exact ih (readable_nested hp (readable_dispatch ht hd hs))
  | settle ht hd he => exact readable_evaluate he (readable_dispatch ht hd hs)
  | later h _ ih => exact ih (h.readable hs)

/-- All states that the run of a text comes to have readable names. -/
theorem ReachesIn.readable (h : ReachesIn source s t) (hs : s.Readable) : t.Readable := by
  cases h with
  | refl => exact hs
  | nest hp hr => exact hr.readable (readable_nested hp hs)
  | settle he => exact readable_evaluate he hs

end Reached

end State

/-! ### Everywhere in the life of a machine -/

namespace Machine

/-- A machine that has grown out of a new one: it has run one text after the other, with success
    or without, and with a host of its own for each. -/
inductive Evolved : Machine → Prop
  | new {limits : Limits} : Evolved { limits := limits }
  | evaluate {H : Type} [Host H] {host : H} {m : Machine} {source : String} {fuel : Nat}
    {r : Ending H} : Evolved m → State.evaluate fuel source { m with host := host } = some r →
    Evolved r.state.toMachine

/-- A new machine holds no names, and whatever it runs makes only readable ones. -/
theorem Evolved.readable {m : Machine} (h : m.Evolved) : m.Readable := by
  induction h with
  | new => exact ⟨nofun, nofun, nofun⟩
  | evaluate _ he ih => exact State.readable_evaluate he ih

/-- Every name that a machine comes to hold could be read: in every state that it comes to when
    it runs a text, after any others, or that a machine nested in it does, whatever the host
    answers. -/
theorem readable_of_reachesIn [Host H] {m : Machine} (hm : m.Evolved) (source : String)
    (host : H) {t : State H} (ht : State.ReachesIn source { m with host := host } t) :
    t.Readable :=
  ht.readable hm.readable

/-- A name is bound on a machine that is nested two levels deep, after one text that has left a
    symbol on the stack. -/
theorem readable_of_reachesIn_define :
    ∃ (m : Machine) (t : State Sandbox), m.Evolved ∧ m.stack = [.sym "a"] ∧
      State.ReachesIn "'[x | x y] :b def' eval" { m with host := ({} : Sandbox) } t ∧
      t.depth = 2 ∧ t.stack = [.sym "a"] ∧
      t.env.get? "b" = some ⟨[.atom "x"], [.atom "x", .atom "y"]⟩ ∧ t.Readable := by
  have ha : Parser.parse Parser.defaultDepth ":a" = .ok [.sym "a"] := by
    with_unfolding_all rfl
  have hp : Parser.parse Parser.defaultDepth "'[x | x y] :b def' eval" =
      .ok [.str "[x | x y] :b def", .atom "eval"] := by
    with_unfolding_all rfl
  have hp' : Parser.parse Parser.defaultDepth "[x | x y] :b def" =
      .ok [.quote [.atom "x"] [.atom "x", .atom "y"], .sym "b", .atom "def"] := by
    with_unfolding_all rfl
  have hn {s : State Sandbox} {source program} (hd : s.depth < s.limits.depth)
      (h : Parser.parse Parser.defaultDepth source = .ok program) :
      s.programOf source = .ok program :=
    State.programOf_eq_ok.2 ⟨hd, h⟩
  have he : State.evaluate (H := Sandbox) 2 ":a" { host := {} } = some (.finished _) :=
    (State.evaluate_of_ok (hn (show 0 < 64 by decide) ha)).trans rfl
  have hm : Evolved _ := .evaluate .new he
  have ht : State.ReachesIn (H := Sandbox) "'[x | x y] :b def' eval"
      { stack := [.sym "a"], host := {} } _ :=
    .nest (hn (show 0 < 64 by decide) hp)
      (.later (.of_meets rfl rfl .proceed) (.nest rfl rfl (hn (show 1 < 64 by decide) hp')
        (.later (.of_meets rfl rfl .proceed) (.later (.of_meets rfl rfl .proceed)
          (.dispatch rfl rfl)))))
  exact ⟨_, _, hm, rfl, ht, rfl, rfl, rfl, readable_of_reachesIn hm _ _ ht⟩

end Machine

end Catena
