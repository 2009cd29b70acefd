import Catena.Host.Sandbox
import Catena.Proofs.Lockstep

/-!
# The names of core words

A name is looked up among the core words first. A program may bind such a name too, and the
environment then has a quote under it, but no run looks at that quote: the name still means the
core word, at every depth of nesting. This holds in particular of the word `call` that stands
behind the quote of a bound name, when it is expanded.

* `State.run_inert_core_names`: machines end alike whose environments bind the same quotes to all
  names but those of core words.
-/

namespace Catena

variable {H : Type}

/-- Two environments have the same quotes under all names but those of core words. -/
def SameBeyondCore (env env' : Environment) : Prop :=
  ∀ name, Word.ofName? name = none → env'.get? name = env.get? name

section Environments

variable {env env' : Environment}

/-- What is bound in both stays the same, whatever its name is. -/
theorem SameBeyondCore.insert (h : SameBeyondCore env env') (name : String) (q : Quote) :
    SameBeyondCore (env.insert name q) (env'.insert name q) := by
  intro n hn
  rw [Dictionary.get?_insert, Dictionary.get?_insert, h n hn]

/-- What is bound to the name of a core word makes no difference. -/
theorem sameBeyondCore_insert (env : Environment) (w : Word) (q : Quote) :
    SameBeyondCore env (env.insert w.name q) := by
  intro n hn
  have hne : w.name ≠ n := by
    rintro rfl
    rw [Word.ofName?_name] at hn
    cases hn
  rw [Dictionary.get?_insert, if_neg hne]

end Environments

section Words

variable [Host H] {w : Word} {s s' : State H} {d : Demand} {env : Environment}

/-- No core word looks at the environment; `def` binds a name in it. -/
theorem Word.Effect.withEnv (h : w.Effect s d s') (he : SameBeyondCore s.env env) :
    ∃ env', w.Effect { s with env := env } d { s' with env := env' } ∧
      SameBeyondCore s'.env env' := by
  cases h with
  | rewrite hr hs => exact ⟨env, .rewrite (s := { s with env := env }) hr hs, he⟩
  | printStack => exact ⟨env, .printStack, he⟩
  | call hs ha => exact ⟨env, .call (s := { s with env := env }) hs ha, he⟩
  | callFails hs ha => exact ⟨env, .callFails (s := { s with env := env }) hs ha, he⟩
  | select hs ha => exact ⟨env, .select (s := { s with env := env }) hs ha, he⟩
  | selectNone hs ha => exact ⟨env, .selectNone (s := { s with env := env }) hs ha, he⟩
  | @define name q _ _ hs =>
    exact ⟨env.insert name q, .define (s := { s with env := env }) hs, he.insert name q⟩
  | eval hs => exact ⟨env, .eval (s := { s with env := env }) hs, he⟩
  | exit => exact ⟨env, .exit, he⟩

namespace State

omit [Host H] in
theorem Lockstep.eq_withEnv {E : Environment → Environment → Prop} {t : State H}
    (h : Lockstep Eq E Eq s t) : t = { s with env := t.env } :=
  h.eq_with.trans (by rw [← h.stack, ← h.host])

/-- Items do the same in environments that are the same beyond the names of core words. -/
theorem congruence_sameBeyondCore :
    Congruence (H := H) Eq SameBeyondCore Eq fun _ => True where
  push v h := congrArg (v :: ·) h
  lookup h := h _
  topTypes_eq h _ := by rw [h.stack]
  effect := by
    intro w d s s' t h _ _ he
    obtain ⟨env', he', hsame⟩ := he.withEnv h.env
    refine ⟨{ s' with env := env' }, ?_, ⟨rfl, hsame, rfl, rfl, rfl, rfl, rfl, rfl⟩⟩
    rw [h.eq_withEnv]
    exact he'

/-- What is bound to the names of core words is inert. Two machines that differ in nothing else
    run alike, nested runs included: with the same ending, for the same cause, or without an
    end, and they differ in nothing else afterwards. So it makes no difference to a run whether
    the name of a core word is bound, be it `call`, on which the bound names rely. -/
theorem run_inert_core_names (s : State H) (env : Environment) (he : SameBeyondCore s.env env)
    (fuel : Nat) :
    Option.Rel (Ending.Rel (Lockstep Eq SameBeyondCore Eq)) (run fuel s)
        (run fuel { s with env := env }) ∧
      ∀ w q, Option.Rel (Ending.Rel (Lockstep Eq SameBeyondCore Eq)) (run fuel s)
        (run fuel { s with env := s.env.insert (Word.name w) q }) := by
  have hrun : ∀ env', SameBeyondCore s.env env' →
      Option.Rel (Ending.Rel (Lockstep Eq SameBeyondCore Eq)) (run fuel s)
        (run fuel { s with env := env' }) := by
    intro env' he'
    have hl : Lockstep Eq SameBeyondCore Eq s { s with env := env' } :=
      ⟨rfl, he', rfl, rfl, rfl, rfl, rfl, rfl⟩
    exact congruence_sameBeyondCore.simulation.proceed_rel hl.recount (fun _ _ _ => trivial) fuel
  exact ⟨hrun env he, fun w q => hrun _ (sameBeyondCore_insert s.env w q)⟩

/-- A bound name is expanded on a machine on which `call` is bound to a quote that would end the
    program, and is bound once more on the way. -/
theorem run_inert_core_names_call :
    ∃ s t s' t' : State Sandbox, SameBeyondCore s.env t.env ∧ s.env.get? "call" = none ∧
      t.env.get? "call" = some ⟨[], [.atom "exit"]⟩ ∧
      s.queue = [.quote [] [], .sym "call", .atom "def", .sym "a", .atom "dup"] ∧
      run 10 s = some (.finished s') ∧ run 10 t = some (.finished t') ∧
      t'.stack = [.sym "a", .sym "a"] ∧ SameBeyondCore s'.env t'.env := by
  let env : Environment := Dictionary.empty.insert "dup" ⟨[.atom "x"], [.atom "x", .atom "x"]⟩
  let s : State Sandbox := {
    queue := [.quote [] [], .sym "call", .atom "def", .sym "a", .atom "dup"]
    env := env
    host := {} }
  have he : SameBeyondCore env (env.insert Word.call.name ⟨[], [.atom "exit"]⟩) :=
    sameBeyondCore_insert env .call _
  have hs : run 10 s = some (.finished _) := rfl
  obtain ⟨t', ht, hl⟩ := Ending.exists_finished_right (run_inert_core_names s _ he 10).1 hs
  exact ⟨s, _, _, t', he, rfl, rfl, rfl, hs, ht, hl.stack.symm, hl.env⟩

end State

end Words

end Catena
