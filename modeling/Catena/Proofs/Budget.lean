import Catena.Host.Sandbox
import Catena.Proofs.Steps

/-!
# The step budget

A limit on the number of items is a budget for a whole text. Below top level the count of a
machine goes on into the runs nested in it, and comes back from them whether they succeed or
fail, so that it grows by one for every item that is carried out anywhere in a run
(`State.Runs.steps_eq`), and never beyond the limit (`State.Runs.steps_le`).

The limit is also what makes runs end. A program may well evaluate itself for ever, but every
turn that carries out an item brings the count closer to the limit (`State.exists_runs`).

* `State.evaluate_within_budget`: at top level, a text comes to an end, and no more items are
  carried out for it than the limit says;
* `State.run_within_budget`: at top level, the run of a queue comes to an end, but there the
  limit is for the items of the queue alone, and again for every text that they evaluate
  (`State.run_beyond_limit`).
-/

namespace Catena.State

variable {H : Type}

/-! ### The count of a run -/

variable {s t u : State H} {v : Value} {d : Demand} {e : Fault} {log : List (Event H)}
  {r : Ending H} {limit : Nat}

/-- An item is carried out below the limit only. -/
theorem steps_lt_of_turn (ht : s.turn = .item v t) (hl : s.limits.steps = some limit) :
    s.steps < limit := by
  obtain ⟨-, _, -, hn, -⟩ := turn_eq_item.1 ht
  by_contra hs
  rw [reachedLimit?_eq_some.2 ⟨hl, Nat.not_lt.1 hs⟩] at hn
  cases hn

variable [Host H] {s' : State H} {program : List Value}

/-- Below top level, the count of a machine grows by one for every item that is carried out,
    those of nested runs included. -/
theorem Runs.steps_eq (h : Runs s log r) (hd : 0 < s.depth) :
    r.state.steps = s.steps + itemCount log := by
  induction h with
  | idle => rfl
  | stop ht => exact (turn_stop_frame ht).2.2
  | fail ht hx =>
    obtain ⟨-, rfl⟩ := fails_of_dispatch hx
    exact (turn_item_frame ht).2.2
  | step ht hx _ ih =>
    obtain ⟨-, hk, hc⟩ := dispatch_frame ht hx
    rw [ih (by rwa [hk]), hc, itemCount_item]
    omega
  | refuse ht hx hp _ ih =>
    obtain ⟨-, hk, hc⟩ := dispatch_frame ht hx
    have hc' := ih (by rwa [Ending.withStatus_depth, Ending.state, hk])
    rw [hc', Ending.withStatus_steps, Ending.state, hc, itemCount_item, itemCount_refusal]
    omega
  | @nest s t u _ _ program inner _ _ _ ht hx hp _ _ ihi ih =>
    obtain ⟨-, hk, hc⟩ := dispatch_frame ht hx
    have hu : 0 < u.depth := hk ▸ hd
    -- The nested run starts with the count of the outer run, which takes it over at the end.
    have hi := ihi (Nat.succ_pos u.depth)
    rw [nested_steps hu, hc] at hi
    have hc' := ih (by rwa [Ending.withStatus_depth, settle_depth])
    rw [hc', Ending.withStatus_steps, settle_steps hu, hi, itemCount_item, itemCount_append]
    omega

/-- The count of a machine does not pass the limit. -/
theorem Runs.steps_le (h : Runs s log r) (hl : s.limits.steps = some limit)
    (hs : s.steps ≤ limit) : r.state.steps ≤ limit := by
  induction h with
  | idle => exact hs
  | stop ht => exact (turn_stop_frame ht).2.2.trans_le hs
  | fail ht hx =>
    obtain ⟨-, rfl⟩ := fails_of_dispatch hx
    exact (turn_item_frame ht).2.2.trans_le (steps_lt_of_turn ht hl)
  | step ht hx _ ih =>
    obtain ⟨hlu, -, hc⟩ := dispatch_frame ht hx
    exact ih (hlu ▸ hl) (hc.trans_le (steps_lt_of_turn ht hl))
  | refuse ht hx hp _ ih =>
    obtain ⟨hlu, -, hc⟩ := dispatch_frame ht hx
    exact ih (hlu ▸ hl) (hc.trans_le (steps_lt_of_turn ht hl))
  | @nest s t u _ _ program inner _ _ _ ht hx hp _ _ ihi ih =>
    obtain ⟨hlu, -, hc⟩ := dispatch_frame ht hx
    have hu : u.steps ≤ limit := hc.trans_le (steps_lt_of_turn ht hl)
    have hi : inner.state.steps ≤ limit := ihi (hlu ▸ hl) (nested_steps_le.trans hu)
    refine ih ?_ ?_
    · rw [Ending.withStatus_limits, settle_limits, hlu, hl]
    · rw [Ending.withStatus_steps]
      exact settle_steps_le hu hi

/-! ### Runs within a budget -/

/-- To meet a demand brings the count of a machine below top level forward by the items of
    the run that this takes. -/
theorem Meets.steps_eq (h : Meets d s log s') (hd : 0 < s.depth) :
    s'.steps = s.steps + itemCount log := by
  cases h with
  | proceed => rfl
  | evaluate he =>
    rw [Ending.withStatus_steps]
    cases he with
    | refuse hp => rfl
    | nest hp hi =>
      rw [settle_steps hd, hi.steps_eq (Nat.succ_pos s.depth), nested_steps hd]

/-- A demand is met if the programs that it may run come to an end. -/
theorem exists_meets (h : ∀ program, ∃ log r, Runs (s.nested program) log r) (d : Demand) :
    ∃ log s', Meets d s log s' := by
  cases d with
  | proceed => exact ⟨_, _, .proceed⟩
  | evaluate source =>
    cases hp : s.programOf source with
    | error e => exact ⟨_, _, .evaluate (.refuse hp)⟩
    | ok program =>
      obtain ⟨log, inner, hr⟩ := h program
      exact ⟨_, _, .evaluate (.nest hp hr)⟩

/-- Below top level, a run with a limit comes to an end: every turn that carries out an item
    brings the count closer to the limit, and nested runs do not bring it back. -/
theorem exists_runs (hl : s.limits.steps = some limit) (hd : 0 < s.depth) :
    ∃ log r, Runs s log r := by
  -- The measure is what is left of the budget. It is less in a nested run, which starts one
  -- item later, and it is less still in the rest of the outer run.
  induction hn : limit - s.steps using Nat.strongRecOn generalizing s with
  | ind n ih =>
    cases ht : s.turn with
    | idle => exact ⟨_, _, .idle ht⟩
    | stop e t => exact ⟨_, _, .stop ht⟩
    | item v t =>
      have hs := steps_lt_of_turn ht hl
      cases hx : dispatch v t with
      | error e u => exact ⟨_, _, .fail ht hx⟩
      | ok d u =>
        obtain ⟨hlu, hk, hc⟩ := dispatch_frame ht hx
        rw [← hlu] at hl
        rw [← hk] at hd
        obtain ⟨log, s', hm⟩ := exists_meets (fun program => by
          have hi : (u.nested program).steps = u.steps := nested_steps hd
          exact ih (limit - u.steps) (by omega) (s := u.nested program) hl
            (Nat.succ_pos u.depth) (by rw [hi])) d
        obtain ⟨hlm, hkm⟩ := hm.frame
        have hcm := hm.steps_eq hd
        rw [← hlm] at hl
        rw [← hkm] at hd
        obtain ⟨log', r, hr⟩ := ih (limit - s'.steps) (by omega) hl hd rfl
        exact ⟨_, r, .meet ht hx hm hr⟩

/-- A program that is nested in a machine at top level carries out no more items than the
    limit says. -/
theorem itemCount_nested_le (hd : s.depth = 0) (hl : s.limits.steps = some limit)
    (h : Runs (s.nested program) log r) : itemCount log ≤ limit := by
  have hs : (s.nested program).steps = 0 := nested_steps_of_top hd
  have hc := h.steps_eq (Nat.succ_pos _)
  have hb := h.steps_le hl (hs.trans_le (Nat.zero_le limit))
  omega

/-- At top level, a text comes to an end if there is a limit on the number of items, and no
    more items than that are carried out for it: those of all nested runs count, whether they
    are kept or rolled back. -/
theorem evaluate_within_budget (hd : s.depth = 0) (hl : s.limits.steps = some limit)
    (source : String) :
    ∃ log r, Evaluates source s log r ∧ itemCount log ≤ limit ∧
      (∀ log' r', Evaluates source s log' r' → log' = log ∧ r' = r) ∧
      ∀ fuel, limit < fuel → evaluate fuel source s = some r := by
  -- The nested run is at depth one, with a count that starts from zero.
  obtain ⟨log, r, hr, hc⟩ : ∃ log r, Evaluates source s log r ∧ itemCount log ≤ limit := by
    cases hp : s.programOf source with
    | error e => exact ⟨_, _, .refuse hp, Nat.zero_le limit⟩
    | ok program =>
      obtain ⟨log, inner, hi⟩ := exists_runs (s := s.nested program) hl (Nat.succ_pos _)
      exact ⟨log, _, .nest hp hi, itemCount_nested_le hd hl hi⟩
  exact ⟨log, r, hr, hc, fun _ _ h => h.unique hr,
    fun fuel hf => hr.evaluate_eq (Nat.lt_of_le_of_lt hc hf)⟩

/-- A word that evaluates itself for ever is stopped. -/
theorem evaluate_within_budget_loop :
    ∃ (s : State Sandbox) (log : List (Event Sandbox)) (r : Ending Sandbox),
      s.env.get? "loop" = some ⟨[], [.str "loop", .atom "eval"]⟩ ∧
        Evaluates "loop" s log r ∧ itemCount log ≤ 10 ∧ evaluate 11 "loop" s = some r := by
  obtain ⟨log, r, hr, hc, -, hf⟩ := evaluate_within_budget (H := Sandbox)
    (s := { env := Dictionary.empty.insert "loop" ⟨[], [.str "loop", .atom "eval"]⟩,
            limits := { steps := some 10 }, host := {} }) rfl rfl "loop"
  exact ⟨_, log, r, rfl, hr, hc, hf 11 (Nat.lt_succ_self 10)⟩

/-! ### The queue of a machine at top level

A machine at top level that runs its own queue lends nothing of its count to the texts that
it evaluates: each of them has the whole limit for itself. -/

/-- To meet a demand at top level leaves the count alone, and takes no more items than the
    limit says. -/
theorem Meets.itemCount_le_of_top (h : Meets d s log s') (hd : s.depth = 0)
    (hl : s.limits.steps = some limit) : s'.steps = s.steps ∧ itemCount log ≤ limit := by
  cases h with
  | proceed => exact ⟨rfl, Nat.zero_le limit⟩
  | evaluate he =>
    rw [Ending.withStatus_steps]
    cases he with
    | refuse hp => exact ⟨rfl, Nat.zero_le limit⟩
    | nest hp hi =>
      exact ⟨settle_steps_eq.trans (if_pos hd), itemCount_nested_le hd hl hi⟩

/-- At top level, the count of a machine is that of the items of its own queue, and each of
    them stands for at most one text. -/
theorem Runs.itemCount_le_of_top (h : Runs s log r) (hd : s.depth = 0)
    (hl : s.limits.steps = some limit) :
    s.steps * (limit + 1) + itemCount log ≤ r.state.steps * (limit + 1) := by
  induction h with
  | idle => rfl
  | stop ht => exact Nat.le_of_eq (by rw [Ending.state, (turn_stop_frame ht).2.2]; rfl)
  | fail ht hx =>
    obtain ⟨-, rfl⟩ := fails_of_dispatch hx
    rw [Ending.state, (turn_item_frame ht).2.2, itemCount_item, itemCount_nil, Nat.succ_mul]
    omega
  | step ht hx _ ih =>
    obtain ⟨hlu, hk, hc⟩ := dispatch_frame ht hx
    have hb := ih (hk.trans hd) (hlu ▸ hl)
    rw [hc, Nat.succ_mul] at hb
    rw [itemCount_item]
    omega
  | refuse ht hx hp _ ih =>
    obtain ⟨hlu, hk, hc⟩ := dispatch_frame ht hx
    have hb := ih (by rw [Ending.withStatus_depth, Ending.state, hk, hd])
      (by rw [Ending.withStatus_limits, Ending.state, hlu, hl])
    rw [Ending.withStatus_steps, Ending.state, hc, Nat.succ_mul] at hb
    rw [itemCount_item, itemCount_refusal]
    omega
  | @nest s t u _ _ _ _ _ _ _ ht hx hp hi _ _ ih =>
    obtain ⟨hlu, hk, hc⟩ := dispatch_frame ht hx
    have hdu : u.depth = 0 := hk.trans hd
    have hlu' : u.limits.steps = some limit := hlu ▸ hl
    -- The nested run is charged to the one item that has started it.
    obtain ⟨hs, hn⟩ := (Meets.evaluate (.nest hp hi)).itemCount_le_of_top hdu hlu'
    have hb := ih (by rw [Ending.withStatus_depth, settle_depth, hdu])
      (by rw [Ending.withStatus_limits, settle_limits, hlu'])
    rw [hs, hc, Nat.succ_mul] at hb
    rw [itemCount_item, itemCount_append]
    omega

/-- At top level, a run with a limit comes to an end. -/
theorem exists_runs_of_top (hl : s.limits.steps = some limit) (hd : s.depth = 0) :
    ∃ log r, Runs s log r := by
  induction hn : limit - s.steps using Nat.strongRecOn generalizing s with
  | ind n ih =>
    cases ht : s.turn with
    | idle => exact ⟨_, _, .idle ht⟩
    | stop e t => exact ⟨_, _, .stop ht⟩
    | item v t =>
      have hs := steps_lt_of_turn ht hl
      cases hx : dispatch v t with
      | error e u => exact ⟨_, _, .fail ht hx⟩
      | ok d u =>
        obtain ⟨hlu, hk, hc⟩ := dispatch_frame ht hx
        rw [← hlu] at hl
        rw [← hk] at hd
        obtain ⟨log, s', hm⟩ :=
          exists_meets (fun program => exists_runs (s := u.nested program) hl (Nat.succ_pos _)) d
        obtain ⟨hlm, hkm⟩ := hm.frame
        obtain ⟨hcm, -⟩ := hm.itemCount_le_of_top hd hl
        rw [← hlm] at hl
        rw [← hkm] at hd
        obtain ⟨log', r, hr⟩ := ih (limit - s'.steps) (by omega) hl hd rfl
        exact ⟨_, r, .meet ht hx hm hr⟩

omit [Host H] in
theorem recount_of_top (hd : s.depth = 0) : s.recount = { s with steps := 0 } :=
  if_pos hd

/-- At top level, the run of a queue comes to an end if there is a limit on the number of
    items. It is the limit for the items of the queue alone, which the machine counts, and
    once more for every text that one of them evaluates. -/
theorem run_within_budget (hd : s.depth = 0) (hl : s.limits.steps = some limit) :
    ∃ log r, Runs s.recount log r ∧ r.state.steps ≤ limit ∧
      itemCount log ≤ r.state.steps * (limit + 1) ∧ itemCount log ≤ limit * (limit + 1) ∧
      (∀ log' r', Runs s.recount log' r' → log' = log ∧ r' = r) ∧
      ∀ fuel, limit * (limit + 1) < fuel → run fuel s = some r := by
  obtain ⟨hd', hl', hs⟩ :
      s.recount.depth = 0 ∧ s.recount.limits.steps = some limit ∧ s.recount.steps = 0 := by
    rw [recount_of_top hd]
    exact ⟨hd, hl, rfl⟩
  obtain ⟨log, r, hr⟩ := exists_runs_of_top hl' hd'
  have hc := hr.itemCount_le_of_top hd' hl'
  rw [hs, Nat.zero_mul, Nat.zero_add] at hc
  have hb : r.state.steps ≤ limit := hr.steps_le hl' (hs.trans_le (Nat.zero_le limit))
  have hc' := hc.trans (Nat.mul_le_mul_right (limit + 1) hb)
  exact ⟨log, r, hr, hb, hc, hc', fun _ _ h => h.unique hr,
    fun fuel hf => hr.proceed_eq (Nat.lt_of_le_of_lt hc' hf)⟩

/-- Two items of a queue, one of which evaluates a text of two items. -/
def twoWithinTwo : State Sandbox :=
  { queue := [.str ":a :b", .atom "eval"], limits := { steps := some 2 }, host := {} }

/-- The limit is not one for all items together: of two, four are carried out. -/
theorem run_beyond_limit :
    ¬ ∀ (s : State Sandbox) (limit : Nat) (log : List (Event Sandbox)) (r : Ending Sandbox),
      s.depth = 0 → s.limits.steps = some limit → Runs s.recount log r →
        itemCount log ≤ limit := by
  intro h
  have hp : Parser.parse Parser.defaultDepth ":a :b" = .ok [.sym "a", .sym "b"] := by
    with_unfolding_all rfl
  obtain ⟨log, r, hr, hc⟩ :
      ∃ log r, Runs twoWithinTwo.recount log r ∧ itemCount log = 4 := by
    refine ⟨_, _, .step rfl rfl (.nest rfl rfl (programOf_eq_ok.2 ⟨by decide, hp⟩)
      (.step rfl rfl (.step rfl rfl (.idle rfl))) (.idle rfl)), rfl⟩
  have := h twoWithinTwo 2 log r rfl rfl hr
  omega

/-- A queue that evaluates one text is within its budget and those of two texts. -/
theorem run_within_budget_two :
    ∃ (log : List (Event Sandbox)) (r : Ending Sandbox),
      Runs twoWithinTwo.recount log r ∧ itemCount log ≤ 6 ∧ run 7 twoWithinTwo = some r := by
  obtain ⟨log, r, hr, -, -, hc, -, hf⟩ := run_within_budget (s := twoWithinTwo) rfl rfl
  exact ⟨log, r, hr, hc, hf 7 (by decide)⟩

end Catena.State
