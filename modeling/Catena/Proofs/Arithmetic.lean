import Catena.Shell.Arithmetic
import Mathlib.Tactic.SplitIfs

/-!
# Numbers of 64 bits

The numbers of an arithmetic expression have 64 bits, with a sign. If the names in an
expression stand for such numbers, its value is one, and so is all that it assigns
(`Arithmetic.inRange_value`): sums and products are wrapped, and the other operators do not
leave the range.

An expression holds its operators as functions. Those that a reader puts there keep to the range
(`Arithmetic.Expr.Sound`), as they come from the tables of operators, whatever the text is.
-/

namespace Catena.Shell

/-! ### What readers give -/

namespace Reader

variable {α β σ : Type} {Q : α → Prop} {R : β → Prop}

/-- Everything that a reader reads has a property. -/
def Gives (Q : α → Prop) (r : Reader α) : Prop := ∀ s a rest, r s = some (a, rest) → Q a

namespace Gives

theorem pure {a : α} (h : Q a) : Gives Q (pure a) := by
  intro s b rest he
  cases he
  exact h

theorem failure : Gives Q failure := nofun

theorem bind {r : Reader α} {f : α → Reader β} (hr : Gives Q r) (hf : ∀ a, Q a → Gives R (f a)) :
    Gives R (r >>= f) := by
  intro s b rest he
  obtain ⟨⟨a, t⟩, ha, hb⟩ := Option.bind_eq_some_iff.1 he
  exact hf a (hr s a t ha) t b rest hb

/-- Where nothing is known of what has been read, the rest must do. -/
theorem bind_any {r : Reader α} {f : α → Reader β} (hf : ∀ a, Gives R (f a)) :
    Gives R (r >>= f) :=
  bind (Q := fun _ => True) (fun _ _ _ _ => trivial) fun a _ => hf a

theorem ite {c : Prop} [Decidable c] {r r' : Reader α} (hr : c → Gives Q r)
    (hr' : ¬ c → Gives Q r') : Gives Q (if c then r else r') := by
  split
  case isTrue hc => exact hr hc
  case isFalse hc => exact hr' hc

/-- What holds of the state of a repetition, step by step, holds of its answer. -/
theorem iterate {step : σ → Reader (σ ⊕ α)} {I : σ → Prop}
    (h : ∀ x, I x → Gives (Sum.elim I Q) (step x)) {x : σ} (hx : I x) :
    Gives Q (iterate step x) := by
  intro s a rest he
  induction hn : s.length using Nat.strongRecOn generalizing s x with
  | ind n ih =>
    rw [Reader.iterate] at he
    split at he
    case h_1 => cases he
    case h_2 hs =>
      cases he
      exact h x hx s _ _ hs
    case h_3 hs =>
      split_ifs at he with hlt
      exact ih _ (hn ▸ hlt) (h x hx s _ _ hs) _ he rfl

theorem shorter {length : Nat} {reader : (n : Nat) → n < length → Reader α}
    (h : ∀ n hn, Gives Q (reader n hn)) : Gives Q (shorter length reader) := by
  intro s a rest he
  unfold Reader.shorter at he
  split_ifs at he with hlt
  exact h _ hlt s a rest he

end Gives

end Reader

namespace Arithmetic

open Reader (Gives)

/-! ### Operators -/

/-- Whether a number has 64 bits, one of them for its sign. -/
def InRange (n : Int) : Prop := -0x8000000000000000 ≤ n ∧ n < 0x8000000000000000

instance : DecidablePred InRange := fun n =>
  inferInstanceAs (Decidable (-0x8000000000000000 ≤ n ∧ n < 0x8000000000000000))

/-- An operator that keeps to the range, where it is defined. -/
def Closed (f : Int → Int → Option Int) : Prop :=
  ∀ a b v, InRange a → InRange b → f a b = some v → InRange v

/-- What is wrapped is in the range. -/
theorem inRange_wrap (n : Int) : InRange (wrap n) := by
  have hlo : -((0x10000000000000000 : Nat) / 2 : Int) ≤ wrap n := Int.le_bmod (by decide)
  have hhi : wrap n < ((0x10000000000000000 : Nat) + 1) / 2 := Int.bmod_lt (by decide)
  exact ⟨hlo, hhi⟩

theorem inRange_ofBool (b : Bool) : InRange (ofBool b) := by
  cases b <;> decide

theorem inRange_toInt (b : BitVec 64) : InRange b.toInt :=
  ⟨BitVec.le_toInt b, BitVec.toInt_lt⟩

/-- A shift to the right takes a number towards zero, or towards minus one. -/
theorem inRange_shiftRight {n : Int} (h : InRange n) (k : Nat) : InRange (n >>> k) := by
  have hc : 0 < (2 ^ k : Int) := Int.pow_pos (by decide)
  rw [Int.shiftRight_eq_div_pow]
  obtain ⟨hlo, hhi⟩ := h
  rcases Int.lt_or_le n 0 with hn | hn
  · have hle : n ≤ n / (2 ^ k : Int) := by
      refine Int.le_ediv_of_mul_le hc ?_
      simpa using Int.mul_le_mul_of_nonpos_left (Int.le_of_lt hn) hc
    have hneg : n / (2 ^ k : Int) < 0 := Int.ediv_neg_of_neg_of_pos hn hc
    exact ⟨Int.le_trans hlo hle, Int.lt_trans hneg (by decide)⟩
  · have hnonneg : 0 ≤ n / (2 ^ k : Int) := Int.ediv_nonneg hn (Int.le_of_lt hc)
    have hle : n / (2 ^ k : Int) ≤ n := Int.ediv_le_self _ hn
    exact ⟨Int.le_trans (by decide) hnonneg, Int.lt_of_le_of_lt hle hhi⟩

/-- A remainder has the sign of the dividend, and is not larger. -/
theorem inRange_tmod {a : Int} (h : InRange a) (b : Int) : InRange (a.tmod b) := by
  have habs : (a.tmod b).natAbs ≤ a.natAbs := Int.natAbs_tmod a b ▸ Nat.mod_le _ _
  have hpos : 0 ≤ a → 0 ≤ a.tmod b := Int.tmod_nonneg b
  have hneg : 0 ≤ -a → 0 ≤ -a.tmod b := Int.neg_tmod a b ▸ Int.tmod_nonneg b
  unfold InRange at h ⊢
  omega

theorem closed_remainder : Closed remainder := by
  intro a b v ha hb hv
  unfold remainder at hv
  split_ifs at hv
  cases hv
  exact inRange_tmod ha b

theorem closed_quotient : Closed quotient := by
  intro a b v ha hb hv
  unfold quotient at hv
  split_ifs at hv
  cases hv
  exact inRange_wrap _

theorem closed_bits (f : BitVec 64 → BitVec 64 → BitVec 64) : Closed (bits f) := by
  intro a b v ha hb hv
  cases hv
  exact inRange_toInt _

theorem closed_wrap (f : Int → Int → Int) : Closed fun a b => some (wrap (f a b)) := by
  intro a b v ha hb hv
  cases hv
  exact inRange_wrap _

theorem closed_ofBool (f : Int → Int → Bool) : Closed fun a b => some (ofBool (f a b)) := by
  intro a b v ha hb hv
  cases hv
  exact inRange_ofBool _

/-- No operator leaves the range. -/
theorem closed_of_mem_levels : ∀ level ∈ levels, ∀ o ∈ level, Closed o.2.2 := by
  simp only [levels, List.forall_mem_cons]
  refine ⟨⟨closed_ofBool _, nofun⟩, ⟨closed_ofBool _, nofun⟩, ⟨closed_bits _, nofun⟩,
    ⟨closed_bits _, nofun⟩, ⟨closed_bits _, nofun⟩, ⟨closed_ofBool _, closed_ofBool _, nofun⟩,
    ⟨closed_ofBool _, closed_ofBool _, closed_ofBool _, closed_ofBool _, nofun⟩,
    ⟨closed_wrap _, ?_, nofun⟩, ⟨closed_wrap _, closed_wrap _, nofun⟩,
    ⟨closed_wrap _, closed_quotient, closed_remainder, nofun⟩, nofun⟩
  intro a b v ha hb hv
  cases hv
  exact inRange_shiftRight ha _

/-- Nor does any that assigns. -/
theorem closed_of_mem_updates : ∀ o ∈ updates, Closed o.2.2 := by
  simp only [updates, List.forall_mem_cons]
  exact ⟨closed_wrap _, closed_wrap _, closed_wrap _, closed_quotient, closed_remainder,
    fun _ _ _ _ hb hv => by cases hv; exact hb, nofun⟩

/-! ### Expressions -/

/-- An expression whose numbers are in the range, and whose operators keep to it. -/
def Expr.Sound : Expr → Prop
  | number n => InRange n
  | name _ => True
  | update _ f e => Closed f ∧ e.Sound
  | unary f e => (∀ n, InRange n → InRange (f n)) ∧ e.Sound
  | binary f a b => Closed f ∧ a.Sound ∧ b.Sound
  | choice c a b => c.Sound ∧ a.Sound ∧ b.Sound

/-- The operator that is taken is one of those that are looked for. -/
theorem gives_acceptOperator {level : Level} (h : ∀ o ∈ level, Closed o.2.2) :
    Gives (fun o => ∀ f ∈ o, Closed f) (acceptOperator level) := by
  induction level with
  | nil => exact .pure nofun
  | cons o level ih =>
    obtain ⟨t, barred, f⟩ := o
    rw [List.forall_mem_cons] at h
    refine .bind_any fun _ => .ite (fun _ => .pure ?_) fun _ => ih h.2
    rintro g ⟨⟩
    exact h.1

namespace Nested

variable {nested : Nested} (he : Gives Expr.Sound nested.expression)
  (hp : Gives Expr.Sound nested.primary)

include he

/-- A name alone is sound, and an assignment to it if what is assigned is. -/
theorem gives_named (name : String) : Gives Expr.Sound (nested.named name) := by
  refine .bind (gives_acceptOperator closed_of_mem_updates) fun o ho => ?_
  cases o with
  | none => exact .pure trivial
  | some f => exact .bind he fun e hs => .pure ⟨ho f rfl, hs⟩

include hp

/-- Signs and numbers keep to the range. -/
theorem gives_primaryWith : Gives Expr.Sound nested.primaryWith := by
  refine .bind_any fun _ => .bind_any fun s => ?_
  split
  · exact .failure
  · exact .bind_any fun _ => .bind he fun e hs => .bind_any fun _ => .pure hs
  · exact .bind_any fun _ => .bind hp fun e hs => .pure ⟨fun n _ => inRange_wrap _, hs⟩
  · exact .bind_any fun _ => hp
  · exact .bind_any fun _ => .bind hp fun e hs => .pure ⟨fun n _ => inRange_ofBool _, hs⟩
  · refine .bind_any fun _ => .bind hp fun e hs => .pure ⟨fun n hn => ?_, hs⟩
    change InRange (-n - 1)
    unfold InRange at hn ⊢
    omega
  · refine .bind_any fun _ => .ite (fun _ => ?_) fun _ => .ite (fun _ => .failure) fun _ => ?_
    · split
      · exact .pure (inRange_wrap _)
      · exact .failure
    · exact gives_named he _

/-- Operands that are joined by operators of the tables are sound. -/
theorem gives_operand : ∀ {ls : List Level}, (∀ level ∈ ls, ∀ o ∈ level, Closed o.2.2) →
    Gives Expr.Sound (nested.operand ls)
  | [], _ => gives_primaryWith he hp
  | level :: tighter, h => by
    rw [List.forall_mem_cons] at h
    have ht : Gives Expr.Sound (nested.operand tighter) := gives_operand h.2
    -- The operand on the left of the next operator is the invariant of the repetition.
    refine .bind ht fun a ha => .iterate (I := Expr.Sound) (fun x hx => ?_) ha
    refine .bind (gives_acceptOperator h.1) fun o ho => ?_
    cases o with
    | none => exact .pure hx
    | some f => exact .bind ht fun b hb => .pure ⟨ho f rfl, hx, hb⟩

theorem gives_expressionWith : Gives Expr.Sound nested.expressionWith := by
  refine .bind (gives_operand he hp closed_of_mem_levels) fun c hc => .bind_any fun _ =>
    .ite (fun _ => ?_) fun _ => .pure hc
  exact .bind he fun a ha => .bind_any fun _ => .bind he fun b hb => .pure ⟨hc, ha, hb⟩

end Nested

/-- What stands inside of an expression is sound, by induction on the length of the text. -/
theorem gives_nested (length : Nat) :
    Gives Expr.Sound (nested length).expression ∧ Gives Expr.Sound (nested length).primary := by
  induction length using Nat.strongRecOn with
  | ind length ih =>
    rw [nested]
    exact ⟨.shorter fun n hn => Nested.gives_expressionWith (ih n hn).1 (ih n hn).2,
      .shorter fun n hn => Nested.gives_primaryWith (ih n hn).1 (ih n hn).2⟩

/-- Whatever text is read, the expression is sound. -/
theorem sound_of_readExpr {source : List Char} {e : Expr} (h : readExpr source = some e) :
    e.Sound := by
  obtain ⟨⟨e', rest⟩, hr, he⟩ := Option.bind_eq_some_iff.1 h
  obtain ⟨hx, hp⟩ := gives_nested source.length
  dsimp only at he
  split_ifs at he
  cases he
  exact Nested.gives_expressionWith hx hp _ _ _ hr

/-! ### Values -/

/-- Names that stand for numbers in the range, also after assignments. -/
structure Names.InRange (names : Names) : Prop where
  value : ∀ n v, names.value n = some v → Arithmetic.InRange v
  assigned : ∀ a ∈ names.assigned, Arithmetic.InRange a.2

/-- A name stands for the number that was assigned to it last, or else for its own. -/
theorem Names.InRange.get {names : Names} (h : names.InRange) {n : String} {v : Int}
    (hv : names.get n = some v) : Arithmetic.InRange v := by
  unfold Names.get at hv
  split at hv
  case h_1 hl =>
    cases hv
    obtain ⟨l, r, ha, -⟩ := List.lookup_eq_some_iff.1 hl
    exact h.assigned (n, _) (by simp [ha])
  case h_2 => exact h.value n v hv

/-- A computation that leaves names in the range, and whose answers have a property. -/
def Ranged {α : Type} (Q : α → Prop) (m : StateT Names Option α) : Prop :=
  ∀ names : Names, names.InRange → ∀ a names', m names = some (a, names') → Q a ∧ names'.InRange

namespace Ranged

variable {α β : Type} {Q : α → Prop} {R : β → Prop}

theorem pure {a : α} (h : Q a) : Ranged Q (pure a) := by
  intro names hn b names' he
  cases he
  exact ⟨h, hn⟩

theorem bind {m : StateT Names Option α} {f : α → StateT Names Option β} (hm : Ranged Q m)
    (hf : ∀ a, Q a → Ranged R (f a)) : Ranged R (m >>= f) := by
  intro names hn b names' he
  obtain ⟨⟨a, t⟩, ha, hb⟩ := Option.bind_eq_some_iff.1 he
  obtain ⟨hq, ht⟩ := hm names hn a t ha
  exact hf a hq t ht b names' hb

theorem lift {o : Option α} (h : ∀ a ∈ o, Q a) : Ranged Q (StateT.lift o) := by
  intro names hn b names' he
  obtain ⟨a, ha, hb⟩ := Option.bind_eq_some_iff.1 he
  cases hb
  exact ⟨h b ha, hn⟩

theorem get : Ranged Names.InRange get := by
  intro names hn a names' he
  cases he
  exact ⟨hn, hn⟩

/-- A number in the range is assigned to a name. -/
theorem assign {n : String} {v : Int} (hv : Arithmetic.InRange v) :
    Ranged (fun _ => True)
      (modify fun names : Names => { names with assigned := (n, v) :: names.assigned }) := by
  intro names hn a names' he
  cases he
  exact ⟨trivial, hn.value, List.forall_mem_cons.2 ⟨hv, hn.assigned⟩⟩

end Ranged

/-- The value of a sound expression is in the range. -/
theorem Expr.ranged_eval : ∀ {e : Expr}, e.Sound → Ranged InRange e.eval
  | number _, h => .pure h
  | name _, _ => .bind .get fun _ hn => .lift fun _ hv => hn.get hv
  | update n f e, h => by
    refine .bind .get fun names hn => .bind (ranged_eval h.2) fun b hb => ?_
    refine .bind (.lift fun v hv => h.1 _ b v ?_ hb hv) fun v hv => ?_
    · cases hg : names.get n with
      | none => decide
      | some a => exact hn.get hg
    · exact .bind (.assign hv) fun _ _ => .pure hv
  | unary _ _, h => .bind (ranged_eval h.2) fun n hn => .pure (h.1 n hn)
  | binary _ _ _, h => .bind (ranged_eval h.2.1) fun a ha => .bind (ranged_eval h.2.2) fun b hb =>
      .lift fun v hv => h.1 a b v ha hb hv
  | choice _ _ _, h => .bind (ranged_eval h.1) fun c _ => .bind (ranged_eval h.2.1) fun a ha =>
      .bind (ranged_eval h.2.2) fun b hb => .pure (by
        split
        · exact ha
        · exact hb)

/-- If names stand for numbers of 64 bits, an expression has such a value, and it assigns no other
    numbers. -/
theorem inRange_value {names : String → Option Int} {source : List Char} {v : Int}
    {assigned : List (String × Int)} (hn : ∀ n v, names n = some v → InRange v)
    (h : value names source = some (v, assigned)) : InRange v ∧ ∀ a ∈ assigned, InRange a.2 := by
  unfold value at h
  split_ifs at h
  · cases h
    exact ⟨by decide, nofun⟩
  · obtain ⟨e, he, h⟩ := Option.bind_eq_some_iff.1 h
    obtain ⟨⟨w, names'⟩, hw, h⟩ := Option.bind_eq_some_iff.1 h
    cases h
    have hr := Expr.ranged_eval (sound_of_readExpr he) ⟨names, []⟩ ⟨hn, nofun⟩ _ _ hw
    exact ⟨hr.1, hr.2.assigned⟩

end Arithmetic

end Catena.Shell
