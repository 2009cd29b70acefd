import Catena.Word
import Mathlib.Data.List.Forall2

/-!
# What signatures require

A signature is checked against derived types, but what a word relies on are the values:
that there are enough of them, that a number is where it takes a number, that a quote it
takes a value from is not empty. The types tell all of that.

* `Value.elementTy_eq_empty`: the derived type `empty` means exactly that a sequence is
  empty;
* `Signature.admits_iff_forall₂`: a signature admits a stack when the types on top of it
  are accepted place by place;
* `Signature.admits_one`, `Signature.admits_two`: the values on a stack that is admitted,
  in the order in which a word takes them.
-/

namespace Catena

/-! ### Types that are accepted -/

namespace Ty

variable {s t u : Ty}

@[simp]
theorem accepts_any : any.accepts t = true := by simp [accepts]

@[simp]
theorem accepts_notEmpty : notEmpty.accepts t = true ↔ t ≠ .empty := by simp [accepts]

@[simp]
theorem accepts_num : num.accepts t = true ↔ t = .num := by simp [accepts, eq_comm]

@[simp]
theorem accepts_sym : sym.accepts t = true ↔ t = .sym := by simp [accepts, eq_comm]

@[simp]
theorem accepts_str : str.accepts t = true ↔ t = .str := by simp [accepts, eq_comm]

@[simp]
theorem accepts_empty : empty.accepts t = true ↔ t = .empty := by simp [accepts, eq_comm]

/-- A quote type accepts types of quotes, half by half. -/
theorem accepts_quote :
    (quote s t).accepts u = true ↔
      ∃ p b, u = .quote p b ∧ s.accepts p = true ∧ t.accepts b = true := by
  cases u <;> simp [accepts]

/-- Only the type of no elements is `empty`, and it stays so in joins. -/
theorem join_ne_empty (hs : s ≠ .empty) : s.join t ≠ .empty := by
  unfold join
  split
  · simp
  · split
    · exact hs
    · simp

end Ty

/-! ### Types of values -/

namespace Value

variable {v : Value} {s t : Ty}

@[simp]
theorem ty_eq_num : v.ty = .num ↔ ∃ x, v = .num x := by cases v <;> simp [ty]

@[simp]
theorem ty_eq_sym : v.ty = .sym ↔ ∃ n, v = .sym n := by cases v <;> simp [ty]

@[simp]
theorem ty_eq_str : v.ty = .str ↔ ∃ u, v = .str u := by cases v <;> simp [ty]

/-- No value has the type of no elements. -/
theorem ty_ne_empty (v : Value) : v.ty ≠ .empty := by cases v <;> simp [ty]

/-- More values do not make a type that of no elements. -/
theorem widen_ne_empty (ht : t ≠ .empty) (vs : List Value) : widen t vs ≠ .empty := by
  induction vs generalizing t with
  | nil => simpa [widen] using ht
  | cons v vs ih =>
    rw [widen]
    exact ih (Ty.join_ne_empty ht)

/-- The derived type `empty` means exactly that a sequence is empty. -/
@[simp]
theorem elementTy_eq_empty {vs : List Value} : elementTy vs = .empty ↔ vs = [] := by
  -- The type of one element is not `empty`, and to join more types to it keeps it so.
  cases vs with
  | nil => simp [elementTy]
  | cons v vs => simp [elementTy, widen_ne_empty (ty_ne_empty v) vs]

/-- A quote type accepts quotes only, and these by their halves. -/
theorem accepts_quote_ty :
    (Ty.quote s t).accepts v.ty = true ↔
      ∃ q : Quote, v = q.toValue ∧ s.accepts (elementTy q.pattern) = true ∧
        t.accepts (elementTy q.body) = true := by
  rw [Ty.accepts_quote]
  constructor
  · rintro ⟨p, b, hv, hp, hb⟩
    cases v with
    | quote pattern body =>
      rw [ty, Ty.quote.injEq] at hv
      obtain ⟨rfl, rfl⟩ := hv
      exact ⟨⟨pattern, body⟩, rfl, hp, hb⟩
    | _ => simp [ty] at hv
  · rintro ⟨q, rfl, hp, hb⟩
    exact ⟨_, _, by rw [Quote.toValue, ty], hp, hb⟩

/-- Any quote is accepted, whatever its halves are. -/
@[simp]
theorem accepts_anyQuote_ty : Ty.anyQuote.accepts v.ty = true ↔ ∃ q : Quote, v = q.toValue := by
  simp [Ty.anyQuote, accepts_quote_ty]

end Value

/-! ### Stacks that are admitted -/

namespace Signature

/-- A signature admits a stack when the types on top of it are accepted place by place. -/
theorem admits_iff_forall₂ {required : Signature} {stack : List Value} :
    required.admits stack = true ↔
      List.Forall₂ (fun s t => s.accepts t = true) required (topTypes required.length stack) := by
  simp only [admits, Bool.and_eq_true, beq_iff_eq, List.all_eq_true, Prod.forall,
    List.forall₂_iff_zip]
  exact and_congr_left' eq_comm

/-- A signature of one entry is about the top of the stack alone. -/
theorem admits_one {t : Ty} {stack : List Value} :
    admits [t] stack = true ↔ ∃ v rest, stack = v :: rest ∧ t.accepts v.ty = true := by
  cases stack <;> simp [admits, topTypes]

/-- The last entry of a signature is about the top of the stack. -/
theorem admits_two {t₁ t₂ : Ty} {stack : List Value} :
    admits [t₁, t₂] stack = true ↔
      ∃ v₂ v₁ rest, stack = v₂ :: v₁ :: rest ∧ t₁.accepts v₁.ty = true ∧
        t₂.accepts v₂.ty = true := by
  rcases stack with _ | ⟨v₂, _ | ⟨v₁, rest⟩⟩ <;> simp [admits, topTypes]

/-! The signatures of the core words, with the stacks that they admit. -/

section Words

variable {stack : List Value}

/-- Any value will do, but there must be one. -/
theorem admits_value : admits [.any] stack = true ↔ ∃ v rest, stack = v :: rest := by
  simp [admits_one]

theorem admits_string : admits [.str] stack = true ↔ ∃ t rest, stack = .str t :: rest := by
  simp [admits_one]

theorem admits_quote :
    admits [.anyQuote] stack = true ↔ ∃ q rest, stack = Quote.toValue q :: rest := by
  simp [admits_one]

theorem admits_numbers :
    admits [.num, .num] stack = true ↔
      ∃ x₂ x₁ rest, stack = .num x₂ :: .num x₁ :: rest := by
  simp [admits_two]

theorem admits_strings :
    admits [.str, .str] stack = true ↔
      ∃ t₂ t₁ rest, stack = .str t₂ :: .str t₁ :: rest := by
  simp [admits_two]

theorem admits_quotes :
    admits [.anyQuote, .anyQuote] stack = true ↔
      ∃ top below rest, stack = Quote.toValue top :: Quote.toValue below :: rest := by
  simp [admits_two]

theorem admits_quote_value :
    admits [.anyQuote, .any] stack = true ↔ ∃ v q rest, stack = v :: Quote.toValue q :: rest := by
  simp [admits_two]

theorem admits_quote_symbol :
    admits [.anyQuote, .sym] stack = true ↔
      ∃ n q rest, stack = .sym n :: Quote.toValue q :: rest := by
  simp [admits_two]

/-- What a value can be taken from is not empty. -/
theorem admits_body :
    admits [.quote .any .notEmpty] stack = true ↔
      ∃ q rest, stack = Quote.toValue q :: rest ∧ q.body ≠ [] := by
  simp [admits_one, Value.accepts_quote_ty]

theorem admits_pattern :
    admits [.quote .notEmpty .any] stack = true ↔
      ∃ q rest, stack = Quote.toValue q :: rest ∧ q.pattern ≠ [] := by
  simp [admits_one, Value.accepts_quote_ty]

/-- A list of clauses has no pattern, and none but quotes in its body. -/
theorem admits_clauses :
    admits [.quote .empty .anyQuote] stack = true ↔
      ∃ q rest, stack = Quote.toValue q :: rest ∧ q.pattern = [] ∧
        Ty.anyQuote.accepts (Value.elementTy q.body) = true := by
  simp [admits_one, Value.accepts_quote_ty]

end Words

end Signature

end Catena
