import Catena.Proofs.Signature

/-!
# Joins of types

A signature asks about the elements of a sequence through one type only, the join of
theirs. Nothing that a signature can ask is lost in it: apart from the wildcard
`notEmpty`, a type accepts a join if and only if it accepts all that is joined
(`Ty.accepts_join_iff`). The wildcard asks something else there, namely whether the
sequence is empty.

Acceptance is an order with the wider type on the left, if `notEmpty` is kept out of it:
that wildcard accepts `any`, and `any` accepts `empty`. The join is the least upper bound
in this order, and so it depends on what is joined, and not on how often or in which
order.

* `Value.elementTy_faithful`: a signature on a sequence is one on its elements;
* `Ty.join_narrowest`: the join is the narrowest type that describes two others.
-/

namespace Catena

namespace Ty

variable {s t x y z p b q c : Ty}

/-- The wildcard `notEmpty` occurs nowhere in a type. -/
def lacksNotEmpty : Ty → Bool
  | .notEmpty => false
  | .quote p b => p.lacksNotEmpty && b.lacksNotEmpty
  | _ => true

/-- The type is one of quotes. -/
def isQuote : Ty → Bool
  | .quote _ _ => true
  | _ => false

/-! ### The join -/

@[simp]
theorem join_quote : (quote p b).join (quote q c) = quote (p.join q) (b.join c) := by
  simp [join]

@[simp]
theorem join_self : x.join x = x := by
  induction x with
  | quote p b ihp ihb => rw [join_quote, ihp, ihb]
  | _ => simp [join]

/-- Only quote types are joined position by position. -/
theorem join_eq_ite (h : x.isQuote = false ∨ y.isQuote = false) :
    x.join y = if x = y then x else any := by
  unfold join
  split
  · simp [isQuote] at h
  · rfl

@[simp]
theorem any_join : any.join x = any := by
  rw [join_eq_ite (.inl rfl), ite_self]

theorem isQuote_join (hx : x.isQuote = true) (hy : y.isQuote = true) :
    (x.join y).isQuote = true := by
  cases x with
  | quote p b =>
    cases y with
    | quote q c => rw [join_quote, isQuote]
    | _ => cases hy
  | _ => cases hx

theorem join_comm (x y : Ty) : x.join y = y.join x := by
  induction x generalizing y with
  | quote p b ihp ihb =>
    cases y with
    | quote q c => rw [join_quote, join_quote, ihp, ihb]
    | _ => rfl
  | _ =>
    rw [join_eq_ite (.inl rfl), join_eq_ite (.inr rfl)]
    split
    · rename_i h
      rw [← h, if_pos rfl]
    · rename_i h
      rw [if_neg (Ne.symm h)]

/-- Three types that are not all of quotes are joined to `any`, unless they are equal. -/
theorem join_join_eq_ite (h : x.isQuote = false ∨ y.isQuote = false ∨ z.isQuote = false) :
    (x.join y).join z = if x = y ∧ y = z then x else any := by
  by_cases hxy : x.isQuote = true ∧ y.isQuote = true
  · obtain ⟨hx, hy⟩ := hxy
    have hz : z.isQuote = false := by simpa [hx, hy] using h
    have hj : x.join y ≠ z := fun he => by simp [← he, isQuote_join hx hy] at hz
    have hyz : y ≠ z := fun he => by simp [← he, hy] at hz
    rw [join_eq_ite (.inr hz), if_neg hj, if_neg fun he => hyz he.2]
  · have hq : x.isQuote = false ∨ y.isQuote = false := by
      rwa [not_and_or, Bool.not_eq_true, Bool.not_eq_true] at hxy
    rw [join_eq_ite hq]
    by_cases he : x = y
    · subst he
      rw [if_pos rfl, join_eq_ite (.inl (or_self_iff.1 hq))]
      simp
    · rw [if_neg he, any_join, if_neg fun h => he h.1]

theorem join_assoc_of_not_isQuote
    (h : x.isQuote = false ∨ y.isQuote = false ∨ z.isQuote = false) :
    (x.join y).join z = x.join (y.join z) := by
  have h' : z.isQuote = false ∨ y.isQuote = false ∨ x.isQuote = false := by
    rcases h with h | h | h
    · exact .inr (.inr h)
    · exact .inr (.inl h)
    · exact .inl h
  rw [join_comm x (y.join z), join_comm y z, join_join_eq_ite h, join_join_eq_ite h']
  by_cases he : x = y ∧ y = z
  · obtain ⟨rfl, rfl⟩ := he
    rfl
  · rw [if_neg he, if_neg fun h => he ⟨h.2.symm, h.1.symm⟩]

theorem join_assoc (x y z : Ty) : (x.join y).join z = x.join (y.join z) := by
  induction x generalizing y z with
  | quote p b ihp ihb =>
    cases y with
    | quote q c =>
      cases z with
      | quote r d => simp only [join_quote, ihp, ihb]
      | _ => exact join_assoc_of_not_isQuote (.inr (.inr rfl))
    | _ => exact join_assoc_of_not_isQuote (.inr (.inl rfl))
  | _ => exact join_assoc_of_not_isQuote (.inl rfl)

/-! ### Acceptance -/

@[simp]
theorem accepts_self (x : Ty) : x.accepts x = true := by
  induction x with
  | quote p b ihp ihb => exact accepts_quote.2 ⟨p, b, rfl, ihp, ihb⟩
  | _ => simp [accepts]

/-- The join describes what is joined. -/
theorem accepts_join_left (x y : Ty) : (x.join y).accepts x = true := by
  induction x generalizing y with
  | quote p b ihp ihb =>
    cases y with
    | quote q c =>
      rw [join_quote]
      exact accepts_quote.2 ⟨p, b, rfl, ihp q, ihb c⟩
    | _ => exact accepts_any
  | _ =>
    rw [join_eq_ite (.inl rfl)]
    split
    · exact accepts_self _
    · exact accepts_any

theorem accepts_join_right (x y : Ty) : (x.join y).accepts y = true :=
  join_comm y x ▸ accepts_join_left y x

/-- The join is narrower than all else that describes what is joined. -/
theorem accepts_join (hx : t.accepts x = true) (hy : t.accepts y = true) :
    t.accepts (x.join y) = true := by
  induction t generalizing x y with
  | any => exact accepts_any
  | notEmpty => exact accepts_notEmpty.2 (join_ne_empty (accepts_notEmpty.1 hx))
  | quote s t ihs iht =>
    obtain ⟨p, b, rfl, hp, hb⟩ := accepts_quote.1 hx
    obtain ⟨q, c, rfl, hq, hc⟩ := accepts_quote.1 hy
    exact accepts_quote.2 ⟨_, _, join_quote, ihs hp hq, iht hb hc⟩
  | _ =>
    -- Any other type accepts only itself.
    simp only [accepts, decide_eq_true_eq] at hx hy
    rw [← hx, ← hy, join_self]
    exact accepts_self _

/-- Acceptance is transitive, but not through `notEmpty`. -/
theorem accepts_trans (ht : t.lacksNotEmpty = true) (hx : t.accepts x = true)
    (hy : x.accepts y = true) : t.accepts y = true := by
  induction t generalizing x y with
  | any => exact accepts_any
  | notEmpty => cases ht
  | quote s t ihs iht =>
    obtain ⟨hs, ht⟩ := Bool.and_eq_true_iff.1 ht
    obtain ⟨p, b, rfl, hp, hb⟩ := accepts_quote.1 hx
    obtain ⟨q, c, rfl, hq, hc⟩ := accepts_quote.1 hy
    exact accepts_quote.2 ⟨q, c, rfl, ihs hs hp hq, iht ht hb hc⟩
  | _ =>
    simp only [accepts, decide_eq_true_eq] at hx
    rwa [hx]

theorem accepts_antisymm (hx : x.lacksNotEmpty = true) (hy : y.lacksNotEmpty = true)
    (h : x.accepts y = true) (h' : y.accepts x = true) : x = y := by
  induction x generalizing y with
  | any =>
    cases y with
    | any => rfl
    | notEmpty => cases hy
    | _ => simp [accepts] at h'
  | notEmpty => cases hx
  | quote p b ihp ihb =>
    obtain ⟨hxp, hxb⟩ := Bool.and_eq_true_iff.1 hx
    obtain ⟨q, c, rfl, hq, hc⟩ := accepts_quote.1 h
    obtain ⟨hyq, hyc⟩ := Bool.and_eq_true_iff.1 hy
    rw [accepts, Bool.and_eq_true] at h'
    rw [ihp hxp hyq hq h'.1, ihb hxb hyc hc h'.2]
  | _ => simpa [accepts] using h

/-- Apart from `notEmpty`, a join is accepted if and only if all that is joined is. -/
theorem accepts_join_iff (ht : t.lacksNotEmpty = true) :
    t.accepts (x.join y) = true ↔ t.accepts x = true ∧ t.accepts y = true :=
  ⟨fun h => ⟨accepts_trans ht h (accepts_join_left x y),
    accepts_trans ht h (accepts_join_right x y)⟩, fun h => accepts_join h.1 h.2⟩

theorem lacksNotEmpty_join (hx : x.lacksNotEmpty = true) (hy : y.lacksNotEmpty = true) :
    (x.join y).lacksNotEmpty = true := by
  induction x generalizing y with
  | quote p b ihp ihb =>
    cases y with
    | quote q c =>
      rw [lacksNotEmpty, Bool.and_eq_true] at hx hy
      rw [join_quote, lacksNotEmpty, ihp hx.1 hy.1, ihb hx.2 hy.2, Bool.and_self]
    | _ => rfl
  | _ =>
    rw [join_eq_ite (.inl rfl)]
    split
    · exact hx
    · rfl

end Ty

/-! ### Types of sequences -/

namespace Value

open Ty (lacksNotEmpty)

variable {s t : Ty} {vs ws p q b c : List Value}

theorem lacksNotEmpty_widen (hs : s.lacksNotEmpty = true)
    (h : ∀ v ∈ vs, v.ty.lacksNotEmpty = true) : (widen s vs).lacksNotEmpty = true := by
  induction vs generalizing s with
  | nil => rwa [widen]
  | cons v vs ih =>
    rw [List.forall_mem_cons] at h
    rw [widen]
    exact ih (Ty.lacksNotEmpty_join hs h.1) h.2

theorem lacksNotEmpty_elementTy_of_forall (h : ∀ v ∈ vs, v.ty.lacksNotEmpty = true) :
    (elementTy vs).lacksNotEmpty = true := by
  cases vs with
  | nil => rfl
  | cons v vs =>
    rw [List.forall_mem_cons] at h
    rw [elementTy]
    exact lacksNotEmpty_widen h.1 h.2

/-- The wildcard `notEmpty` is for signatures only. -/
theorem lacksNotEmpty_ty (v : Value) : v.ty.lacksNotEmpty = true := by
  induction v using Value.induction with
  | num | atom | sym | str => rfl
  | quote p b hp hb =>
    rw [ty, lacksNotEmpty, lacksNotEmpty_elementTy_of_forall hp,
      lacksNotEmpty_elementTy_of_forall hb, Bool.and_self]

theorem lacksNotEmpty_elementTy (vs : List Value) : (elementTy vs).lacksNotEmpty = true :=
  lacksNotEmpty_elementTy_of_forall fun v _ => lacksNotEmpty_ty v

theorem accepts_widen_iff (ht : t.lacksNotEmpty = true) :
    t.accepts (widen s vs) = true ↔ t.accepts s = true ∧ ∀ v ∈ vs, t.accepts v.ty = true := by
  induction vs generalizing s with
  | nil => simp [widen]
  | cons v vs ih => rw [widen, ih, Ty.accepts_join_iff ht, List.forall_mem_cons, and_assoc]

theorem accepts_elementTy_iff (ht : t.lacksNotEmpty = true) (hv : vs ≠ []) :
    t.accepts (elementTy vs) = true ↔ ∀ v ∈ vs, t.accepts v.ty = true := by
  obtain ⟨v, vs, rfl⟩ := List.exists_cons_of_ne_nil hv
  rw [elementTy, accepts_widen_iff ht, List.forall_mem_cons]

/-- What accepts the type of a sequence accepts that of a part of it. -/
theorem accepts_elementTy_of_subset (hv : vs ≠ []) (h : vs ⊆ ws) :
    (elementTy ws).accepts (elementTy vs) = true := by
  have hw : ws ≠ [] := fun hn => hv (List.subset_nil.1 (hn ▸ h))
  have hl := lacksNotEmpty_elementTy ws
  rw [accepts_elementTy_iff hl hv]
  intro v hm
  exact (accepts_elementTy_iff hl hw).1 (Ty.accepts_self _) v (h hm)

/-- The type of a sequence depends only on which values are in it. -/
theorem elementTy_congr (h : vs ⊆ ws) (h' : ws ⊆ vs) : elementTy vs = elementTy ws := by
  by_cases hv : vs = []
  · subst hv
    rw [List.subset_nil.1 h']
  · have hw : ws ≠ [] := fun hn => hv (List.subset_nil.1 (hn ▸ h))
    exact Ty.accepts_antisymm (lacksNotEmpty_elementTy vs) (lacksNotEmpty_elementTy ws)
      (accepts_elementTy_of_subset hw h') (accepts_elementTy_of_subset hv h)

theorem widen_eq_foldl (t : Ty) (vs : List Value) : widen t vs = (vs.map ty).foldl Ty.join t := by
  induction vs generalizing t with
  | nil => rfl
  | cons v vs ih => rw [widen, ih, List.map_cons, List.foldl_cons]

/-- The type of a sequence depends on its values only through their types. -/
theorem elementTy_eq_of_map_ty (h : vs.map ty = ws.map ty) : elementTy vs = elementTy ws := by
  cases vs with
  | nil => rw [List.map_eq_nil_iff.1 h.symm]
  | cons v vs =>
    cases ws with
    | nil => cases h
    | cons w ws =>
      obtain ⟨hv, hvs⟩ := List.cons.inj h
      rw [elementTy, elementTy, widen_eq_foldl, widen_eq_foldl, hvs, hv]

theorem accepts_anyQuote_elementTy :
    Ty.anyQuote.accepts (elementTy vs) = true ↔
      vs ≠ [] ∧ ∀ v ∈ vs, ∃ q : Quote, v = q.toValue := by
  by_cases hv : vs = []
  · simp [hv, elementTy, Ty.anyQuote, Ty.accepts]
  · simp [accepts_elementTy_iff (t := Ty.anyQuote) rfl hv, hv]

/-- A signature on a sequence is a signature on its elements: its type is accepted by one
    without `notEmpty` if and only if that of each element is, and it is `empty` if and only
    if there are none. So the quote types in the signatures of the core words accept what
    they are meant to: the quotes with a value in the body, or in the pattern, and the
    quotes with a body of quotes and no pattern. -/
theorem elementTy_faithful :
    (∀ (vs : List Value) (t : Ty), vs ≠ [] → t.lacksNotEmpty = true →
      (t.accepts (elementTy vs) = true ↔ ∀ v ∈ vs, t.accepts v.ty = true)) ∧
    (∀ vs, elementTy vs = .empty ↔ vs = []) ∧
    ∀ v : Value,
      ((Ty.quote .any .notEmpty).accepts v.ty = true ↔
        ∃ q : Quote, v = q.toValue ∧ q.body ≠ []) ∧
      ((Ty.quote .notEmpty .any).accepts v.ty = true ↔
        ∃ q : Quote, v = q.toValue ∧ q.pattern ≠ []) ∧
      ((Ty.quote .empty (.quote .any .any)).accepts v.ty = true ↔
        ∃ q : Quote, v = q.toValue ∧ q.pattern = [] ∧ q.body ≠ [] ∧
          ∀ w ∈ q.body, ∃ clause : Quote, w = clause.toValue) := by
  refine ⟨fun vs t hv ht => accepts_elementTy_iff ht hv, fun vs => elementTy_eq_empty,
    fun v => ⟨?_, ?_, ?_⟩⟩
  · simp [accepts_quote_ty]
  · simp [accepts_quote_ty]
  · rw [show Ty.quote .any .any = Ty.anyQuote from rfl, accepts_quote_ty]
    simp only [Ty.accepts_empty, elementTy_eq_empty, accepts_anyQuote_elementTy]

theorem elementTy_faithful_numbers :
    (Ty.quote .empty .num).lacksNotEmpty = true ∧
      (Ty.quote .empty .num).accepts
        (elementTy [.quote [] [.num 1, .num 2], .quote [] [.num 3]]) = true := by
  refine ⟨rfl, (elementTy_faithful.1 _ _ (List.cons_ne_nil _ _) rfl).2 ?_⟩
  simp [ty, elementTy, widen]

end Value

namespace Ty

/-- The join of two types is the narrowest type that describes both: an operation of a
    semilattice, for which acceptance is the order. So the type of a quote stays the same
    when values of its pattern and its body are put in another order or repeated. -/
theorem join_narrowest (x y z : Ty) :
    x.join y = y.join x ∧ (x.join y).join z = x.join (y.join z) ∧ x.join x = x ∧
    x.accepts x = true ∧ (x.join y).accepts x = true ∧ (x.join y).accepts y = true ∧
    (∀ t : Ty, t.accepts x = true → t.accepts y = true → t.accepts (x.join y) = true) ∧
    ∀ p q b c : List Value, (∀ v, v ∈ p ↔ v ∈ q) → (∀ v, v ∈ b ↔ v ∈ c) →
      (Value.quote p b).ty = (Value.quote q c).ty := by
  refine ⟨join_comm x y, join_assoc x y z, join_self, accepts_self x, accepts_join_left x y,
    accepts_join_right x y, fun t => accepts_join, fun p q b c hp hb => ?_⟩
  rw [Value.ty, Value.ty, Value.elementTy_congr (fun v => (hp v).1) fun v => (hp v).2,
    Value.elementTy_congr (fun v => (hb v).1) fun v => (hb v).2]

theorem join_narrowest_mixed :
    (Ty.quote .any .num).accepts ((Ty.quote .empty .num).join (.quote .atom .num)) = true ∧
      (Value.quote [.num 1, .str "a"] [.sym "b"]).ty =
        (Value.quote [.str "a", .num 1, .str "a"] [.sym "b", .sym "b"]).ty := by
  have h := join_narrowest (.quote .empty .num) (.quote .atom .num) .any
  obtain ⟨-, -, -, -, -, -, hl, ht⟩ := h
  refine ⟨hl (.quote .any .num) (by decide) (by decide), ht _ _ _ _ ?_ ?_⟩
  · simp [or_comm]
  · simp

end Ty

end Catena
