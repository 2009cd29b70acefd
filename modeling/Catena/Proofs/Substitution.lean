import Catena.Pattern

/-!
# Laws of substitution

Bindings are put into the body of a quote in one pass, and a value that is put in is not looked
at again. A second pass does look at it. So two passes are one pass with other bindings: those of
the first, with the second put into what they bind, and those of the second for all other names
(`Bindings.Composes`).

Nothing else is touched: what has no bound atom in it stays as it is, and every quote in a body
stays where it is and keeps its pattern.

* `Value.subst_subst`: two passes are one;
* `Value.subst_eq_self`: without an atom that is bound, nothing changes;
* `Value.at?_subst`: bindings are put in place by place;
* `Quote.bind_laws`: the same of quotes.
-/

namespace Catena

/-! ### Names that are looked up -/

namespace Value

/-- An atom of that name is in a value, at a place where bindings are put in: it is the value
    itself, or is in the body of a quote. Atoms in patterns do not count. -/
inductive Mentions (name : String) : Value → Prop
  | atom : Mentions name (.atom name)
  | quote {p b v} : v ∈ b → Mentions name v → Mentions name (.quote p b)

variable {bindings : Bindings} {v w : Value} {vs p b : List Value} {path : List Nat}
  {m n : String}

@[simp]
theorem mentions_atom : (atom m).Mentions n ↔ n = m := by
  constructor
  · rintro ⟨⟩
    rfl
  · rintro rfl
    exact .atom

@[simp]
theorem mentions_quote : (quote p b).Mentions n ↔ ∃ v ∈ b, v.Mentions n := by
  constructor
  · rintro (_ | ⟨hv, hn⟩)
    exact ⟨_, hv, hn⟩
  · rintro ⟨v, hv, hn⟩
    exact .quote hv hn

theorem substAll_eq_self (h : ∀ v ∈ vs, subst bindings v = v) : substAll bindings vs = vs := by
  rw [substAll_eq_map, List.map_congr_left h]
  exact List.map_id vs

/-- A value in which no atom is bound stays as it is. -/
theorem subst_eq_self (h : ∀ n, v.Mentions n → bindings.get? n = none) :
    subst bindings v = v := by
  induction v using Value.induction with
  | atom n =>
    rw [subst, h n .atom]
    rfl
  | quote p b _ ih =>
    rw [subst_quote, substAll_eq_self fun w hw => ih w hw fun n hn => h n (.quote hw hn)]
  | _ => rfl

/-- Bindings are put into a quote as into any value. -/
theorem subst_toValue (q : Quote) : subst bindings q.toValue = (q.bind bindings).toValue := by
  rw [Quote.toValue, subst_quote, Quote.bind_eq]
  rfl

/-! ### Places -/

/-- What is at a place in a value. A place is given by the index of a value in the body, and by
    its place in there; nothing in a pattern has one. -/
def at? : Value → (path : List Nat) → Option Value
  | v, [] => some v
  | .quote _ body, i :: path => body[i]?.bind (at? · path)
  | _, _ :: _ => none

/-- Bindings are put in place by place: at a place that is there before, there is afterwards what
    they make of the value. -/
theorem at?_subst (h : v.at? path = some w) :
    (subst bindings v).at? path = some (subst bindings w) := by
  induction path generalizing v with
  | nil =>
    cases h
    rfl
  | cons i path ih =>
    cases v with
    | quote p b =>
      obtain ⟨u, hu, hw⟩ := Option.bind_eq_some_iff.1 h
      rw [subst_quote, substAll_eq_map, at?, List.getElem?_map, hu]
      exact ih hw
    | _ => cases h

end Value

/-! ### One pass after another -/

namespace Bindings

/-- The bindings `b` are those of `b₁` and then of `b₂`. A name of `b₁` is bound to its value with
    `b₂` put in: an atom is looked up, and a quote is bound. Any other name is as in `b₂`. -/
structure Composes (b₁ b₂ b : Bindings) : Prop where
  atom : ∀ n m, b₁.get? n = some (.atom m) → b.get? n = some ((b₂.get? m).getD (.atom m))
  quote : ∀ n (q : Quote), b₁.get? n = some q.toValue → b.get? n = some (q.bind b₂).toValue
  literal : ∀ n v, b₁.get? n = some v → (∀ m, v ≠ .atom m) → (∀ q : Quote, v ≠ q.toValue) →
    b.get? n = some v
  unbound : ∀ n, b₁.get? n = none → b.get? n = b₂.get? n

/-- The bindings that are put in by a pass with the first and then one with the second. -/
def andThen (first second : Bindings) : Bindings :=
  first.entries.foldr (fun e b => b.insert e.1 (Value.subst second e.2)) second

variable {b₁ b₂ b : Bindings} {n : String} {v : Value}

theorem get?_foldr_insert (es : List (String × Value)) :
    Dictionary.get? (es.foldr (fun e b => b.insert e.1 (Value.subst b₂ e.2)) b₂) n =
      ((Dictionary.lookup n es).map (Value.subst b₂)).or (b₂.get? n) := by
  induction es with
  | nil => rfl
  | cons e es ih =>
    rw [List.foldr_cons, Dictionary.get?_insert, ih, Dictionary.lookup]
    split <;> rfl

theorem get?_andThen :
    (b₁.andThen b₂).get? n = ((b₁.get? n).map (Value.subst b₂)).or (b₂.get? n) :=
  get?_foldr_insert b₁.entries

theorem composes_andThen (b₁ b₂ : Bindings) : b₁.Composes b₂ (b₁.andThen b₂) where
  atom n m h := by
    rw [get?_andThen, h]
    rfl
  quote n q h := by
    rw [get?_andThen, h, Option.map_some, Value.subst_toValue, Option.some_or]
  literal n v h ha hq := by
    rw [get?_andThen, h]
    cases v with
    | atom m => exact absurd rfl (ha m)
    | quote p c => exact absurd rfl (hq ⟨p, c⟩)
    | _ => rfl
  unbound n h := by
    rw [get?_andThen, h]
    rfl

/-- A name of the first bindings is bound to its value with the second put in. -/
theorem Composes.get?_eq (hb : b₁.Composes b₂ b) (h : b₁.get? n = some v) :
    b.get? n = some (Value.subst b₂ v) := by
  cases v with
  | atom m => exact hb.atom n m h
  | quote p c =>
    rw [hb.quote n ⟨p, c⟩ h, ← Value.subst_toValue]
    rfl
  | _ => exact hb.literal n _ h nofun nofun

end Bindings

variable {b₁ b₂ b : Bindings}

namespace Value

theorem substAll_substAll {vs : List Value} (h : ∀ v ∈ vs, subst b₂ (subst b₁ v) = subst b v) :
    substAll b₂ (substAll b₁ vs) = substAll b vs := by
  simp only [substAll_eq_map, List.map_map]
  exact List.map_congr_left h

/-- Two passes are one. -/
theorem subst_subst (hb : b₁.Composes b₂ b) (v : Value) :
    subst b₂ (subst b₁ v) = subst b v := by
  induction v using Value.induction with
  | atom n =>
    rw [subst, subst]
    cases h : b₁.get? n with
    | none => rw [hb.unbound n h, Option.getD_none, subst]
    | some w => rw [hb.get?_eq h, Option.getD_some, Option.getD_some]
  | quote p c _ ih => rw [subst_quote, subst_quote, subst_quote, substAll_substAll ih]
  | _ => rfl

end Value

namespace Quote

/-- The laws of binding. One binding after the other is a single one, with the bindings that the
    two compose to, and there are such. A quote is not changed by bindings of names that are not
    mentioned in its body, and so by none. And no pattern is ever changed, neither its own nor
    that of a quote at any place in its body. -/
theorem bind_laws (q : Quote) (b₁ b₂ : Bindings) :
    (∀ b, b₁.Composes b₂ b → (q.bind b₁).bind b₂ = q.bind b) ∧ b₁.Composes b₂ (b₁.andThen b₂) ∧
    ((∀ n v, b₁.get? n = some v → ∀ w ∈ q.body, ¬ w.Mentions n) → q.bind b₁ = q) ∧
    q.bind .empty = q ∧
    ∀ path p c, q.toValue.at? path = some (.quote p c) →
      (q.bind b₁).toValue.at? path = some (.quote p (bind ⟨p, c⟩ b₁).body) := by
  refine ⟨fun b hb => ?_, b₁.composes_andThen b₂, fun h => ?_, rfl, fun path p c h => ?_⟩
  · rw [bind_eq, bind_eq, bind_eq, Value.substAll_substAll fun v _ => Value.subst_subst hb v]
  · have hbody : Value.substAll b₁ q.body = q.body :=
      Value.substAll_eq_self fun v hv => Value.subst_eq_self fun n hn =>
        Option.eq_none_iff_forall_ne_some.2 fun w hw => h n w hw v hv hn
    rw [bind_eq, hbody]
  · rw [← Value.subst_toValue, Value.at?_subst h, Value.subst_quote, bind_eq]

/-- A name that the first bindings put in is bound by the second, but not by the first, under a
    pattern that has the same name. -/
theorem bind_laws_nested :
    ∃ (q : Quote) (b₁ b₂ b₃ : Bindings),
      q = ⟨[.atom "x"], [.atom "x", .quote [.atom "y"] [.atom "y", .atom "z"]]⟩ ∧
      b₁ = .ofList [("x", .quote [] [.atom "y"]), ("y", .atom "z")] ∧
      b₂ = .ofList [("y", .sym "a"), ("z", .str "b")] ∧
      (q.bind b₁).bind b₂ = q.bind (b₁.andThen b₂) ∧
      (q.bind (b₁.andThen b₂)).body =
        [.quote [] [.sym "a"], .quote [.atom "y"] [.str "b", .str "b"]] ∧
      b₃ = .ofList [("w", .sym "a")] ∧ q.bind b₃ = q ∧
      (q.bind b₁).toValue.at? [1] = some (.quote [.atom "y"] [.atom "z", .atom "z"]) := by
  obtain ⟨hb, hc, -, -, hp⟩ := bind_laws
    ⟨[.atom "x"], [.atom "x", .quote [.atom "y"] [.atom "y", .atom "z"]]⟩
    (.ofList [("x", .quote [] [.atom "y"]), ("y", .atom "z")])
    (.ofList [("y", .sym "a"), ("z", .str "b")])
  refine ⟨_, _, _, _, rfl, rfl, rfl, hb _ hc, rfl, rfl, ?_, hp [1] _ _ rfl⟩
  refine (bind_laws _ _ .empty).2.2.1 fun n v hn => ?_
  by_cases he : "w" = n
  · subst he
    simp
  · cases hn.symm.trans (if_neg he)

end Quote

end Catena
