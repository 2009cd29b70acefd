import Catena.Proofs.Application
import Catena.Proofs.Substitution

/-!
# Renaming the variables of a quote

The variables of a quote are the atoms at the top level of its pattern. What they are called makes
no difference to the words that bind them: if they are given new names, in the pattern and at all
places in the body where bindings are put in, then the same values are put in at the same places.
A pattern of a quote in the body may well use the old names, or the new ones. They are not
renamed there, since nothing is put in there.

New names must differ from each other, and from all atoms in the body that are no variables.

* `Pattern.fits_rename`, `Pattern.isFirst_rename`: a renamed pattern fits the same arguments, and
  binds the new names to what the old ones were bound to;
* `Value.subst_rename`: so the same comes out of a renamed body;
* `State.dispatch_rename`: the words `call` and `match` do the same to a renamed quote.
-/

namespace Catena

variable {H : Type} {f : String → String} {m n : String} {v w e : Value}
  {pattern args vs ws : List Value} {b b' : Bindings} {q : Quote}

/-! ### New names -/

namespace Value

mutual

/-- A value with its atoms renamed where bindings would be put in. -/
def rename (f : String → String) : Value → Value
  | .atom n => .atom (f n)
  | .quote pattern body => .quote pattern (renameAll f body)
  | v => v

/-- A sequence with each value renamed. -/
def renameAll (f : String → String) : List Value → List Value
  | [] => []
  | v :: vs => rename f v :: renameAll f vs

end

/-- An element of a pattern, renamed if it is a variable. -/
def renameVariable (f : String → String) : Value → Value
  | .atom n => .atom (f n)
  | v => v

theorem renameAll_eq_map (f : String → String) (vs : List Value) :
    renameAll f vs = vs.map (rename f) := by
  induction vs with
  | nil => rfl
  | cons v vs ih => rw [renameAll, ih, List.map_cons]

theorem renameVariable_literal (he : ∀ n, e ≠ .atom n) : renameVariable f e = e := by
  cases e with
  | atom n => exact absurd rfl (he n)
  | _ => rfl

theorem renameVariable_eq_atom : renameVariable f e = .atom m ↔ ∃ n, e = .atom n ∧ f n = m := by
  cases e <;> simp [renameVariable]

/-- What is put in for new names is what was put in for the old ones. -/
theorem subst_rename (h : ∀ n, v.Mentions n → subst b' (.atom (f n)) = subst b (.atom n)) :
    subst b' (rename f v) = subst b v := by
  induction v using Value.induction with
  | atom n => exact h n .atom
  | quote p c _ ih =>
    rw [rename, subst_quote, subst_quote, renameAll_eq_map, substAll_eq_map, substAll_eq_map,
      List.map_map]
    refine congrArg (quote p) (List.map_congr_left fun w hw => ih w hw fun n hn => ?_)
    exact h n (.quote hw hn)
  | _ => rfl

/-! ### Types -/

/-- An atom stays an atom, so types do not change. -/
theorem ty_rename (f : String → String) (v : Value) : (rename f v).ty = v.ty := by
  induction v using Value.induction with
  | quote p c _ ih =>
    rw [rename, ty, ty, renameAll_eq_map]
    refine congrArg _ (elementTy_eq_of_map_ty ?_)
    rw [List.map_map]
    exact List.map_congr_left ih
  | _ => rfl

theorem ty_renameVariable (f : String → String) (e : Value) : (renameVariable f e).ty = e.ty := by
  cases e <;> rfl

end Value

namespace Quote

/-- The variables of a quote, in the order of their places. -/
def vars (q : Quote) : List String :=
  q.pattern.filterMap fun
    | .atom n => some n
    | _ => none

/-- The new name of an atom: only variables are renamed. -/
def newName (q : Quote) (f : String → String) (n : String) : String :=
  if n ∈ q.vars then f n else n

/-- A quote with its variables renamed, in its pattern and in its body. -/
def rename (f : String → String) (q : Quote) : Quote where
  pattern := q.pattern.map (Value.renameVariable (q.newName f))
  body := Value.renameAll (q.newName f) q.body

/-- New names keep the variables of a quote apart: different variables get different names, and if
    a new name is in the body, then as a variable that is renamed as well. -/
structure KeepsApart (f : String → String) (q : Quote) : Prop where
  injOn : Set.InjOn f {n | n ∈ q.vars}
  fresh : ∀ n ∈ q.vars, ∀ v ∈ q.body, v.Mentions (f n) → f n ∈ q.vars

/-- New names that are neither in the pattern nor in the body. -/
theorem keepsApart_of_new (hf : Set.InjOn f {n | n ∈ q.vars})
    (hnew : ∀ n ∈ q.vars, f n ∉ q.vars ∧ ∀ v ∈ q.body, ¬ v.Mentions (f n)) : q.KeepsApart f :=
  ⟨hf, fun n hn v hv hm => absurd hm ((hnew n hn).2 v hv)⟩

@[simp]
theorem mem_vars : n ∈ q.vars ↔ .atom n ∈ q.pattern := by
  simp only [vars, List.mem_filterMap]
  constructor
  · rintro ⟨e, he, h⟩
    cases e with
    | atom m =>
      cases h
      exact he
    | _ => cases h
  · exact fun h => ⟨_, h, rfl⟩

theorem ty_toValue_rename : (q.rename f).toValue.ty = q.toValue.ty := by
  have hp : (q.rename f).pattern.map Value.ty = q.pattern.map Value.ty := by
    rw [rename, List.map_map]
    exact List.map_congr_left fun e _ => Value.ty_renameVariable _ e
  have hb : (q.rename f).body.map Value.ty = q.body.map Value.ty := by
    rw [rename, Value.renameAll_eq_map, List.map_map]
    exact List.map_congr_left fun v _ => Value.ty_rename _ v
  rw [toValue, toValue, Value.ty, Value.ty, Value.elementTy_eq_of_map_ty hp,
    Value.elementTy_eq_of_map_ty hb]

theorem length_pattern_rename : (q.rename f).pattern.length = q.pattern.length :=
  List.length_map _

theorem newName_variable (h : n ∈ q.vars) : q.newName f n = f n := if_pos h

theorem newName_other (h : n ∉ q.vars) : q.newName f n = n := if_neg h

end Quote

/-! ### Patterns -/

namespace Pattern

theorem getElem?_rename_atom {i : Nat} :
    (pattern.map (Value.renameVariable f))[i]? = some (.atom m) ↔
      ∃ n, pattern[i]? = some (.atom n) ∧ f n = m := by
  rw [List.getElem?_map, Option.map_eq_some_iff]
  simp only [Value.renameVariable_eq_atom]
  grind

variable (hf : Set.InjOn f {n | .atom n ∈ pattern})
include hf

/-- A renamed pattern fits the same arguments. -/
theorem fits_rename :
    Fits (pattern.map (Value.renameVariable f)) args ↔ Fits pattern args := by
  constructor
  · rintro ⟨hl, ht, hr⟩
    refine ⟨by simpa using hl, fun i e v hp ha he => ht i e v ?_ ha he, ?_⟩
    · rw [List.getElem?_map, hp, Option.map_some, Value.renameVariable_literal he]
    · intro i j n v w hij hi hj
      exact hr i j (f n) v w hij (getElem?_rename_atom.2 ⟨n, hi, rfl⟩)
        (getElem?_rename_atom.2 ⟨n, hj, rfl⟩)
  · rintro ⟨hl, ht, hr⟩
    refine ⟨by simpa using hl, fun i e v hp ha he => ?_, fun i j n v w hij hi hj => ?_⟩
    · rw [List.getElem?_map, Option.map_eq_some_iff] at hp
      obtain ⟨e', hp, rfl⟩ := hp
      have he' : ∀ n, e' ≠ .atom n := by
        rintro n rfl
        exact he (f n) rfl
      rw [Value.renameVariable_literal he']
      exact ht i e' v hp ha he'
    · obtain ⟨n₁, hi₁, rfl⟩ := getElem?_rename_atom.1 hi
      obtain ⟨n₂, hj₂, hn⟩ := getElem?_rename_atom.1 hj
      obtain rfl := hf (List.mem_of_getElem? hj₂) (List.mem_of_getElem? hi₁) hn
      exact hr i j n₂ v w hij hi₁ hj₂

theorem isFirst_rename :
    IsFirst (pattern.map (Value.renameVariable f)) args m v ↔
      ∃ n, f n = m ∧ IsFirst pattern args n v := by
  constructor
  · rintro ⟨i, hp, ha, hj⟩
    obtain ⟨n, hn, rfl⟩ := getElem?_rename_atom.1 hp
    exact ⟨n, rfl, i, hn, ha, fun j hji h => hj j hji (getElem?_rename_atom.2 ⟨n, h, rfl⟩)⟩
  · rintro ⟨n, rfl, i, hp, ha, hj⟩
    refine ⟨i, getElem?_rename_atom.2 ⟨n, hp, rfl⟩, ha, fun j hji h => ?_⟩
    obtain ⟨n', h', hn⟩ := getElem?_rename_atom.1 h
    obtain rfl := hf (List.mem_of_getElem? h') (List.mem_of_getElem? hp) hn
    exact hj j hji h'

theorem exists_match?_rename :
    (∃ b, match? (pattern.map (Value.renameVariable f)) args = some b) ↔
      ∃ b, match? pattern args = some b := by
  rw [exists_match?_iff, exists_match?_iff, fits_rename hf]

/-- New names are bound to what the old ones were bound to. -/
theorem get?_of_match?_rename (h : match? pattern args = some b)
    (h' : match? (pattern.map (Value.renameVariable f)) args = some b') :
    b'.get? m = some v ↔ ∃ n, f n = m ∧ b.get? n = some v := by
  rw [get?_of_match? h', isFirst_rename hf]
  simp only [get?_of_match? h]

end Pattern

/-! ### Quotes -/

namespace Quote

variable (hf : q.KeepsApart f)
include hf

theorem KeepsApart.injOn_newName : Set.InjOn (q.newName f) {n | .atom n ∈ q.pattern} := by
  intro n hn m hm h
  rw [newName_variable (mem_vars.2 hn), newName_variable (mem_vars.2 hm)] at h
  exact hf.injOn (mem_vars.2 hn) (mem_vars.2 hm) h

/-- An atom in the body is replaced by the same value before and after it has been renamed, or is
    not bound either way. -/
theorem subst_newName (h : Pattern.match? q.pattern args = some b)
    (h' : Pattern.match? (q.rename f).pattern args = some b') (hv : v ∈ q.body)
    (hn : v.Mentions n) :
    Value.subst b' (.atom (q.newName f n)) = Value.subst b (.atom n) := by
  have hget {m w} := Pattern.get?_of_match?_rename (m := m) (v := w) hf.injOn_newName h h'
  have hvars {m} := Pattern.exists_get?_of_match? (n := m) h
  rw [Value.subst, Value.subst]
  by_cases hmem : n ∈ q.vars
  · obtain ⟨w, hw⟩ := hvars.2 (mem_vars.1 hmem)
    rw [hw, hget.2 ⟨n, rfl, hw⟩, Option.getD_some, Option.getD_some]
  · have hb : b.get? n = none := Option.eq_none_iff_forall_ne_some.2 fun w hw =>
      hmem (mem_vars.2 (hvars.1 ⟨w, hw⟩))
    -- No variable can have been given the name of an atom that is left alone.
    have hb' : b'.get? n = none := Option.eq_none_iff_forall_ne_some.2 fun w hw => by
      obtain ⟨m, hm, hbm⟩ := hget.1 hw
      have hmv : m ∈ q.vars := mem_vars.2 (hvars.1 ⟨w, hbm⟩)
      rw [newName_variable hmv] at hm
      subst hm
      exact hmem (hf.fresh m hmv v hv hn)
    rw [newName_other hmem, hb, hb']

theorem body_bind_rename (h : Pattern.match? q.pattern args = some b)
    (h' : Pattern.match? (q.rename f).pattern args = some b') :
    ((q.rename f).bind b').body = (q.bind b).body := by
  rw [bind_eq, bind_eq, rename, Value.renameAll_eq_map, Value.substAll_eq_map,
    Value.substAll_eq_map, List.map_map]
  exact List.map_congr_left fun v hv => Value.subst_rename fun n hn => subst_newName hf h h' hv hn

end Quote

namespace Action

/-- A renamed quote does the same to every stack. -/
theorem applyTo_rename (hf : q.KeepsApart f) (stack : List Value) :
    applyTo stack (q.rename f) = applyTo stack q := by
  rw [applyTo, applyTo, Quote.length_pattern_rename]
  cases h : Pattern.match? q.pattern (stack.take q.pattern.length).reverse with
  | none =>
    cases h' : Pattern.match? (q.rename f).pattern (stack.take q.pattern.length).reverse with
    | none => rfl
    | some b' =>
      obtain ⟨b, hb⟩ := (Pattern.exists_match?_rename hf.injOn_newName).1 ⟨b', h'⟩
      rw [h] at hb
      cases hb
  | some b =>
    obtain ⟨b', h'⟩ : ∃ b', Pattern.match? (q.rename f).pattern _ = some b' :=
      (Pattern.exists_match?_rename hf.injOn_newName).2 ⟨b, h⟩
    rw [h', Option.map_some, Option.map_some, Quote.body_bind_rename hf h h']

theorem firstClause_rename (hf : q.KeepsApart f) (stack before after : List Value) :
    firstClause stack (before ++ (q.rename f).toValue :: after) =
      firstClause stack (before ++ q.toValue :: after) := by
  have h := applyTo_rename hf stack
  rw [Quote.toValue, Quote.toValue]
  simp only [firstClause, List.findSome?_append, List.findSome?_cons]
  rw [h]

theorem callQuote_rename (hf : q.KeepsApart f) (s : State H) :
    callQuote (q.rename f) s = callQuote q s := by
  rw [callQuote, callQuote, update, update, applyTo_rename hf, Quote.length_pattern_rename]

theorem selectClause_rename (hf : q.KeepsApart f) (s : State H) (before after : List Value) :
    selectClause (before ++ (q.rename f).toValue :: after) s =
      selectClause (before ++ q.toValue :: after) s := by
  rw [selectClause, selectClause, update, update, firstClause_rename hf]

end Action

/-! ### The words -/

/-- The types on top of a stack do not depend on the value there, but on its type. -/
theorem topTypes_cons_congr (h : v.ty = w.ty) (k : Nat) (base : List Value) :
    topTypes k (v :: base) = topTypes k (w :: base) := by
  cases k with
  | zero => rfl
  | succ k => simp only [topTypes, List.take_succ_cons, List.map_cons, h]

namespace State

/-- The state with a quote on its stack that has another one among the values in its body. -/
def offering (s : State H) (pattern before after base : List Value) (q : Quote) : State H :=
  { s with stack := .quote pattern (before ++ q.toValue :: after) :: base }

theorem topTypes_offering_rename (s : State H) (pattern before after base : List Value) (k : Nat) :
    topTypes k (s.offering pattern before after base (q.rename f)).stack =
      topTypes k (s.offering pattern before after base q).stack := by
  refine topTypes_cons_congr ?_ k base
  rw [Value.ty, Value.ty]
  refine congrArg _ (Value.elementTy_eq_of_map_ty ?_)
  rw [List.map_append, List.map_append, List.map_cons, List.map_cons, Quote.ty_toValue_rename]

theorem admits_offering_rename (s : State H) (pattern before after base : List Value)
    (required : Signature) :
    required.admits (s.offering pattern before after base (q.rename f)).stack =
      required.admits (s.offering pattern before after base q).stack := by
  rw [Signature.admits, Signature.admits, topTypes_offering_rename]

variable [Host H]

theorem dispatch_select_offering (s : State H) (pattern before after base : List Value)
    (ha : Word.select.signature.admits (s.offering pattern before after base q).stack = true) :
    dispatch (.atom Word.select.name) (s.offering pattern before after base q) =
      Action.selectClause (before ++ q.toValue :: after) { s with stack := base } :=
  dispatch_select (q := ⟨pattern, before ++ q.toValue :: after⟩) rfl ha

/-- The names of variables do not matter. If the variables of a quote are given new names that
    keep them apart, in particular names that are neither in the pattern nor in the body, then the
    word `call` does the same to it on every stack. And so does `match`, with the quote as one of
    its clauses; if it does not accept the clauses, the fault is the same. -/
theorem dispatch_rename (hf : q.KeepsApart f) (s : State H) :
    (∀ base, dispatch (.atom Word.call.name) { s with stack := (q.rename f).toValue :: base } =
      dispatch (.atom Word.call.name) { s with stack := q.toValue :: base }) ∧
    ∀ pattern before after base,
      (∀ d t, dispatch (.atom Word.select.name) (s.offering pattern before after base q) = .ok d t →
        dispatch (.atom Word.select.name) (s.offering pattern before after base (q.rename f)) =
          .ok d t) ∧
      ∀ e t, dispatch (.atom Word.select.name) (s.offering pattern before after base q) =
          .error e t →
        dispatch (.atom Word.select.name) (s.offering pattern before after base (q.rename f)) =
          .error e (s.offering pattern before after base (q.rename f)) := by
  refine ⟨fun base => ?_, fun pattern before after base => ?_⟩
  · rw [dispatch_call rfl, dispatch_call rfl, Action.callQuote_rename hf]
  · have hadmits := admits_offering_rename (q := q) (f := f) s pattern before after base
      Word.select.signature
    cases ha : Word.select.signature.admits (s.offering pattern before after base q).stack with
    | true =>
      rw [dispatch_select_offering s _ _ _ _ ha, dispatch_select_offering s _ _ _ _
        (hadmits.trans ha), Action.selectClause_rename hf]
      exact ⟨fun _ _ => id, nofun⟩
    | false =>
      have hfail := (Fails.mismatch (Word.ofName?_name .select) ha).dispatch_eq
      have hfail' :=
        (Fails.mismatch (Word.ofName?_name .select) (hadmits.trans ha)).dispatch_eq
      rw [topTypes_offering_rename] at hfail'
      rw [hfail, hfail']
      refine ⟨nofun, fun e t h => ?_⟩
      cases h
      rfl

/-- A variable that stands twice, and is in the body of a quote that has it in its pattern. -/
theorem dispatch_rename_repeated :
    ∃ (q : Quote) (f : String → String) (s : State Sandbox) (base : List Value),
      q = ⟨[.atom "x", .sym "a", .atom "y", .atom "x"],
        [.atom "y", .quote [.atom "x"] [.atom "x", .atom "+"]]⟩ ∧
      q.rename f = ⟨[.atom "u", .sym "a", .atom "v", .atom "u"],
        [.atom "v", .quote [.atom "x"] [.atom "u", .atom "+"]]⟩ ∧
      q.KeepsApart f ∧ base = [.str "s", .str "t", .sym "a", .str "s"] ∧
      dispatch (.atom Word.call.name) { s with stack := (q.rename f).toValue :: base } =
        .ok .proceed
          { s with stack := [], queue := [.str "t", .quote [.atom "x"] [.str "s", .atom "+"]] } ∧
      dispatch (.atom Word.select.name) (s.offering [] [] [] base (q.rename f)) =
        .ok .proceed
          { s with
            stack := [], queue := [.str "t", .quote [.atom "x"] [.str "s", .atom "+"]] } := by
  let q : Quote := ⟨[.atom "x", .sym "a", .atom "y", .atom "x"],
    [.atom "y", .quote [.atom "x"] [.atom "x", .atom "+"]]⟩
  let f (n : String) : String := if n = "x" then "u" else "v"
  have hvars : q.vars = ["x", "y", "x"] := rfl
  have hf : q.KeepsApart f := by
    refine Quote.keepsApart_of_new ?_ ?_
    · rw [hvars]
      intro n hn m hm h
      simp only [f, Set.mem_ofPred_eq, List.mem_cons, List.not_mem_nil, or_false] at hn hm h
      grind
    · rw [hvars]
      simp [f, q]
  obtain ⟨hcall, hselect⟩ := dispatch_rename hf ({ host := {} } : State Sandbox)
  exact ⟨q, f, _, [.str "s", .str "t", .sym "a", .str "s"], rfl, rfl, hf, rfl,
    (hcall _).trans rfl, (hselect [] [] [] _).1 _ _ rfl⟩

end State

end Catena
