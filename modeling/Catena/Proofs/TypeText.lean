import Catena.Proofs.Effect

/-!
# Texts of types

A program sees the type of a value as a value (`Ty.toValue`), and the reader of a fault sees
types as texts. Both tell types apart. For values this is plain, since they nest as types do. A
text is flat, so it has to tell where the pattern of a quote type ends and its body begins: no
text of a type is a proper beginning of another (`Ty.chars_append_inj`), and a reader from the
left knows where to stop. The same holds of lists of types, which end with a bracket, and so of
the whole message about a stack that does not fit.

* `Ty.chars_append_inj`, `Ty.listText_append_inj`: what is read from the front of a text is
  unique;
* `Fault.text_mismatch_inj`: the message names the word, what it requires and what is there;
* `Ty.reported_exactly`: all that is shown of a type identifies it.
-/

namespace Catena

/-! ### One type -/

namespace Ty

variable {s t : Ty} {ss ts : List Ty} {u v : List Char}

/-- What a type is written with, character by character. -/
theorem chars_eq (t : Ty) : t.chars =
    match t with
    | .num => ['N', 'u', 'm']
    | .atom => ['A', 't', 'o', 'm']
    | .sym => ['S', 'y', 'm']
    | .str => ['S', 't', 'r']
    | .empty => ['E', 'm', 'p', 't', 'y']
    | .any => ['A', 'n', 'y']
    | .notEmpty => ['N', 'o', 't', 'E', 'm', 'p', 't', 'y']
    | .quote p b =>
      ['Q', 'u', 'o', 't', 'e', '('] ++ (p.chars ++ ',' :: ' ' :: (b.chars ++ [')'])) := by
  cases t with
  | quote p b =>
    have h : "Quote(".toList = ['Q', 'u', 'o', 't', 'e', '('] := String.toList_ofList
    have hq : (quote p b).chars =
      "Quote(".toList ++ p.chars ++ ',' :: ' ' :: b.chars ++ [')'] := rfl
    rw [hq, h, List.append_assoc, List.append_assoc]
    rfl
  | _ => exact String.toList_ofList

/-- A type can be read from the front of a text in one way only. -/
theorem chars_append_inj (h : s.chars ++ u = t.chars ++ v) : s = t ∧ u = v := by
  induction s generalizing t u v with
  | quote p b ihp ihb =>
    rw [chars_eq, chars_eq t] at h
    cases t with
    | quote q c =>
      simp only [List.cons_append, List.nil_append, List.append_assoc, List.cons.injEq,
        true_and] at h
      obtain ⟨rfl, hb⟩ := ihp h
      obtain ⟨rfl, hu⟩ := ihb (List.cons.inj (List.cons.inj hb).2).2
      exact ⟨rfl, (List.cons.inj hu).2⟩
    | _ => simp at h
  | _ =>
    -- The texts of two kinds differ in one of their first two characters.
    rw [chars_eq, chars_eq t] at h
    cases t <;> simp_all

theorem text_inj : s.text = t.text ↔ s = t := by
  constructor
  · intro h
    have hc : s.chars ++ [] = t.chars ++ [] := by
      rw [List.append_nil, List.append_nil]
      exact String.ofList_inj.1 h
    exact (chars_append_inj hc).1
  · rintro rfl
    rfl

theorem toValue_eq_sym (h : ∀ p b, t ≠ .quote p b) : t.toValue = .sym t.text := by
  cases t with
  | quote p b => exact absurd rfl (h p b)
  | _ => rfl

theorem beq_toValue_of_ne (hs : ∀ p b, s ≠ .quote p b) (ht : ∀ p b, t ≠ .quote p b) :
    (s.toValue == t.toValue) = true ↔ s = t := by
  have h : (Value.sym s.text == .sym t.text) = (s.text == t.text) := rfl
  rw [toValue_eq_sym hs, toValue_eq_sym ht, h, beq_iff_eq, text_inj]

theorem beq_toValue_iff : (s.toValue == t.toValue) = true ↔ s = t := by
  induction s generalizing t with
  | quote p b ihp ihb =>
    cases t with
    | quote q c =>
      have h : ((quote p b).toValue == (quote q c).toValue) =
          (p.toValue == q.toValue && (b.toValue == c.toValue && true)) := rfl
      rw [h, Bool.and_true, Bool.and_eq_true, ihp, ihb, quote.injEq]
    | _ => exact ⟨nofun, nofun⟩
  | _ =>
    cases t with
    | quote q c => exact ⟨nofun, nofun⟩
    | _ => exact beq_toValue_of_ne nofun nofun

theorem toValue_inj : s.toValue = t.toValue ↔ s = t :=
  ⟨fun h => beq_toValue_iff.1 (h ▸ beq_toValue_iff.2 rfl), congrArg toValue⟩

/-! ### Lists of types -/

/-- What stands behind the first type in the text of a list. -/
def charsBehind : List Ty → List Char
  | [] => [']']
  | t :: ts => ',' :: ' ' :: (t.chars ++ charsBehind ts)

theorem charsBehind_append_inj (h : charsBehind ss ++ u = charsBehind ts ++ v) :
    ss = ts ∧ u = v := by
  induction ss generalizing ts with
  | nil =>
    cases ts with
    | nil => exact ⟨rfl, (List.cons.inj h).2⟩
    | cons t ts => cases h
  | cons s ss ih =>
    cases ts with
    | nil => cases h
    | cons t ts =>
      simp only [charsBehind, List.cons_append, List.append_assoc, List.cons.injEq,
        true_and] at h
      obtain ⟨rfl, hs⟩ := chars_append_inj h
      obtain ⟨rfl, hu⟩ := ih hs
      exact ⟨rfl, hu⟩

theorem toList_listText_nil : (listText []).toList = ['[', ']'] := by decide

theorem toList_listText_cons (t : Ty) (ts : List Ty) :
    (listText (t :: ts)).toList = '[' :: (t.chars ++ charsBehind ts) := by
  have hbehind : (", ".intercalate ((t :: ts).map text) ++ "]").toList =
      t.chars ++ charsBehind ts := by
    induction ts generalizing t with
    | nil =>
      rw [List.map_singleton, String.intercalate_singleton, String.toList_append, text,
        String.toList_ofList]
      rfl
    | cons s ss ih =>
      rw [List.map_cons, List.map_cons, String.intercalate_cons_cons, String.append_assoc,
        String.append_assoc, String.toList_append, String.toList_append, ← List.map_cons, ih,
        text, String.toList_ofList]
      rfl
  rw [listText, String.append_assoc, String.toList_append, hbehind]
  rfl

theorem toList_listText_nil_ne (t : Ty) (ts : List Ty) (u v : List Char) :
    (listText []).toList ++ u ≠ (listText (t :: ts)).toList ++ v := by
  rw [toList_listText_nil, toList_listText_cons, chars_eq]
  cases t <;> nofun

/-- A list of types can be read from the front of a text in one way only. -/
theorem listText_append_inj (h : (listText ss).toList ++ u = (listText ts).toList ++ v) :
    ss = ts ∧ u = v := by
  cases ss with
  | nil =>
    cases ts with
    | nil => exact ⟨rfl, List.append_cancel_left h⟩
    | cons t ts => exact absurd h (toList_listText_nil_ne t ts u v)
  | cons s ss =>
    cases ts with
    | nil => exact absurd h.symm (toList_listText_nil_ne s ss v u)
    | cons t ts =>
      rw [toList_listText_cons, toList_listText_cons, List.cons_append, List.cons_append,
        List.append_assoc, List.append_assoc] at h
      obtain ⟨rfl, hs⟩ := chars_append_inj (List.cons.inj h).2
      obtain ⟨rfl, hu⟩ := charsBehind_append_inj hs
      exact ⟨rfl, hu⟩

end Ty

/-! ### Messages -/

theorem Text.append_cons_inj {c : Char} {s t u v : List Char} (hs : c ∉ s) (ht : c ∉ t)
    (h : s ++ c :: u = t ++ c :: v) : s = t ∧ u = v := by
  induction s generalizing t with
  | nil =>
    cases t with
    | nil => exact ⟨rfl, (List.cons.inj h).2⟩
    | cons d t => exact absurd (List.mem_cons.2 (.inl (List.cons.inj h).1)) ht
  | cons d s ih =>
    cases t with
    | nil => exact absurd (List.mem_cons.2 (.inl (List.cons.inj h).1.symm)) hs
    | cons e t =>
      rw [List.mem_cons, not_or] at hs ht
      obtain ⟨rfl, htail⟩ := List.cons.inj h
      obtain ⟨rfl, hu⟩ := ih hs.2 ht.2 htail
      exact ⟨rfl, hu⟩

theorem Word.lineFeed_not_mem_name (w : Word) : '\n' ∉ w.name.toList := by
  cases w <;> decide

namespace Fault

theorem toList_text_mismatch (w : Word) (expected actual : List Ty) :
    (mismatch w expected actual).text.toList =
      "Type error with function ".toList ++ (w.name.toList ++
        '\n' :: ("  expected a stack of ".toList ++ ((Ty.listText expected).toList ++
          ("\n  but got ".toList ++ (Ty.listText actual).toList)))) := by
  have ht : (mismatch w expected actual).text =
    "Type error with function " ++ w.name ++ "\n  expected a stack of " ++
      Ty.listText expected ++ "\n  but got " ++ Ty.listText actual := rfl
  have hl : "\n  expected a stack of ".toList = '\n' :: "  expected a stack of ".toList := by
    decide
  rw [ht, String.toList_append, String.toList_append, String.toList_append,
    String.toList_append, String.toList_append, hl, List.append_assoc, List.append_assoc,
    List.append_assoc, List.append_assoc, List.cons_append]

/-- The message about a stack that does not fit tells the word, the types that it requires and
    the types that are there. -/
theorem text_mismatch_inj {w w' : Word} {expected expected' actual actual' : List Ty} :
    (mismatch w expected actual).text = (mismatch w' expected' actual').text ↔
      w = w' ∧ expected = expected' ∧ actual = actual' := by
  constructor
  · intro h
    rw [← String.toList_inj, toList_text_mismatch, toList_text_mismatch] at h
    -- The first line ends behind the name.
    obtain ⟨hn, hrest⟩ := Text.append_cons_inj w.lineFeed_not_mem_name
      w'.lineFeed_not_mem_name (List.append_cancel_left h)
    obtain ⟨rfl, hactual⟩ := Ty.listText_append_inj (List.append_cancel_left hrest)
    have ha := List.append_cancel_left hactual
    rw [← List.append_nil (Ty.listText actual).toList,
      ← List.append_nil (Ty.listText actual').toList] at ha
    exact ⟨Word.name_inj.1 (String.toList_inj.1 hn), rfl, (Ty.listText_append_inj ha).1⟩
  · rintro ⟨rfl, rfl, rfl⟩
    rfl

end Fault

/-! ### What is shown of a type -/

theorem State.dispatch_typeOf {H : Type} [Host H] (s : State H) (v : Value)
    (below : List Value) :
    dispatch (.atom Word.typeOf.name) { s with stack := v :: below } =
      .ok .proceed { s with stack := v.ty.toValue :: below } := by
  have ha : Word.typeOf.signature.admits (v :: below) = true :=
    Signature.admits_value.2 ⟨v, below, rfl⟩
  exact (dispatch_core (Word.ofName?_name .typeOf) ha).trans
    (Word.Rewrites.typeOf.action_eq rfl)

/-- All that is shown of a type identifies it: its value and its text, what the word `type` puts
    in the place of a value, and the message about a stack that does not fit. -/
theorem Ty.reported_exactly :
    (∀ s t : Ty, ((s.toValue == t.toValue) = true ↔ s = t) ∧ (s.toValue = t.toValue ↔ s = t) ∧
      (s.text = t.text ↔ s = t)) ∧
    (∀ {H : Type} [Host H] (s s' : State H) (v v' : Value) (below below' : List Value), ∃ t t',
      State.dispatch (.atom "type") { s with stack := v :: below } =
        .ok .proceed { s with stack := t :: below } ∧
      State.dispatch (.atom "type") { s' with stack := v' :: below' } =
        .ok .proceed { s' with stack := t' :: below' } ∧
      ((t == t') = true ↔ v.ty = v'.ty)) ∧
    ∀ (w w' : Word) (expected expected' actual actual' : List Ty),
      (Fault.mismatch w expected actual).text = (Fault.mismatch w' expected' actual').text ↔
        w = w' ∧ expected = expected' ∧ actual = actual' := by
  refine ⟨fun s t => ⟨beq_toValue_iff, toValue_inj, text_inj⟩, ?_, ?_⟩
  · intro H _ s s' v v' below below'
    exact ⟨v.ty.toValue, v'.ty.toValue, State.dispatch_typeOf s v below,
      State.dispatch_typeOf s' v' below', beq_toValue_iff⟩
  · intro w w' expected expected' actual actual'
    exact Fault.text_mismatch_inj

end Catena
