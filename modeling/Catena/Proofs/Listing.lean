import Catena.Host.Sandbox
import Catena.Session
import Mathlib.Data.List.Dedup

/-!
# Listings of definitions

What an environment is does not depend on how it came about. It is made by one definition after
another, in any order and with any repetitions; what it has under a name is the last definition
of that name, and nothing else can be told about it (`Dictionary.ext_get?`). So it has one
listing. Whatever order its entries are met in, they are listed once they are sorted by name
(`Dictionary.mergeSort_eq_entries`), since no two have one name.

* `Dictionary.get?_ofList`: the last definition of a name counts;
* `Session.definitions_canonical`: two histories with the same last definitions cannot be told
  apart, in an environment or in a session.
-/

namespace Catena

namespace Dictionary

variable {α : Type} {d d' : Dictionary α} {es : List (String × α)} {name : String} {a : α}

/-! ### Entries -/

theorem mem_entries_iff : (name, a) ∈ d.entries ↔ d.get? name = some a :=
  ⟨lookup_of_mem d.ascending, mem_of_lookup⟩

theorem nodup_names (d : Dictionary α) : (d.entries.map (·.1)).Nodup :=
  (List.pairwise_map.2 d.ascending).imp fun h => String.ne_of_lt h

/-- The order of entries by their names. -/
def byName (e f : String × α) : Bool := decide (e.1 ≤ f.1)

theorem sorted_entries (d : Dictionary α) : d.entries.Pairwise fun e f => byName e f = true :=
  d.ascending.imp fun h => decide_eq_true (String.not_lt.1 (String.lt_asymm h))

theorem sorted_mergeSort (es : List (String × α)) :
    (es.mergeSort byName).Pairwise fun e f => byName e f = true := by
  refine List.pairwise_mergeSort (fun e f g he hf => ?_) (fun e f => ?_) es
  · exact decide_eq_true (String.le_trans (of_decide_eq_true he) (of_decide_eq_true hf))
  · rw [Bool.or_eq_true]
    exact (String.le_total e.1 f.1).imp decide_eq_true decide_eq_true

/-- All lists of the entries in the order of their names are equal. -/
theorem eq_entries_of_perm (hp : es.Perm d.entries)
    (hs : es.Pairwise fun e f => byName e f = true) : es = d.entries := by
  refine List.Perm.eq_of_pairwise ?_ hs d.sorted_entries hp
  rintro ⟨m, b⟩ ⟨n, c⟩ hm hn hle hge
  obtain rfl : m = n := String.le_antisymm (of_decide_eq_true hle) (of_decide_eq_true hge)
  have hb := mem_entries_iff.1 (hp.mem_iff.1 hm)
  have hc := mem_entries_iff.1 hn
  rw [hb] at hc
  cases hc
  rfl

/-- A list that has what a dictionary has under each name, and no name twice, is a list of its
    entries. -/
theorem perm_entries (hn : (es.map (·.1)).Nodup)
    (hm : ∀ n b, (n, b) ∈ es ↔ d.get? n = some b) : es.Perm d.entries := by
  rw [List.perm_ext_iff_of_nodup (hn.of_map _) (d.nodup_names.of_map _)]
  rintro ⟨n, b⟩
  rw [hm, mem_entries_iff]

/-- The entries in any order are listed once they are sorted by name. -/
theorem mergeSort_eq_entries (hn : (es.map (·.1)).Nodup)
    (hm : ∀ n b, (n, b) ∈ es ↔ d.get? n = some b) : es.mergeSort byName = d.entries :=
  eq_entries_of_perm ((es.mergeSort_perm _).trans (perm_entries hn hm)) (sorted_mergeSort es)

/-- A dictionary is what it has under each name. -/
theorem ext_get? (h : ∀ n, d.get? n = d'.get? n) : d = d' := by
  have he : d.entries = d'.entries := by
    refine eq_entries_of_perm (perm_entries d.nodup_names fun n b => ?_) d.sorted_entries
    rw [mem_entries_iff, h]
  cases d
  cases d'
  cases he
  rfl

/-! ### Histories -/

theorem get?_foldl_insert (d : Dictionary α) (es : List (String × α)) (name : String) :
    (es.foldl (fun d e => d.insert e.1 e.2) d).get? name =
      (es.reverse.lookup name).or (d.get? name) := by
  induction es generalizing d with
  | nil => rfl
  | cons e es ih =>
    obtain ⟨n, b⟩ := e
    have he : (d.insert n b).get? name = ([(n, b)].lookup name).or (d.get? name) := by
      rw [get?_insert, List.lookup_cons]
      by_cases h : n = name
      · simp [h]
      · simp [h, beq_false_of_ne (Ne.symm h)]
    rw [List.foldl_cons, ih, he, List.reverse_cons, List.lookup_append, Option.or_assoc]

/-- What a dictionary has under a name is what was last put there. -/
theorem get?_ofList (es : List (String × α)) (name : String) :
    (ofList es).get? name = es.reverse.lookup name := by
  rw [ofList, get?_foldl_insert]
  exact Option.or_none

theorem mem_names_ofList : name ∈ (ofList es).entries.map (·.1) ↔ name ∈ es.map (·.1) := by
  have hl : name ∈ (ofList es).entries.map (·.1) ↔ ∃ a, (ofList es).get? name = some a := by
    simp only [List.mem_map, Prod.exists, exists_and_right, exists_eq_right, mem_entries_iff]
  rw [hl, get?_ofList, ← Option.isSome_iff_exists, List.lookup_isSome_iff]
  simp only [List.mem_reverse, List.mem_map, beq_iff_eq, eq_comm (a := name)]

/-- There are as many entries as different names. -/
theorem size_ofList (es : List (String × α)) :
    (ofList es).size = (es.map (·.1)).dedup.length := by
  have hp : ((ofList es).entries.map (·.1)).Perm (es.map (·.1)).dedup := by
    rw [List.perm_ext_iff_of_nodup (nodup_names _) (List.nodup_dedup _)]
    intro name
    rw [mem_names_ofList, List.mem_dedup]
  rw [← hp.length_eq, List.length_map, size]

/-- The code points of a text. -/
def codePoints (s : String) : List Nat := s.toList.map Char.toNat

theorem codePoints_lt {m n : String} (h : m < n) : codePoints m < codePoints n := by
  have hl : m.toList < n.toList := h
  rw [codePoints, codePoints]
  generalize m.toList = s at hl ⊢
  generalize n.toList = t at hl ⊢
  induction hl with
  | nil => exact .nil
  | cons _ ih => exact .cons ih
  | rel hc => exact .rel hc

/-- A listing of what a history of definitions has come to: each name that was defined stands
    there once, with its last value, and the names ascend by their code points. -/
structure IsListing (defs es : List (String × α)) : Prop where
  ascending : es.Pairwise fun e f => codePoints e.1 < codePoints f.1
  mem_iff : ∀ n b, (n, b) ∈ es ↔ defs.reverse.lookup n = some b
  count_eq : ∀ n, (es.map (·.1)).count n = if n ∈ defs.map (·.1) then 1 else 0

theorem isListing_ofList (defs : List (String × α)) : IsListing defs (ofList defs).entries where
  ascending := (ofList defs).ascending.imp codePoints_lt
  mem_iff n b := by rw [mem_entries_iff, get?_ofList]
  count_eq n := by simp only [(nodup_names _).count, mem_names_ofList]

example : (ofList [("zeta", 0), ("alpha", 1), ("mid", 2), ("zeta", 3)]).entries =
    [("alpha", 1), ("mid", 2), ("zeta", 3)] := by
  decide

end Dictionary

/-! ### Sessions -/

namespace Session

variable {H : Type} [Host H]

theorem answer_definitions (fuel : Nat) (s : State H) :
    answer fuel "*f" s = some (some (definitionsText s.env ++ stackText s.toMachine), s) := by
  have h : Request.ofLine "*f" = .definitions := by decide
  rw [answer, h]

/-- Two histories of definitions with the same last definition of each name come to one
    environment: it has these definitions and as many entries as names, and they are listed in
    the order of the names, whatever order they are met in. What a session shows of them is the
    same. -/
theorem definitions_canonical (defs defs' : List (String × Quote))
    (h : ∀ name, defs.reverse.lookup name = defs'.reverse.lookup name) :
    let env : Environment := .ofList defs
    let env' : Environment := .ofList defs'
    (∀ name, env.get? name = defs.reverse.lookup name ∧ env'.get? name = env.get? name) ∧
      env.size = (defs.map (·.1)).dedup.length ∧ env'.size = env.size ∧
      env.entries.length = env.size ∧ Dictionary.IsListing defs env.entries ∧
      env'.entries = env.entries ∧
      (∀ es : List (String × Quote), (es.map (·.1)).Nodup →
        (∀ name q, (name, q) ∈ es ↔ env.get? name = some q) →
        es.mergeSort Dictionary.byName = env.entries) ∧
      ∀ (fuel : Nat) (s s' : State H), ∃ shown,
        answer fuel "*f" { s with env := env } = some (some shown, { s with env := env }) ∧
        answer fuel "*f" { s' with stack := s.stack, env := env' } =
          some (some shown, { s' with stack := s.stack, env := env' }) := by
  intro env env'
  have he : env' = env := Dictionary.ext_get? fun name => by
    rw [Dictionary.get?_ofList, Dictionary.get?_ofList, h]
  rw [he]
  refine ⟨fun name => ⟨Dictionary.get?_ofList defs name, rfl⟩, Dictionary.size_ofList defs, rfl,
    rfl, Dictionary.isListing_ofList defs, rfl, fun es hn hm => ?_, fun fuel s s' => ?_⟩
  · exact Dictionary.mergeSort_eq_entries hn hm
  · exact ⟨_, answer_definitions fuel _, answer_definitions fuel _⟩

/-- One name is defined twice, and the names come in another order. -/
theorem definitions_canonical_redefined :
    ∃ (q r : Quote) (defs defs' : List (String × Quote)),
      q = ⟨[], [.sym "q"]⟩ ∧ r = ⟨[.atom "x"], [.atom "x"]⟩ ∧
      defs = [("b", q), ("a", r), ("b", r)] ∧ defs' = [("b", r), ("a", r)] ∧
      (∀ name, defs.reverse.lookup name = defs'.reverse.lookup name) ∧
      (Dictionary.ofList defs).get? "b" = some r ∧ (Dictionary.ofList defs).size = 2 ∧
      (Dictionary.ofList defs').entries = (Dictionary.ofList defs).entries ∧
      defs'.mergeSort Dictionary.byName = (Dictionary.ofList defs).entries := by
  let q : Quote := ⟨[], [.sym "q"]⟩
  let r : Quote := ⟨[.atom "x"], [.atom "x"]⟩
  have h (name : String) : [("b", q), ("a", r), ("b", r)].reverse.lookup name =
      [("b", r), ("a", r)].reverse.lookup name := by
    by_cases hb : name = "b"
    · subst hb
      rfl
    · simp [List.lookup_cons, beq_false_of_ne hb]
  obtain ⟨hget, hsize, -, -, -, hentries, hsorted, -⟩ :=
    definitions_canonical (H := Sandbox) _ _ h
  refine ⟨q, r, _, _, rfl, rfl, rfl, rfl, h, (hget "b").1, hsize, hentries,
    hsorted _ (by decide) fun name v => ?_⟩
  rw [(hget name).1, h name]
  by_cases ha : name = "a"
  · subst ha
    simp [eq_comm]
  · by_cases hb : name = "b"
    · subst hb
      simp [List.lookup_cons, eq_comm]
    · simp [List.lookup_cons, ha, hb, beq_false_of_ne ha, beq_false_of_ne hb]

end Session

end Catena
