/-!
# Dictionaries

A finite map from names, kept as the list of its entries in ascending order of their
names, compared by code points. Two dictionaries with the same entries are equal, so a
listing never depends on the order in which the entries were made.

* `get?_insert`: a new entry is found under its name, and no other entry changes;
* `lookup_of_mem`: every entry of ascending entries is found.
-/

namespace Catena

/-- A finite map from names, with its entries in ascending order of the names. -/
structure Dictionary (α : Type) where
  entries : List (String × α)
  ascending : entries.Pairwise (·.1 < ·.1)

namespace Dictionary

variable {α : Type}

/-- The dictionary without entries. -/
def empty : Dictionary α := ⟨[], .nil⟩

instance : Inhabited (Dictionary α) := ⟨empty⟩

/-- The number of entries. -/
def size (d : Dictionary α) : Nat := d.entries.length

/-- Whether there are no entries. -/
def isEmpty (d : Dictionary α) : Bool := d.entries.isEmpty

/-- What a list of entries has under a name. -/
def lookup (name : String) : List (String × α) → Option α
  | [] => none
  | (n, a) :: es => if n = name then some a else lookup name es

/-- What a dictionary has under a name. -/
def get? (d : Dictionary α) (name : String) : Option α := lookup name d.entries

/-- A list of ascending entries with one entry put in its place, or in the place of
    the entry of the same name. -/
def insertEntry (name : String) (a : α) : List (String × α) → List (String × α)
  | [] => [(name, a)]
  | (n, b) :: es =>
    if n < name then (n, b) :: insertEntry name a es
    else if n = name then (name, a) :: es
    else (name, a) :: (n, b) :: es

theorem lt_of_not_lt_of_ne {m n : String} (h : ¬ m < n) (hne : m ≠ n) : n < m :=
  String.not_le.1 fun hle => hne (String.le_antisymm hle (String.not_lt.1 h))

theorem mem_insertEntry {name : String} {a : α} {es : List (String × α)} {e : String × α}
    (h : e ∈ insertEntry name a es) : e = (name, a) ∨ e ∈ es := by
  induction es with
  | nil => simpa [insertEntry] using h
  | cons f es ih =>
    unfold insertEntry at h
    grind

theorem ascending_insertEntry {name : String} {a : α} {es : List (String × α)}
    (h : es.Pairwise (·.1 < ·.1)) : (insertEntry name a es).Pairwise (·.1 < ·.1) := by
  induction es with
  | nil => simp [insertEntry]
  | cons f es ih =>
    obtain ⟨n, b⟩ := f
    rw [List.pairwise_cons] at h
    unfold insertEntry
    split
    · rename_i hn
      refine List.pairwise_cons.2 ⟨fun e he => ?_, ih h.2⟩
      rcases mem_insertEntry he with rfl | he
      · exact hn
      · exact h.1 e he
    · rename_i hn
      split
      · rename_i he
        subst he
        exact List.pairwise_cons.2 ⟨h.1, h.2⟩
      · rename_i he
        have hlt := lt_of_not_lt_of_ne hn he
        refine List.pairwise_cons.2 ⟨fun e hm => ?_, List.pairwise_cons.2 h⟩
        rcases List.mem_cons.1 hm with rfl | hm
        · exact hlt
        · exact String.lt_trans hlt (h.1 e hm)

/-- The dictionary with an entry under a name, in the place of any other it had there. -/
def insert (d : Dictionary α) (name : String) (a : α) : Dictionary α :=
  ⟨insertEntry name a d.entries, ascending_insertEntry d.ascending⟩

/-- The dictionary without its entry under a name. -/
def erase (d : Dictionary α) (name : String) : Dictionary α :=
  ⟨d.entries.filter (·.1 ≠ name), d.ascending.filter _⟩

theorem lookup_insertEntry (name m : String) (a : α) (es : List (String × α)) :
    lookup m (insertEntry name a es) = if name = m then some a else lookup m es := by
  induction es with
  | nil => rfl
  | cons f es ih =>
    obtain ⟨n, b⟩ := f
    unfold insertEntry
    split
    · rename_i hn
      have hne : n ≠ name := fun h => String.lt_irrefl _ (h ▸ hn)
      simp only [lookup, ih]
      grind
    · split <;> grind [lookup]

/-- A new entry is found under its name, and no other entry changes. -/
theorem get?_insert (d : Dictionary α) (name m : String) (a : α) :
    (d.insert name a).get? m = if name = m then some a else d.get? m :=
  lookup_insertEntry name m a d.entries

theorem lookup_filter_ne (name m : String) (es : List (String × α)) :
    lookup m (es.filter (·.1 ≠ name)) = if name = m then none else lookup m es := by
  induction es with
  | nil => simp [lookup]
  | cons f es ih =>
    obtain ⟨n, b⟩ := f
    grind [lookup]

/-- The entry under a name is gone, and no other entry changes. -/
theorem get?_erase (d : Dictionary α) (name m : String) :
    (d.erase name).get? m = if name = m then none else d.get? m :=
  lookup_filter_ne name m d.entries

/-- What holds of all entries and of a new one holds of all entries afterwards. -/
theorem forall_get?_insert {d : Dictionary α} {name : String} {a : α} {P : String → α → Prop}
    (hd : ∀ n b, d.get? n = some b → P n b) (ha : P name a) :
    ∀ n b, (d.insert name a).get? n = some b → P n b := by
  intro n b hn
  rw [get?_insert] at hn
  split at hn
  · rename_i he
    cases hn
    exact he ▸ ha
  · exact hd n b hn

theorem forall_get?_erase {d : Dictionary α} {name : String} {P : String → α → Prop}
    (hd : ∀ n b, d.get? n = some b → P n b) : ∀ n b, (d.erase name).get? n = some b → P n b := by
  intro n b hn
  rw [get?_erase] at hn
  split at hn
  · cases hn
  · exact hd n b hn

theorem mem_of_lookup {name : String} {a : α} {es : List (String × α)}
    (h : lookup name es = some a) : (name, a) ∈ es := by
  induction es with
  | nil => simp [lookup] at h
  | cons f es ih => grind [lookup]

theorem lookup_of_mem {name : String} {a : α} {es : List (String × α)}
    (hes : es.Pairwise (·.1 < ·.1)) (h : (name, a) ∈ es) : lookup name es = some a := by
  induction es with
  | nil => simp at h
  | cons f es ih =>
    obtain ⟨n, b⟩ := f
    rw [List.pairwise_cons] at hes
    rcases List.mem_cons.1 h with he | h
    · obtain ⟨rfl, rfl⟩ := Prod.mk.inj he
      simp [lookup]
    · have hne : n ≠ name := fun heq => String.lt_irrefl _ (heq ▸ hes.1 _ h)
      simp [lookup, hne, ih hes.2 h]

/-- The dictionary of a list of entries; of two with one name the later counts. -/
def ofList (es : List (String × α)) : Dictionary α :=
  es.foldl (fun d e => d.insert e.1 e.2) empty

end Dictionary

end Catena
