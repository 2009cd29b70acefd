import Catena.Workspace
import Catena.Proofs.Utf8
import Mathlib.Tactic.SplitIfs

/-!
# Files under their paths

A path leads to a file only under a name that a file may have (`Files.isFileName_of_locate`),
and such a name, taken as a path, leads to its own file (`Files.locate_eq_of_isFileName`).
What is written at a path is read back there and changes no other file (`Files.read_write`,
`Files.read_write_of_ne`), as bytes and as text. A directory whose files have names that
files may have keeps this when files are written and removed (`Files.WellNamed`).
-/

namespace Catena.Files

/-! ### Names -/

/-- What a file may be called. -/
structure IsFileName (name : String) : Prop where
  ne_empty : name ≠ ""
  ne_current : name ≠ "."
  ne_parent : name ≠ ".."
  slash_not_mem : '/' ∉ name.toList
  nul_not_mem : '\x00' ∉ name.toList
  utf8ByteSize_le : name.utf8ByteSize ≤ longestName

/-- The parts of a list around an element are free of it and have no elements of their
    own. -/
theorem not_mem_of_mem_splitOn {α : Type} [BEq α] [LawfulBEq α] {a : α} {xs l : List α}
    (h : l ∈ xs.splitOn a) : a ∉ l ∧ l ⊆ xs := by
  induction xs generalizing l with
  | nil =>
    rw [List.splitOn_nil, List.mem_singleton] at h
    subst h
    exact ⟨List.not_mem_nil, List.nil_subset _⟩
  | cons x xs ih =>
    rw [List.splitOn_cons_eq_if_modifyHead] at h
    split at h
    case isTrue =>
      rcases List.mem_cons.1 h with rfl | h
      · exact ⟨List.not_mem_nil, List.nil_subset _⟩
      · exact ⟨(ih h).1, List.subset_cons_of_subset _ (ih h).2⟩
    case isFalse hx =>
      cases hs : xs.splitOn a with
      | nil => simp [hs] at h
      | cons m ms =>
        rw [hs, List.modifyHead_cons] at h
        rcases List.mem_cons.1 h with rfl | h
        · obtain ⟨hm, hsub⟩ := ih (l := m) (by simp [hs])
          refine ⟨?_, List.cons_subset_cons _ hsub⟩
          rw [List.mem_cons, not_or]
          exact ⟨fun hax => hx (beq_iff_eq.2 hax.symm), hm⟩
        · obtain ⟨hm, hsub⟩ := ih (l := l) (by simp [hs, h])
          exact ⟨hm, List.subset_cons_of_subset _ hsub⟩

theorem toList_of_mem_components {path name : String} (h : name ∈ components path) :
    '/' ∉ name.toList ∧ name.toList ⊆ path.toList := by
  obtain ⟨l, hl, rfl⟩ := List.mem_map.1 h
  rw [String.toList_ofList]
  exact not_mem_of_mem_splitOn hl

theorem components_of_slash_not_mem {name : String} (h : '/' ∉ name.toList) :
    components name = [name] := by
  rw [components, List.splitOn_eq_singleton h, List.map_singleton, String.ofList_toList]

/-- A path leads to a file if it has one part that leads on, which is its last one, is not
    too long, and does not lead out of the directory. -/
theorem locate_eq_file_iff {files : Files} {path name : String} :
    files.locate path = .ok (.file name) ↔
      '\x00' ∉ path.toList ∧ path.toList.head? ≠ some '/' ∧ steps path = [name] ∧
        (components path).getLast? = some name ∧ name ≠ ".." ∧
        name.utf8ByteSize ≤ longestName := by
  unfold locate
  constructor
  · intro h
    iterate 6 (split at h; · cases h)
    rename_i hnul _ _ hlong hup hroot
    split at h
    case h_1 => cases h
    case h_2 n hsteps =>
      split at h
      case isFalse => cases h
      case isTrue hlast =>
        cases h
        rw [hsteps] at hlong hup
        exact ⟨by simpa using hnul, hroot, hsteps, hlast, by simpa using hup, by simpa using hlong⟩
    case h_3 => cases h
  · rintro ⟨hnul, hroot, hsteps, hlast, hup, hlong⟩
    have hempty : path ≠ "" := by
      rintro rfl
      cases hsteps
    have hnull : path ≠ "/dev/null" := by
      rintro rfl
      exact hroot rfl
    simp [hsteps, hnul, hroot, hlast, hup, hlong, hempty, hnull]

/-- Where a path leads does not depend on the files. -/
theorem locate_congr {files files' : Files} {path : String} {place : Place}
    (h : files.locate path = .ok place) : files'.locate path = .ok place := by
  unfold locate at h ⊢
  split_ifs at h ⊢
  all_goals try exact h
  generalize steps path = parts at h
  match parts with
  | [] => exact h
  | [name] =>
    dsimp only at h ⊢
    split_ifs at h ⊢
    exact h
  | _ :: _ :: _ => cases h

/-- A path leads to files only under names that files may have. -/
theorem isFileName_of_locate {files : Files} {path name : String}
    (h : files.locate path = .ok (.file name)) : IsFileName name := by
  obtain ⟨hnul, -, hsteps, -, hup, hlong⟩ := locate_eq_file_iff.1 h
  have hmem : name ∈ steps path := hsteps ▸ List.mem_singleton_self name
  obtain ⟨hc, hne⟩ := List.mem_filter.1 hmem
  obtain ⟨hslash, hsub⟩ := toList_of_mem_components hc
  obtain ⟨hempty, hcurrent⟩ := of_decide_eq_true hne
  exact ⟨hempty, hcurrent, hup, hslash, fun hmem => hnul (hsub hmem), hlong⟩

/-- The name of a file, as a path, leads to the file. -/
theorem locate_of_isFileName (files : Files) {name : String} (h : IsFileName name) :
    files.locate name = .ok (.file name) := by
  have hc := components_of_slash_not_mem h.slash_not_mem
  have hroot : name.toList.head? ≠ some '/' := fun hh =>
    h.slash_not_mem (List.mem_of_mem_head? hh)
  refine locate_eq_file_iff.2 ⟨h.nul_not_mem, hroot, ?_, ?_, h.ne_parent, h.utf8ByteSize_le⟩
  · simp [steps, hc, h.ne_empty, h.ne_current]
  · simp [hc]

theorem locate_eq_nowhere_iff {files : Files} {path : String} :
    files.locate path = .ok .nowhere ↔ path = "/dev/null" := by
  constructor
  · intro h
    unfold locate at h
    split_ifs at h with _ _ hnull
    · exact hnull
    · cases h
    · split at h
      · cases h
      · split_ifs at h
        cases h
      · cases h
  · rintro rfl
    rfl

/-! ### Reading and writing -/

theorem read_eq_of_file {files : Files} {path name : String}
    (h : files.locate path = .ok (.file name)) :
    files.read path = (files.get? name).elim (.error .noSuchFile) .ok := by
  unfold read
  rw [h]
  simp only [bind, Except.bind]
  cases files.get? name <;> rfl

/-- What can be written to: a file, or the file that stays empty. -/
theorem write_eq_ok_iff {files files' : Files} {path : String} {bs : Bytes} :
    files.write path bs = .ok files' ↔
      path = "/dev/null" ∧ files' = files ∨
        ∃ name, files.locate path = .ok (.file name) ∧ files' = files.insert name bs := by
  have hnull : path = "/dev/null" ↔ files.locate path = .ok .nowhere :=
    locate_eq_nowhere_iff.symm
  rw [hnull]
  unfold write
  cases files.locate path with
  | error e => exact ⟨nofun, nofun⟩
  | ok place =>
    cases place with
    | file name => exact ⟨fun h => .inr ⟨name, rfl, by cases h; rfl⟩, by
        rintro (⟨h, -⟩ | ⟨_, h, rfl⟩) <;> cases h
        rfl⟩
    | directory => exact ⟨nofun, nofun⟩
    | nowhere => exact ⟨fun h => .inl ⟨rfl, by cases h; rfl⟩, by
        rintro (⟨-, rfl⟩ | ⟨_, h, -⟩)
        · rfl
        · cases h⟩

/-- What has been written to a path is what is read there. -/
theorem read_write {files files' : Files} {path : String} {bs : Bytes}
    (h : files.write path bs = .ok files') (hp : path ≠ "/dev/null") :
    files'.read path = .ok bs := by
  obtain ⟨hnull, -⟩ | ⟨name, hl, rfl⟩ := write_eq_ok_iff.1 h
  · exact absurd hnull hp
  · rw [read_eq_of_file (locate_congr hl), Dictionary.get?_insert, if_pos rfl]
    rfl

/-- Writing to a path does not change what is read at a path that leads elsewhere. -/
theorem read_write_of_ne {files files' : Files} {path other : String} {bs : Bytes} {place : Place}
    (h : files.write path bs = .ok files') (ho : files.locate other = .ok place)
    (hne : files.locate path ≠ .ok place) : files'.read other = files.read other := by
  obtain ⟨-, rfl⟩ | ⟨name, hl, rfl⟩ := write_eq_ok_iff.1 h
  · rfl
  cases place with
  | file name' =>
    have : name ≠ name' := fun he => hne (he ▸ hl)
    rw [read_eq_of_file ho, read_eq_of_file (locate_congr ho), Dictionary.get?_insert,
      if_neg this]
  | directory =>
    unfold read
    rw [ho, locate_congr ho]
    rfl
  | nowhere =>
    unfold read
    rw [ho, locate_congr ho]
    rfl

/-- A text that has been written to a path is the text that is read there. -/
theorem readText_write {files files' : Files} {path text : String}
    (h : files.write path (Utf8.encode text) = .ok files') (hp : path ≠ "/dev/null") :
    files'.readText path = .ok text := by
  unfold readText
  rw [read_write h hp]
  simp only [bind, Except.bind, Utf8.decode?_encode]
  rfl

/-! ### Well-named files -/

/-- Whether all files have names that files may have. -/
def WellNamed (files : Files) : Prop :=
  ∀ name bs, files.get? name = some bs → IsFileName name

theorem WellNamed.insert {files : Files} {name : String} (h : files.WellNamed)
    (hn : IsFileName name) (bs : Bytes) : WellNamed (Dictionary.insert files name bs) :=
  Dictionary.forall_get?_insert h hn

theorem WellNamed.erase {files : Files} (h : files.WellNamed) (name : String) :
    WellNamed (Dictionary.erase files name) :=
  Dictionary.forall_get?_erase h

theorem WellNamed.write {files files' : Files} {path : String} {bs : Bytes}
    (h : files.WellNamed) (hw : files.write path bs = .ok files') : files'.WellNamed := by
  obtain ⟨-, rfl⟩ | ⟨name, hl, rfl⟩ := write_eq_ok_iff.1 hw
  · exact h
  · exact h.insert (isFileName_of_locate hl) bs

/-- Every file of a directory can be read, at its name. -/
theorem WellNamed.read {files : Files} {name : String} {bs : Bytes} (h : files.WellNamed)
    (hn : files.get? name = some bs) : files.read name = .ok bs := by
  rw [read_eq_of_file (locate_of_isFileName files (h name bs hn)), hn]
  rfl

end Catena.Files
