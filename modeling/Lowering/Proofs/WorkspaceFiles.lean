import Lowering.Command.Workspace
import Mathlib

/-!
# Workspaces are lawful

The place to which a path leads is found by going from directory to directory. Writing a file
leaves every directory where it is (`isDirectory_put`), so afterwards the path leads to the same
place (`locate_eq_of_same`), and what was written is there (`find?_put`). This is what makes a
workspace a lawful file store (`lawful`).
-/

namespace Lowering

namespace FileTree

variable {t u : FileTree} {place dir : List String} {name component : String}
  {next : List String}

theorem isDirectory_cons (entries : List (String × FileTree)) (name : String)
    (names : List String) :
    (directory entries).isDirectory (name :: names) =
      ((entries.lookup name).any (·.isDirectory names)) := by
  rw [isDirectory, find?]
  cases entries.lookup name with
  | none => rfl
  | some u => rfl

/-- What leads to a directory leads through directories. -/
theorem isDirectory_dropLast (h : t.isDirectory place) : t.isDirectory place.dropLast := by
  induction place generalizing t with
  | nil => exact h
  | cons name names ih =>
      cases t with
      | file bytes => nomatch h
      | directory entries =>
          cases names with
          | nil => rfl
          | cons name' names =>
              rw [isDirectory_cons, Option.any_eq_true] at h
              obtain ⟨u, hu, h⟩ := h
              rw [List.dropLast_cons_cons, isDirectory_cons, Option.any_eq_true]
              exact ⟨u, hu, ih h⟩

/-- Writing over something that is not a directory leaves every directory where it is. -/
theorem isDirectory_put (bytes : List UInt8) (hplace : ¬ t.isDirectory place)
    (h : t.isDirectory dir) : (t.put bytes place).isDirectory dir := by
  induction place generalizing t dir with
  | nil =>
      cases t with
      | directory entries => exact absurd rfl hplace
      | file old => cases dir <;> nomatch h
  | cons name names ih =>
      cases t with
      | file old => exact h
      | directory entries =>
          cases dir with
          | nil => rfl
          | cons next dir =>
              rw [isDirectory_cons, Option.any_eq_true] at h
              obtain ⟨u, hu, h⟩ := h
              rw [put, isDirectory_cons, Option.any_eq_true]
              by_cases hnext : next = name
              · subst hnext
                refine ⟨_, Entries.lookup_put_self .., ?_⟩
                rw [isDirectory_cons, hu] at hplace
                rw [hu]
                exact ih hplace h
              · exact ⟨u, by rw [Entries.lookup_put_of_ne hnext, hu], h⟩

/-- What is written to a name in a directory is there. -/
theorem find?_put (bytes : List UInt8) (name : String) (h : t.isDirectory dir) :
    (t.put bytes (dir ++ [name])).find? (dir ++ [name]) = some (.file bytes) := by
  induction dir generalizing t with
  | nil =>
      cases t with
      | file old => nomatch h
      | directory entries => rw [List.nil_append, put, find?, Entries.lookup_put_self]; rfl
  | cons next dir ih =>
      cases t with
      | file old => nomatch h
      | directory entries =>
          rw [isDirectory_cons, Option.any_eq_true] at h
          obtain ⟨u, hu, h⟩ := h
          rw [List.cons_append, put, find?, Entries.lookup_put_self, hu]
          exact ih h

/-- A directory, or a name in a directory. -/
def Reached (t : FileTree) (place : List String) : Prop :=
  t.isDirectory place ∨ ∃ dir name, place = dir ++ [name] ∧ t.isDirectory dir

theorem reached_of_follow (hplace : t.isDirectory place) (h : follow place component = .ok next) :
    t.Reached next := by
  rw [follow] at h
  split_ifs at h <;> cases h
  · exact .inl hplace
  · exact .inl (isDirectory_dropLast hplace)
  · exact .inr ⟨place, component, rfl, hplace⟩

theorem enter_of_isDirectory (h : t.isDirectory place) (component : String) :
    t.enter place component = follow place component := by
  rw [isDirectory] at h
  rw [enter]
  split at h
  · rename_i entries hfind
    rw [hfind]
  · nomatch h

theorem isDirectory_of_enter (h : t.enter place component = .ok next) : t.isDirectory place := by
  rw [enter] at h
  rw [isDirectory]
  split at h
  · nomatch h
  · nomatch h
  · rename_i entries hfind
    rw [hfind]

/-- A path that was followed leads to the same place in any tree with the same directories. -/
theorem foldlM_enter_eq (hsame : ∀ dir, t.isDirectory dir → u.isDirectory dir)
    {components : List String} (h : components.foldlM t.enter place = .ok next) :
    components.foldlM u.enter place = .ok next := by
  induction components generalizing place with
  | nil => exact h
  | cons component components ih =>
      rw [List.foldlM_cons] at h ⊢
      cases henter : t.enter place component with
      | error fault => rw [henter] at h; nomatch h
      | ok middle =>
          have hplace := isDirectory_of_enter henter
          rw [henter] at h
          rw [enter_of_isDirectory (hsame place hplace), ← enter_of_isDirectory hplace, henter]
          exact ih h

theorem reached_of_foldlM {components : List String} (hcomponents : components ≠ [])
    (h : components.foldlM t.enter place = .ok next) : t.Reached next := by
  induction components generalizing place with
  | nil => exact absurd rfl hcomponents
  | cons component components ih =>
      rw [List.foldlM_cons] at h
      cases henter : t.enter place component with
      | error fault => rw [henter] at h; nomatch h
      | ok middle =>
          have hdir := isDirectory_of_enter henter
          rw [henter] at h
          cases components with
          | nil =>
              cases h
              exact reached_of_follow hdir (enter_of_isDirectory hdir component ▸ henter)
          | cons component' components => exact ih (List.cons_ne_nil _ _) h

theorem components_ne_nil (start path : List Char) : components start path ≠ [] := by
  induction path generalizing start with
  | nil => exact List.cons_ne_nil _ _
  | cons c path ih =>
      rw [components]
      split_ifs
      · exact List.cons_ne_nil _ _
      · exact ih (c :: start)

theorem locate_eq_of_same (hsame : ∀ dir, t.isDirectory dir → u.isDirectory dir)
    {start : List String} {path : String} (h : t.locate start path = .ok place) :
    u.locate start path = .ok place := by
  rw [locate] at h ⊢
  split_ifs at h ⊢
  · exact foldlM_enter_eq hsame h
  · exact foldlM_enter_eq hsame h

theorem reached_of_locate {start : List String} {path : String}
    (h : t.locate start path = .ok place) : t.Reached place := by
  rw [locate] at h
  split_ifs at h <;>
    exact reached_of_foldlM (components_ne_nil _ _) h

end FileTree

namespace Workspace

variable {w w' : Workspace} {path : String} {change : Option (List UInt8) → List UInt8}
  {bytes : List UInt8}

/-- A file is changed at the place to which the path leads, which is no directory. -/
theorem eq_put_of_alter (h : w.alter path change = .ok w') :
    ∃ place old, w.tree.locate w.start path = .ok place ∧ ¬ w.tree.isDirectory place ∧
      w' = { w with tree := w.tree.put (change old) place } := by
  rw [alter] at h
  split at h
  · nomatch h
  · rename_i place hlocate
    split at h <;> cases h
    · rename_i hfind
      exact ⟨place, none, hlocate, by simp [FileTree.isDirectory, hfind], rfl⟩
    · rename_i old hfind
      exact ⟨place, some old, hlocate, by simp [FileTree.isDirectory, hfind], rfl⟩

/-- What is written to a file is read from it. -/
theorem readFile_writeFile (h : w.writeFile path bytes = .ok w') :
    w'.readFile path = .ok bytes := by
  obtain ⟨place, old, hlocate, hplace, rfl⟩ := eq_put_of_alter h
  have hsame := FileTree.locate_eq_of_same
    (fun dir hdir => FileTree.isDirectory_put bytes hplace hdir) hlocate
  rcases FileTree.reached_of_locate hlocate with hdir | ⟨dir, name, rfl, hdir⟩
  · exact absurd hdir hplace
  · simp only [readFile, hsame, FileTree.find?_put bytes name hdir]

theorem output_alter (h : w.alter path change = .ok w') : w'.output = w.output := by
  obtain ⟨place, old, -, -, rfl⟩ := eq_put_of_alter h
  rfl

theorem output_commit {change : Workspace → Except FileError Workspace}
    (hchange : ∀ {w w'}, change w = .ok w' → w'.output = w.output) (w : Workspace) :
    (commit change w).2.output = w.output := by
  rw [commit]
  split
  · rename_i w' h
    exact hchange h
  · rfl

theorem lawful : FileStore.Lawful readFile output where
  read_eq _ _ := rfl
  contents_write {path bytes w w'} h := by
    have hwrite : w.writeFile path bytes = .ok w' := by
      simp only [FileStore.write, commit] at h
      split at h <;> cases h
      assumption
    exact readFile_writeFile hwrite
  printed_write _ _ w := output_commit output_alter w
  printed_lock _ w := output_commit output_alter w
  contents_unlock _ _ := rfl
  printed_unlock _ _ := rfl
  printed_print h := by
    cases h
    rfl
  contents_print _ _ := rfl

end Workspace
end Lowering
