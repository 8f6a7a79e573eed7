import DnsFilter.Files
import Mathlib

/-! What is written to a file is read from it. -/

namespace DnsFilter

/-- The path of a file in the folder at hand. -/
theorem Path.parse_letter : Path.parse "c" = .ok ⟨false, [.name "c"], false⟩ := by cbv

namespace FileTree

variable {t : FileTree} {place new : List String} {content : FileContent}

/-- A tree with a file put where no folder is. -/
def put (t : FileTree) (new : List String) (content : FileContent) : FileTree :=
  ⟨(new, content) :: t.files.filter fun f => f.1 != new⟩

theorem at?_put_self : (t.put new content).at? new = some content := by
  simp [at?, put]

/-- A new file changes nothing about the folders there are. -/
theorem at?_put_folder (hnew : t.at? new ≠ some .folder) (h : t.at? place = some .folder) :
    (t.put new content).at? place = some .folder := by
  have hne : new ≠ place := by
    rintro rfl
    exact hnew h
  have hfind : (t.put new content).files.find? (fun f => f.1 == place) =
      t.files.find? (fun f => f.1 == place) := by
    rw [put, List.find?_cons_of_neg (by simpa using hne), List.find?_filter]
    refine congrArg (fun p => t.files.find? p) (funext fun f => ?_)
    by_cases hf : f.1 = place
    · simp [hf, hne.symm]
    · simp [hf]
  rw [at?, hfind]
  rw [at?] at h
  cases hplace : t.files.find? (fun f => f.1 == place) with
  | some f => simpa [hplace] using h
  | none =>
      have hwithin : place ≠ [] → ∃ f ∈ t.files, place.isPrefixOf f.1 := by simpa [hplace] using h
      have hstill : place ≠ [] → ∃ f ∈ (t.put new content).files, place.isPrefixOf f.1 := by
        intro htop
        obtain ⟨f, hf, hprefix⟩ := hwithin htop
        by_cases heq : f.1 = new
        · exact ⟨(new, content), by simp [put], heq ▸ hprefix⟩
        · exact ⟨f, by simp [put, hf, heq], hprefix⟩
      simpa using hstill

theorem walk_put (hnew : t.at? new ≠ some .folder) {steps : List PathStep} {place q : List String}
    (h : t.walk place steps = .ok q) : (t.put new content).walk place steps = .ok q := by
  induction steps generalizing place with
  | nil => exact h
  | cons step steps ih =>
      cases step with
      | here => exact ih h
      | up => exact ih h
      | name s =>
          rw [walk, look] at h ⊢
          by_cases hlong : Path.maxNameBytes < s.utf8ByteSize
          · rw [if_pos hlong] at h
            cases h
          · rw [if_neg hlong] at h ⊢
            cases hat : t.at? (place ++ [s]) with
            | none => simp [hat, bind, Except.bind] at h
            | some found =>
                cases found with
                | text | bytes => simp [hat, bind, Except.bind] at h
                | folder =>
                    have hput : (t.put new content).at? (place ++ [s]) = some .folder :=
                      at?_put_folder hnew hat
                    simp only [hat, hput, bind, Except.bind] at h ⊢
                    exact ih h

theorem follow_put (hnew : t.at? new ≠ some .folder) {base : List String} {p : Path}
    {r : List String × Option String} (h : t.follow base p = .ok r) :
    (t.put new content).follow base p = .ok r := by
  have hwalk : ∀ steps name?,
      (do return (← t.walk (if p.fromTop then [] else base) steps, name?) : Except FileFault _) =
        .ok r →
      (do return (← (t.put new content).walk (if p.fromTop then [] else base) steps, name?) :
        Except FileFault _) = .ok r := by
    intro steps name? h
    cases hq : t.walk (if p.fromTop then [] else base) steps with
    | error fault => simp [hq, bind, Except.bind] at h
    | ok q =>
        rw [walk_put hnew hq]
        rwa [hq] at h
  rw [follow] at h ⊢
  generalize p.steps.getLast? = last at h ⊢
  match last with
  | none => exact hwalk _ _ h
  | some .here => exact hwalk _ _ h
  | some .up => exact hwalk _ _ h
  | some (.name s) => exact hwalk _ _ h

/-- A file that could be written is read as it was written. -/
theorem read_write {base : List String} {path text : String} {t' : FileTree}
    (h : t.write base path text = .ok t') : t'.read base path = .ok text := by
  rw [write] at h
  cases hparse : Path.parse path with
  | error fault => simp [hparse, bind, Except.bind] at h
  | ok p =>
      cases hfollow : t.follow base p with
      | error fault => simp [hparse, hfollow, bind, Except.bind] at h
      | ok r =>
          obtain ⟨place, name?⟩ := r
          cases name? with
          | none => simp [hparse, hfollow, bind, Except.bind] at h
          | some name =>
              simp only [hparse, hfollow, bind, Except.bind, look] at h
              split at h
              next => cases h
              next hslash =>
                by_cases hlong : Path.maxNameBytes < name.utf8ByteSize
                · simp [hlong] at h
                · have hnew : t.at? (place ++ [name]) ≠ some .folder := by
                    intro hfolder
                    simp [hlong, hfolder] at h
                  obtain rfl : t.put (place ++ [name]) (.text text) = t' := by
                    simp only [if_neg hlong] at h
                    exact Except.ok.inj h
                  rw [read, hparse]
                  simp [follow_put hnew hfollow, look, hlong, at?_put_self, hslash, bind, Except.bind]

end FileTree

end DnsFilter
