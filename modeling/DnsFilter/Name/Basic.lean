import DnsFilter.Text.Blank

/-! Domain names as texts: their normal spelling, their labels, and the relation of a name to the
names above it. Names are compared character by character, so all of this is said on lists of
characters; the versions on `String` only convert. -/

namespace DnsFilter.Name

/-- What a wildcard pattern starts with. -/
def star : List Char := ['*', '.']

/-- The normal spelling: blanks around the name and dots at its end go, ASCII letters
become small. -/
def normalChars (s : List Char) : List Char :=
  (Text.dropEndWhile (· == '.') (Text.trim s)).map Char.toLower

def normalize (s : String) : String := String.ofList (normalChars s.toList)

/-- The labels of a name, the parts between its dots. The empty name has one empty label. -/
def labels : List Char → List (List Char)
  | [] => [[]]
  | c :: rest =>
      if c = '.' then [] :: labels rest
      else match labels rest with
        | [] => [[c]]
        | label :: more => (c :: label) :: more

theorem labels_ne_nil (s : List Char) : labels s ≠ [] := by
  cases s with
  | nil => simp [labels]
  | cons c rest =>
      by_cases h : c = '.'
      · simp [labels, h]
      · cases hl : labels rest <;> simp [labels, h, hl]

/-- The texts that follow a dot of the name, longest first. For a name with non-empty labels they
are the names above it. -/
def parents : List Char → List (List Char)
  | [] => []
  | c :: rest => if c = '.' then rest :: parents rest else parents rest

/-- The names above a name are what follows its dots. -/
theorem mem_parents_iff {p s : List Char} : p ∈ parents s ↔ ∃ head, s = head ++ '.' :: p := by
  induction s with
  | nil => simp [parents]
  | cons c rest ih =>
      by_cases h : c = '.'
      · subst h
        simp only [parents, ↓reduceIte, List.mem_cons, ih]
        constructor
        · rintro (rfl | ⟨head, rfl⟩)
          · exact ⟨[], rfl⟩
          · exact ⟨'.' :: head, rfl⟩
        · rintro ⟨head, hs⟩
          cases head with
          | nil => exact .inl (by simpa using hs.symm)
          | cons d head => exact .inr ⟨head, by simpa using (List.cons.inj hs).2⟩
      · simp only [parents, h, ↓reduceIte, ih]
        constructor
        · rintro ⟨head, rfl⟩
          exact ⟨c :: head, rfl⟩
        · rintro ⟨head, hs⟩
          cases head with
          | nil => exact absurd (List.cons.inj hs).1 h
          | cons d head => exact ⟨head, (List.cons.inj hs).2⟩

/-- What stands before `ending` in `s`, if `s` ends with it. -/
def before? (ending s : List Char) : Option (List Char) :=
  if ending.isSuffixOf s then some (s.take (s.length - ending.length)) else none

theorem before?_eq_some_iff {ending s head : List Char} :
    before? ending s = some head ↔ s = head ++ ending := by
  unfold before?
  split
  · rename_i h
    obtain ⟨front, rfl⟩ := List.isSuffixOf_iff_suffix.mp h
    simp
  · rename_i h
    simp only [reduceCtorEq, false_iff]
    rintro rfl
    exact h (List.isSuffixOf_iff_suffix.mpr ⟨head, rfl⟩)

/-- Whether `name` is `parent` with at least one more label in front: something that is not empty,
then a dot, then `parent`. -/
def isBelow (name parent : List Char) : Bool :=
  match before? parent name with
  | some head => decide (1 < head.length) && head.getLast? == some '.'
  | none => false

theorem isBelow_iff {name parent : List Char} :
    isBelow name parent = true ↔ ∃ head, head ≠ [] ∧ name = head ++ '.' :: parent := by
  unfold isBelow
  cases h : before? parent name with
  | none =>
      simp only [Bool.false_eq_true, false_iff, not_exists, not_and]
      rintro head - rfl
      rw [show head ++ '.' :: parent = (head ++ ['.']) ++ parent by simp,
        before?_eq_some_iff.mpr rfl] at h
      cases h
  | some front =>
      rw [before?_eq_some_iff] at h
      subst h
      simp only [Bool.and_eq_true, decide_eq_true_eq, beq_iff_eq]
      constructor
      · rintro ⟨hlength, hlast⟩
        obtain ⟨head, rfl⟩ := List.getLast?_eq_some_iff.mp hlast
        refine ⟨head, ?_, by simp⟩
        rintro rfl
        simp at hlength
      · rintro ⟨head, hne, h⟩
        have hfront : front ++ parent = (head ++ ['.']) ++ parent := by simpa using h
        obtain rfl := List.append_cancel_right hfront
        have := List.length_pos_iff.mpr hne
        exact ⟨by simp; omega, by simp⟩

def isSameOrBelow (name parent : String) : Bool :=
  name == parent || isBelow name.toList parent.toList

/-- What follows `*.`, for a text that starts with it. -/
def afterStar? : List Char → Option (List Char)
  | '*' :: '.' :: rest => some rest
  | _ => none

theorem afterStar?_eq_some_iff {s rest : List Char} :
    afterStar? s = some rest ↔ s = star ++ rest := by
  unfold afterStar? star
  split
  · simp [eq_comm]
  · rename_i h
    simp only [reduceCtorEq, List.cons_append, List.nil_append, false_iff]
    rintro rfl
    exact h rest rfl

/-- The name a wildcard pattern stands over, unless that is empty. -/
def rootOfWildcard? (pattern : String) : Option String :=
  match afterStar? pattern.toList with
  | some (c :: rest) => some (String.ofList (c :: rest))
  | _ => none

/-- The wildcard pattern over a name. -/
def wildcardOver (name : List Char) : String := String.ofList (star ++ name)

end DnsFilter.Name
