import DnsFilter.Proofs.Name.Normal

/-! The grammar of names and patterns, by how they are put together: words of small letters, digits,
hyphens and underscores with single dots between them, and for a pattern perhaps a star in front. The
checks take a text apart instead: they cut it at its dots, count bytes and look at one part after the
other. Main statements: what has no fault is just what the grammar makes. -/

namespace DnsFilter.Name

/-- What labels are made of. -/
def LabelChar (c : Char) : Prop :=
  ('a' ≤ c ∧ c ≤ 'z') ∨ ('0' ≤ c ∧ c ≤ '9') ∨ c = '-' ∨ c = '_'

structure Word (label : List Char) : Prop where
  length_pos : 1 ≤ label.length
  length_le : label.length ≤ 63
  chars : ∀ c ∈ label, LabelChar c

/-- Words with single dots between them. -/
inductive Dotted : List Char → Prop
  | word {label : List Char} : Word label → Dotted label
  | dot {label rest : List Char} : Word label → Dotted rest → Dotted (label ++ '.' :: rest)

/-- A name that may be asked for. -/
structure IsName (name : String) : Prop where
  dotted : Dotted name.toList
  size_le : name.utf8ByteSize ≤ 253

/-- A pattern is such a name, or has one behind a star. -/
structure IsPattern (pattern : String) : Prop where
  dotted : Dotted pattern.toList ∨ ∃ rest, pattern.toList = '*' :: '.' :: rest ∧ Dotted rest
  size_le : pattern.utf8ByteSize ≤ 253

/-! ### Labels -/

theorem isLabelChar_iff {c : Char} : isLabelChar c = true ↔ LabelChar c := by
  unfold isLabelChar LabelChar Char.isLower Char.isDigit
  simp only [Bool.or_eq_true, Bool.and_eq_true, decide_eq_true_eq, beq_iff_eq, or_assoc]
  rfl

theorem dot_notMem_of_chars {label : List Char} (h : ∀ c ∈ label, LabelChar c) : '.' ∉ label := by
  intro hdot
  have := isLabelChar_iff.mpr (h '.' hdot)
  revert this
  decide

/-- The characters of labels take one byte each. -/
theorem byteLength_eq_length {label : List Char} (h : ∀ c ∈ label, isLabelChar c = true) :
    byteLength label = label.length := by
  induction label with
  | nil => rfl
  | cons c rest ih =>
      rw [List.forall_mem_cons] at h
      have hrange := toNat_of_isPatternChar (c := c) (by rw [isPatternChar, h.1]; rfl)
      have hsize : c.utf8Size = 1 := by
        rw [Char.utf8Size_eq_one_iff, UInt32.le_iff_toNat_le]
        exact Nat.le_trans hrange.2.1 (by decide)
      rw [byteLength, hsize, ih h.2, List.length_cons, Nat.add_comm]

theorem isLabel_iff_word {label : List Char} : IsLabel label ↔ Word label := by
  constructor
  · intro h
    have hlength : label.length ≤ 63 := by
      rw [← byteLength_eq_length h.chars]
      exact h.length_le
    exact ⟨List.length_pos_iff.mpr h.ne_nil, hlength, fun c hc => isLabelChar_iff.mp (h.chars c hc)⟩
  · intro h
    have hchars : ∀ c ∈ label, isLabelChar c = true := fun c hc => isLabelChar_iff.mpr (h.chars c hc)
    have hlength : byteLength label ≤ maxLabelBytes := by
      rw [byteLength_eq_length hchars]
      exact h.length_le
    exact ⟨List.length_pos_iff.mp h.length_pos, hlength, hchars⟩

/-! ### Names -/

theorem labels_eq_singleton {s : List Char} (h : '.' ∉ s) : labels s = [s] := by
  rw [labels_eq_splitOn]
  exact List.splitOn_eq_singleton h

theorem Word.dot_notMem {label : List Char} (h : Word label) : '.' ∉ label :=
  dot_notMem_of_chars h.chars

theorem dotted_intercalate {ls : List (List Char)} (hne : ls ≠ []) (h : ∀ label ∈ ls, Word label) :
    Dotted (['.'].intercalate ls) := by
  induction ls with
  | nil => exact absurd rfl hne
  | cons label more ih =>
      rw [List.forall_mem_cons] at h
      by_cases hmore : more = []
      · subst hmore
        simpa using Dotted.word h.1
      · rw [List.intercalate_cons_of_ne_nil hmore]
        simpa using Dotted.dot h.1 (ih hmore h.2)

/-- Cutting a text at its dots gives nothing but words exactly if it was put together from words. -/
theorem dotted_iff_labels {s : List Char} : Dotted s ↔ ∀ label ∈ labels s, IsLabel label := by
  simp only [isLabel_iff_word]
  constructor
  · intro h
    induction h with
    | word hword =>
        rw [labels_eq_singleton hword.dot_notMem]
        simpa using hword
    | dot hword _ ih =>
        rw [labels_append_dot, labels_eq_singleton hword.dot_notMem, List.singleton_append,
          List.forall_mem_cons]
        exact ⟨hword, ih⟩
  · intro h
    rw [← intercalate_labels s]
    exact dotted_intercalate (labels_ne_nil s) h

/-- A name may be asked for exactly if the grammar makes it. -/
theorem queryFault?_eq_none_iff_isName {name : String} : queryFault? name = none ↔ IsName name := by
  rw [queryFault?_eq_none_iff, byteLength_toList]
  constructor
  · rintro ⟨-, hsize, hlabels⟩
    exact ⟨dotted_iff_labels.mpr hlabels, hsize⟩
  · rintro ⟨hdotted, hsize⟩
    have hlabels := dotted_iff_labels.mp hdotted
    exact ⟨afterStar?_eq_none hlabels, hsize, hlabels⟩

/-- A text is accepted as a pattern exactly if the grammar makes it. -/
theorem patternFault?_eq_none_iff_isPattern {pattern : String} :
    patternFault? pattern = none ↔ IsPattern pattern := by
  rw [patternFault?_eq_none_iff, byteLength_toList, ← dotted_iff_labels]
  cases hstar : afterStar? pattern.toList with
  | none =>
      rw [Option.getD_none]
      constructor
      · rintro ⟨hsize, hdotted⟩
        exact ⟨.inl hdotted, hsize⟩
      · rintro ⟨hdotted | ⟨rest, hpattern, -⟩, hsize⟩
        · exact ⟨hsize, hdotted⟩
        · rw [hpattern] at hstar
          cases hstar
  | some rest =>
      rw [Option.getD_some]
      constructor
      · rintro ⟨hsize, hdotted⟩
        exact ⟨.inr ⟨rest, afterStar?_eq_some_iff.mp hstar, hdotted⟩, hsize⟩
      · rintro ⟨hdotted | ⟨other, hpattern, hdotted⟩, hsize⟩
        -- a star is no word, so that a pattern in which only words stand has none
        · rw [afterStar?_eq_none (dotted_iff_labels.mp hdotted)] at hstar
          cases hstar
        · rw [hpattern] at hstar
          cases hstar
          exact ⟨hsize, hdotted⟩

end DnsFilter.Name
