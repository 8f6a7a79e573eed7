import DnsFilter.Name.Pattern

/-! Names as lists of labels. A name is determined by its labels, and the names above it are those
whose labels are a proper ending of its own: what is said on characters, with dots looked for one by
one, is the same as what is said on labels. A name that may be asked for has no empty label, and that
is what the look-up of rules about it rests on. -/

namespace DnsFilter.Name

/-! ### Labels and dots -/

theorem labels_eq_splitOn (s : List Char) : labels s = s.splitOn '.' := by
  induction s with
  | nil => simp [labels]
  | cons c rest ih =>
      rw [labels, List.splitOn_cons_eq_if_modifyHead, ih]
      by_cases hc : c = '.'
      · simp [hc]
      · obtain ⟨label, more, hsplit⟩ :=
          List.exists_cons_of_ne_nil (List.splitOn_ne_nil '.' rest)
        simp [hc, hsplit]

theorem labels_append_dot (head tail : List Char) :
    labels (head ++ '.' :: tail) = labels head ++ labels tail := by
  simp only [labels_eq_splitOn]
  exact List.splitOn_append_cons_self head tail

theorem intercalate_labels (s : List Char) : ['.'].intercalate (labels s) = s := by
  rw [labels_eq_splitOn]
  exact List.intercalate_splitOn '.'

theorem labels_injective {s t : List Char} (h : labels s = labels t) : s = t := by
  rw [← intercalate_labels s, h, intercalate_labels]

theorem intercalate_append {front back : List (List Char)} (hfront : front ≠ [])
    (hback : back ≠ []) :
    ['.'].intercalate (front ++ back) =
      ['.'].intercalate front ++ '.' :: ['.'].intercalate back := by
  induction front with
  | nil => exact absurd rfl hfront
  | cons label more ih =>
      by_cases hmore : more = []
      · subst hmore
        rw [List.singleton_append, List.intercalate_cons_of_ne_nil hback]
        simp
      · have happend : more ++ back ≠ [] := by simp [hmore]
        rw [List.cons_append, List.intercalate_cons_of_ne_nil happend, ih hmore,
          List.intercalate_cons_of_ne_nil hmore]
        simp

/-- A name ends in a dot and `p` exactly when the labels of `p` are a proper ending of its labels. -/
theorem exists_append_dot_iff {s p : List Char} :
    (∃ head, s = head ++ '.' :: p) ↔ ∃ front, front ≠ [] ∧ labels s = front ++ labels p := by
  constructor
  · rintro ⟨head, rfl⟩
    exact ⟨labels head, labels_ne_nil head, labels_append_dot head p⟩
  · rintro ⟨front, hfront, hs⟩
    refine ⟨['.'].intercalate front, ?_⟩
    rw [← intercalate_labels s, hs, intercalate_append hfront (labels_ne_nil p),
      intercalate_labels]

/-! ### The names above a name -/

/-- Whether the labels of `parent` are an ending of the labels of `name`, and not all of them. -/
def isAbove (parent name : List Char) : Bool :=
  decide ((labels parent).length < (labels name).length) && (labels parent).isSuffixOf (labels name)

theorem isAbove_iff {parent name : List Char} :
    isAbove parent name = true ↔ ∃ front, front ≠ [] ∧ labels name = front ++ labels parent := by
  unfold isAbove
  rw [Bool.and_eq_true, decide_eq_true_eq, List.isSuffixOf_iff_suffix]
  constructor
  · rintro ⟨hlength, front, hfront⟩
    refine ⟨front, ?_, hfront.symm⟩
    rintro rfl
    rw [← hfront, List.nil_append] at hlength
    exact Nat.lt_irrefl _ hlength
  · rintro ⟨front, hfront, hname⟩
    have hpos := List.length_pos_iff.mpr hfront
    exact ⟨by rw [hname, List.length_append]; omega, front, hname.symm⟩

theorem mem_parents_iff_isAbove {p s : List Char} : p ∈ parents s ↔ isAbove p s = true := by
  rw [mem_parents_iff, exists_append_dot_iff, isAbove_iff]

theorem length_labels_lt_of_mem_parents {p s : List Char} (h : p ∈ parents s) :
    (labels p).length < (labels s).length := by
  rw [mem_parents_iff_isAbove, isAbove, Bool.and_eq_true, decide_eq_true_eq] at h
  exact h.1

/-- The names above a name come nearest first: each has fewer labels than those before it. -/
theorem parents_pairwise (s : List Char) :
    (parents s).Pairwise fun p q => (labels q).length < (labels p).length := by
  induction s with
  | nil => exact List.Pairwise.nil
  | cons c rest ih =>
      rw [parents]
      split
      · exact List.Pairwise.cons (fun q hq => length_labels_lt_of_mem_parents hq) ih
      · exact ih

theorem wildcardOver_injective {p q : List Char} (h : wildcardOver p = wildcardOver q) : p = q :=
  List.append_cancel_left (String.ofList_injective h)

theorem toList_wildcardOver (p : List Char) : (wildcardOver p).toList = star ++ p :=
  String.toList_ofList

theorem afterStar?_wildcardOver (p : List Char) :
    afterStar? (wildcardOver p).toList = some p := by
  rw [afterStar?_eq_some_iff, toList_wildcardOver]

theorem eq_wildcardOver_iff {domain : String} {p : List Char} :
    domain = wildcardOver p ↔ afterStar? domain.toList = some p := by
  constructor
  · rintro rfl
    exact afterStar?_wildcardOver p
  · intro h
    rw [afterStar?_eq_some_iff] at h
    rw [wildcardOver, ← h, String.ofList_toList]

theorem rootOfWildcard?_eq_some_iff {pattern root : String} :
    rootOfWildcard? pattern = some root ↔ root ≠ "" ∧ pattern = wildcardOver root.toList := by
  rw [eq_wildcardOver_iff]
  unfold rootOfWildcard?
  cases hstar : afterStar? pattern.toList with
  | none => simp
  | some rest =>
      cases rest with
      | nil =>
          simp only [reduceCtorEq, Option.some.injEq, false_iff, not_and]
          intro hroot hnil
          exact hroot (String.toList_eq_nil_iff.mp hnil.symm)
      | cons c rest =>
          simp only [Option.some.injEq]
          constructor
          · rintro rfl
            exact ⟨by simp, by simp⟩
          · rintro ⟨-, hroot⟩
            rw [hroot, String.ofList_toList]

/-! ### Names that may be asked for -/

/-- What may stand between the dots of a pattern. -/
structure IsLabel (label : List Char) : Prop where
  ne_nil : label ≠ []
  length_le : byteLength label ≤ maxLabelBytes
  chars : ∀ c ∈ label, isLabelChar c = true

theorem labelFault?_eq_none_iff {pattern : String} {ls : List (List Char)} :
    labelFault? pattern ls = none ↔ ∀ label ∈ ls, IsLabel label := by
  induction ls with
  | nil => simp [labelFault?]
  | cons label rest ih =>
      rw [labelFault?, List.forall_mem_cons, ← ih]
      split
      · rename_i hlength
        simp only [reduceCtorEq, false_iff, not_and]
        intro hlabel
        simp only [Bool.or_eq_true, List.isEmpty_iff, decide_eq_true_eq] at hlength
        rcases hlength with hnil | hlong
        · exact absurd hnil hlabel.ne_nil
        · exact absurd hlabel.length_le (Nat.not_le.mpr hlong)
      · rename_i hlength
        split
        · rename_i hchars
          simp only [reduceCtorEq, false_iff, not_and]
          intro hlabel
          rw [List.all_eq_true.mpr hlabel.chars] at hchars
          cases hchars
        · rename_i hchars
          simp only [Bool.or_eq_true, List.isEmpty_iff, decide_eq_true_eq, not_or,
            Nat.not_lt] at hlength
          simp only [Bool.not_eq_true', Bool.not_eq_false, List.all_eq_true] at hchars
          exact ⟨fun h => ⟨⟨hlength.1, hlength.2, hchars⟩, h⟩, fun h => h.2⟩

theorem patternFault?_eq_none_iff {pattern : String} :
    patternFault? pattern = none ↔ byteLength pattern.toList ≤ maxBytes ∧
      ∀ label ∈ labels ((afterStar? pattern.toList).getD pattern.toList), IsLabel label := by
  rw [← @labelFault?_eq_none_iff pattern]
  simp only [patternFault?]
  split
  · rename_i hempty
    have hnil : pattern.toList = [] := List.isEmpty_iff.mp hempty
    simp [hnil, afterStar?, labels, labelFault?]
  · split
    · simp only [reduceCtorEq, false_iff, not_and]
      omega
    · exact ⟨fun h => ⟨by omega, h⟩, fun h => h.2⟩

theorem queryFault?_eq_none_iff {name : String} :
    queryFault? name = none ↔ afterStar? name.toList = none ∧
      byteLength name.toList ≤ maxBytes ∧ ∀ label ∈ labels name.toList, IsLabel label := by
  unfold queryFault?
  cases hstar : afterStar? name.toList with
  | none => simp [patternFault?_eq_none_iff, hstar]
  | some rest => simp

/-- A query is a pattern without a star. -/
theorem queryFault?_eq_none_iff_patternFault? {name : String} :
    queryFault? name = none ↔ afterStar? name.toList = none ∧ patternFault? name = none := by
  unfold queryFault?
  cases afterStar? name.toList <;> simp

theorem isLabel_of_queryFault? {name : String} (h : queryFault? name = none) {label : List Char}
    (hlabel : label ∈ labels name.toList) : IsLabel label :=
  (queryFault?_eq_none_iff.mp h).2.2 label hlabel

theorem nil_notMem_labels {name : String} (h : queryFault? name = none) :
    [] ∉ labels name.toList :=
  fun hmem => (isLabel_of_queryFault? h hmem).ne_nil rfl

/-- A name that may be asked for does not end in a dot, and none of the names above it is empty. -/
theorem ne_nil_of_mem_parents {name : String} (h : queryFault? name = none) {p : List Char}
    (hp : p ∈ parents name.toList) : p ≠ [] := by
  rintro rfl
  obtain ⟨head, hname⟩ := mem_parents_iff.mp hp
  apply nil_notMem_labels h
  rw [hname, labels_append_dot]
  simp [labels]

/-- A name without an empty label does not start with a dot, so that it is below each name above it. -/
theorem isBelow_iff_mem_parents_of_notMem {s p : List Char} (h : [] ∉ labels s) :
    isBelow s p = true ↔ p ∈ parents s := by
  rw [isBelow_iff, mem_parents_iff]
  constructor
  · rintro ⟨head, -, hname⟩
    exact ⟨head, hname⟩
  · rintro ⟨head, hname⟩
    refine ⟨head, ?_, hname⟩
    rintro rfl
    apply h
    rw [hname, labels_append_dot]
    simp [labels]

theorem isBelow_iff_mem_parents {name : String} (h : queryFault? name = none) {p : List Char} :
    isBelow name.toList p = true ↔ p ∈ parents name.toList :=
  isBelow_iff_mem_parents_of_notMem (nil_notMem_labels h)

/-- No label holds a star, so that what a wildcard pattern stands over is no wildcard pattern. -/
theorem afterStar?_eq_none {s : List Char} (h : ∀ label ∈ labels s, IsLabel label) :
    afterStar? s = none := by
  cases hstar : afterStar? s with
  | none => rfl
  | some rest =>
      have hs : s = ['*'] ++ '.' :: rest := afterStar?_eq_some_iff.mp hstar
      have hlabel : ['*'] ∈ labels s := by
        rw [hs, labels_append_dot]
        exact List.mem_append_left _ (by decide)
      exact absurd ((h _ hlabel).chars '*' List.mem_cons_self) (by decide)

/-- The name that a wildcard pattern stands over may be asked for. -/
theorem queryFault?_root {root : String}
    (h : patternFault? (wildcardOver root.toList) = none) : queryFault? root = none := by
  obtain ⟨hlength, hlabels⟩ := patternFault?_eq_none_iff.mp h
  rw [afterStar?_wildcardOver, Option.getD_some] at hlabels
  refine queryFault?_eq_none_iff.mpr ⟨afterStar?_eq_none hlabels, ?_, hlabels⟩
  calc
    byteLength root.toList ≤ byteLength (star ++ root.toList) := by
      simp only [star, List.cons_append, List.nil_append, byteLength]
      omega
    _ ≤ maxBytes := by rwa [← toList_wildcardOver]

theorem byteLength_eq (s : List Char) : byteLength s = (String.ofList s).utf8ByteSize := by
  induction s with
  | nil => rfl
  | cons c rest ih =>
      rw [byteLength, ih, String.ofList_cons, String.utf8ByteSize_append,
        String.utf8ByteSize_singleton]

theorem byteLength_toList (s : String) : byteLength s.toList = s.utf8ByteSize := by
  rw [byteLength_eq, String.ofList_toList]

theorem utf8ByteSize_le {pattern : String} (h : patternFault? pattern = none) :
    pattern.utf8ByteSize ≤ maxBytes :=
  byteLength_toList pattern ▸ (patternFault?_eq_none_iff.mp h).1

end DnsFilter.Name
