import DnsFilter.Proofs.Name.Labels
import Mathlib.Data.List.DropRight
import Mathlib.Data.List.TakeWhile

/-! Patterns are in their normal spelling: no character of one is blank or a capital letter, and none
ends in a dot. A name that is a rule's domain can thus be asked for as it is written there. -/

namespace DnsFilter

theorem Text.dropEndWhile_eq_self_iff {p : Char → Bool} {s : List Char} :
    dropEndWhile p s = s ↔ ∀ hs : s ≠ [], ¬ p (s.getLast hs) = true :=
  List.rdropWhile_eq_self_iff

theorem Text.trim_eq_self {s : List Char} (h : ∀ c ∈ s, isBlank c = false) : trim s = s := by
  have hfront : s.dropWhile isBlank = s := by
    rw [List.dropWhile_eq_self_iff]
    intro hpos
    rw [h _ (List.getElem_mem hpos)]
    exact Bool.false_ne_true
  rw [trim, hfront, dropEndWhile_eq_self_iff]
  intro hne
  rw [h _ (List.getLast_mem hne)]
  exact Bool.false_ne_true

namespace Name

/-- What labels, dots and the star are made of: no blank, and no capital letter. -/
def isPatternChar (c : Char) : Bool := isLabelChar c || c == '.' || c == '*'

theorem toNat_of_isPatternChar {c : Char} (h : isPatternChar c = true) :
    42 ≤ c.toNat ∧ c.toNat ≤ 122 ∧ ¬ (65 ≤ c.toNat ∧ c.toNat ≤ 90) := by
  simp only [isPatternChar, isLabelChar, Bool.or_eq_true, beq_iff_eq] at h
  rcases h with ((((hlower | hdigit) | rfl) | rfl) | rfl) | rfl
  · obtain ⟨hlow, hhigh⟩ := Bool.and_eq_true_iff.mp hlower
    have hlow : 97 ≤ c.toNat := UInt32.le_iff_toNat_le.mp (of_decide_eq_true hlow)
    have hhigh : c.toNat ≤ 122 := UInt32.le_iff_toNat_le.mp (of_decide_eq_true hhigh)
    omega
  · obtain ⟨hlow, hhigh⟩ := Bool.and_eq_true_iff.mp hdigit
    have hlow : 48 ≤ c.toNat := UInt32.le_iff_toNat_le.mp (of_decide_eq_true hlow)
    have hhigh : c.toNat ≤ 57 := UInt32.le_iff_toNat_le.mp (of_decide_eq_true hhigh)
    omega
  all_goals decide

theorem isBlank_eq_false {c : Char} (h : isPatternChar c = true) : Text.isBlank c = false := by
  have hrange := toNat_of_isPatternChar h
  simp only [Text.isBlank, Bool.or_eq_false_iff, Bool.and_eq_false_iff, decide_eq_false_iff_not,
    beq_eq_false_iff_ne]
  omega

theorem toLower_eq_self {c : Char} (h : isPatternChar c = true) : c.toLower = c := by
  have hrange := toNat_of_isPatternChar h
  unfold Char.toLower
  rw [dif_neg]
  rintro ⟨hlow, hhigh⟩
  exact hrange.2.2 ⟨hlow, hhigh⟩

/-- Every character of a name is one of its dots or stands in one of its labels. -/
theorem eq_dot_or_mem_label {s : List Char} {c : Char} (h : c ∈ s) :
    c = '.' ∨ ∃ label ∈ labels s, c ∈ label := by
  induction s with
  | nil => exact absurd h List.not_mem_nil
  | cons d rest ih =>
      rw [labels]
      by_cases hd : d = '.'
      · rw [if_pos hd]
        rcases List.mem_cons.mp h with rfl | hrest
        · exact .inl hd
        · refine (ih hrest).imp_right ?_
          rintro ⟨label, hlabel, hc⟩
          exact ⟨label, List.mem_cons_of_mem _ hlabel, hc⟩
      · rw [if_neg hd]
        obtain ⟨label, more, hlabels⟩ := List.exists_cons_of_ne_nil (labels_ne_nil rest)
        rw [hlabels] at ih ⊢
        rcases List.mem_cons.mp h with rfl | hrest
        · exact .inr ⟨c :: label, List.mem_cons_self, List.mem_cons_self⟩
        · refine (ih hrest).imp_right ?_
          rintro ⟨other, hother, hc⟩
          rcases List.mem_cons.mp hother with rfl | hmore
          · exact ⟨d :: other, List.mem_cons_self, List.mem_cons_of_mem d hc⟩
          · exact ⟨other, List.mem_cons_of_mem _ hmore, hc⟩

/-- A name whose last label is not empty does not end in a dot. -/
theorem getLast_ne_dot {s : List Char} (h : [] ∉ labels s) (hs : s ≠ []) :
    s.getLast hs ≠ '.' := by
  intro hdot
  apply h
  rw [← List.dropLast_append_getLast hs, hdot, labels_append_dot]
  simp [labels]

theorem normalChars_eq_self {s : List Char} (hchars : ∀ c ∈ s, isPatternChar c = true)
    (hlast : ∀ hs : s ≠ [], s.getLast hs ≠ '.') : normalChars s = s := by
  have hdots : Text.dropEndWhile (· == '.') s = s := by
    rw [Text.dropEndWhile_eq_self_iff]
    intro hs
    rw [beq_iff_eq]
    exact hlast hs
  rw [normalChars, Text.trim_eq_self fun c hc => isBlank_eq_false (hchars c hc), hdots]
  calc
    s.map Char.toLower = s.map id := List.map_congr_left fun c hc => toLower_eq_self (hchars c hc)
    _ = s := List.map_id s

/-- A pattern is in its normal spelling. -/
theorem normalize_eq_self {pattern : String} (h : patternFault? pattern = none) :
    normalize pattern = pattern := by
  have hlabels := (patternFault?_eq_none_iff.mp h).2
  -- what stands behind the star, or the whole pattern if it has none
  obtain ⟨front, body, hpattern, hfront, hbody⟩ : ∃ front body, pattern.toList = front ++ body ∧
      (∀ c ∈ front, isPatternChar c = true) ∧ ∀ label ∈ labels body, IsLabel label := by
    cases hstar : afterStar? pattern.toList with
    | none =>
        rw [hstar] at hlabels
        exact ⟨[], pattern.toList, rfl, by simp, hlabels⟩
    | some rest =>
        rw [hstar] at hlabels
        exact ⟨star, rest, afterStar?_eq_some_iff.mp hstar, by simp [star, isPatternChar], hlabels⟩
  have hnil : [] ∉ labels body := fun hmem => (hbody [] hmem).ne_nil rfl
  have hne : body ≠ [] := by
    rintro rfl
    exact hnil (by simp [labels])
  have hchars : ∀ c ∈ pattern.toList, isPatternChar c = true := by
    intro c hc
    rw [hpattern, List.mem_append] at hc
    rcases hc with hc | hc
    · exact hfront c hc
    · rcases eq_dot_or_mem_label hc with rfl | ⟨label, hlabel, hmem⟩
      · decide
      · rw [isPatternChar, (hbody label hlabel).chars c hmem]
        rfl
  have hlast : ∀ hs : pattern.toList ≠ [], pattern.toList.getLast hs ≠ '.' := by
    intro hs
    simp only [hpattern, List.getLast_append_of_ne_nil _ hne]
    exact getLast_ne_dot hnil hne
  rw [normalize, normalChars_eq_self hchars hlast, String.ofList_toList]

end Name

end DnsFilter
