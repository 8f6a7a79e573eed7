import DnsFilter.Proofs.Name.Labels
import DnsFilter.Proofs.Time.Elapsed
import DnsFilter.Rule.Basic

/-! Rules that a store accepts. Of such a rule the domain alone tells what it is about: it is a
wildcard exactly when its domain starts with `*.`, and then it is about the names that have a dot and
the rest of the domain behind at least one label. A rule that is live at some time was live at all
times before. -/

namespace DnsFilter.Rule

theorem fault?_eq_none_iff {r : Rule} :
    r.fault? = none ↔ Name.patternFault? r.domain = none ∧
      (r.kind = .wildcard ↔ (Name.afterStar? r.domain.toList).isSome = true) ∧
      ∀ c, r.comment = some c → c.utf8ByteSize ≤ maxCommentBytes := by
  unfold fault?
  cases hpattern : Name.patternFault? r.domain with
  | some cause => simp
  | none =>
      have hcomment : (r.comment.any fun c => decide (maxCommentBytes < c.utf8ByteSize)) = false ↔
          ∀ c, r.comment = some c → c.utf8ByteSize ≤ maxCommentBytes := by
        cases r.comment <;> simp
      cases r.kind <;> cases (Name.afterStar? r.domain.toList).isSome <;> simp [hcomment]

/-- What a rule asks for, since when and until when says nothing about whether it is accepted. -/
theorem fault?_congr {r q : Rule} (hdomain : r.domain = q.domain) (hkind : r.kind = q.kind)
    (hcomment : r.comment = q.comment) : r.fault? = q.fault? := by
  rw [fault?, fault?, hdomain, hkind, hcomment]

/-- What is set in an accepted rule beside its domain does not change what it is about. -/
theorem below?_eq {r : Rule} (h : r.fault? = none) :
    r.below? = Name.afterStar? r.domain.toList := by
  have hkind := (fault?_eq_none_iff.mp h).2.1
  unfold below?
  cases hk : r.kind with
  | wildcard => rfl
  | exact =>
      have hstar : ¬ (Name.afterStar? r.domain.toList).isSome = true := by
        rw [← hkind, hk]
        simp
      rw [Option.not_isSome_iff_eq_none] at hstar
      exact hstar.symm

theorem isWildcard_iff {r : Rule} (h : r.fault? = none) :
    r.isWildcard = true ↔ ∃ parent, r.domain = Name.wildcardOver parent := by
  rw [isWildcard, beq_iff_eq, (fault?_eq_none_iff.mp h).2.1, Option.isSome_iff_exists]
  simp only [Name.eq_wildcardOver_iff]

theorem kind_eq_wildcard_iff {r : Rule} (h : r.fault? = none) :
    r.kind = .wildcard ↔ Name.star <+: r.domain.toList := by
  rw [(fault?_eq_none_iff.mp h).2.1, Option.isSome_iff_exists]
  simp only [Name.afterStar?_eq_some_iff]
  exact ⟨fun ⟨rest, hrest⟩ => ⟨rest, hrest.symm⟩, fun ⟨rest, hrest⟩ => ⟨rest, hrest.symm⟩⟩

/-- An accepted wildcard stands over some name. -/
theorem root_ne_nil {r : Rule} (h : r.fault? = none) {root : List Char}
    (hdomain : r.domain = Name.wildcardOver root) : root ≠ [] := by
  rintro rfl
  have hlabels := (Name.patternFault?_eq_none_iff.mp (fault?_eq_none_iff.mp h).1).2
  rw [hdomain, Name.afterStar?_wildcardOver] at hlabels
  exact (hlabels [] (by simp [Name.labels])).ne_nil rfl

theorem isAbout_iff {r : Rule} (h : r.fault? = none) {name : String} :
    r.isAbout name = true ↔ (Name.afterStar? r.domain.toList = none ∧ r.domain = name) ∨
      ∃ parent, r.domain = Name.wildcardOver parent ∧
        Name.isBelow name.toList parent = true := by
  unfold isAbout
  rw [below?_eq h]
  simp only [Name.eq_wildcardOver_iff]
  cases Name.afterStar? r.domain.toList with
  | none => simp
  | some parent => simp

/-! ### Rules made from patterns -/

/-- The kind of such a rule is told from its domain, and it has no comment, so that nothing can be wrong
with it but the pattern. -/
theorem fault?_draft_eq_none_iff {pattern : String} {action : Action} :
    (draft pattern action).fault? = none ↔
      Name.patternFault? (Name.normalize pattern) = none := by
  rw [fault?_eq_none_iff]
  refine and_iff_left ⟨?_, fun c hc => by cases hc⟩
  simp only [draft]
  cases (Name.afterStar? (Name.normalize pattern).toList).isSome <;> simp

theorem ofPattern_eq_ok_iff {pattern : String} {action : Action} {r : Rule} :
    ofPattern pattern action = .ok r ↔
      Name.patternFault? (Name.normalize pattern) = none ∧ r = draft pattern action := by
  rw [← @fault?_draft_eq_none_iff pattern action, ofPattern]
  cases (draft pattern action).fault? <;> simp [eq_comm]

/-- A rule is made from the normal spelling of the pattern, whichever way it was typed. -/
theorem draft_congr {p q : String} (h : Name.normalize p = Name.normalize q) (action : Action) :
    draft p action = draft q action := by
  rw [draft, draft, h]

/-! ### Expiry -/

/-- A rule that is live later is live now. -/
theorem isExpired_eq_false_of_le {r : Rule} {now later : Instant} (hle : now ≤ later)
    (h : r.isExpired later = false) : r.isExpired now = false := by
  unfold isExpired at *
  cases hexpiry : r.expiresAt with
  | none => rfl
  | some expiry =>
      rw [hexpiry, decide_eq_false_iff_not] at h
      exact decide_eq_false fun hnow => h (Instant.le_trans hnow hle)

end DnsFilter.Rule
