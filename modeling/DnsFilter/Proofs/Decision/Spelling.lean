import DnsFilter.Proofs.Decision.Verdict
import DnsFilter.Proofs.Name.Grammar

/-! Texts as they are typed. A text is taken in its normal spelling, and what it becomes hangs on whether
the grammar makes that spelling: a rule if it is a pattern, a decision if it is a name. The normal spelling
of any text need not be its own normal spelling, but that of a text which is accepted is; so a text can be
typed again as it was understood, and nothing changes. -/

namespace DnsFilter

open Name (normalize IsName IsPattern)

namespace Rule

variable {typed : String} {action : Action} {r : Rule}

theorem ofPattern_isOk_iff :
    (∃ r, ofPattern typed action = .ok r) ↔ IsPattern (normalize typed) := by
  rw [← Name.patternFault?_eq_none_iff_isPattern]
  constructor
  · rintro ⟨r, h⟩
    exact (ofPattern_eq_ok_iff.mp h).1
  · intro h
    exact ⟨_, ofPattern_eq_ok_iff.mpr ⟨h, rfl⟩⟩

theorem normalize_of_ofPattern (h : ofPattern typed action = .ok r) :
    normalize (normalize typed) = normalize typed :=
  Name.normalize_eq_self (ofPattern_eq_ok_iff.mp h).1

/-- A text that is not accepted may have blanks behind its dots, and lose more each time. -/
example : normalize "ads.com. ." = "ads.com. " ∧ normalize "ads.com. " = "ads.com" := by
  decide +kernel

/-- A pattern that is typed again in its normal spelling gives the same rule. -/
theorem ofPattern_normalize (h : ofPattern typed action = .ok r) :
    ofPattern (normalize typed) action = .ok r := by
  have hnormal := normalize_of_ofPattern h
  obtain ⟨hfault, rfl⟩ := ofPattern_eq_ok_iff.mp h
  rw [ofPattern_eq_ok_iff, hnormal]
  exact ⟨hfault, draft_congr hnormal.symm action⟩

theorem fault?_of_ofPattern (h : ofPattern typed action = .ok r) : r.fault? = none := by
  obtain ⟨hfault, rfl⟩ := ofPattern_eq_ok_iff.mp h
  exact fault?_draft_eq_none_iff.mpr hfault

end Rule

namespace RuleView

variable {view : RuleView} {typed : String} {now : Instant} {decision : Decision}

theorem check_eq_ok_iff : view.check typed now = .ok decision ↔
    Name.queryFault? (normalize typed) = none ∧
      decision = Decision.of view (normalize typed) now := by
  cases hname : Name.queryFault? (normalize typed) with
  | some cause => simp [check, hname]
  | none => simp [Store.check_of_queryFault? hname, eq_comm]

theorem check_isOk_iff :
    (∃ decision, view.check typed now = .ok decision) ↔ IsName (normalize typed) := by
  simp only [← Name.queryFault?_eq_none_iff_isName, check_eq_ok_iff, exists_and_left, exists_eq,
    and_true]

theorem normalize_of_check (h : view.check typed now = .ok decision) :
    normalize (normalize typed) = normalize typed :=
  Name.normalize_eq_self
    (Name.queryFault?_eq_none_iff_patternFault?.mp (check_eq_ok_iff.mp h).1).2

/-- A name that is asked for again in its normal spelling gets the same decision. -/
theorem check_normalize (h : view.check typed now = .ok decision) :
    view.check (normalize typed) now = .ok decision := by
  rw [check_eq_ok_iff, normalize_of_check h]
  exact check_eq_ok_iff.mp h

/-- It is counted alike as well. -/
theorem checkCounted_normalize (stats : QueryStats) (h : view.check typed now = .ok decision) :
    view.checkCounted stats (normalize typed) now = view.checkCounted stats typed now := by
  simp only [checkCounted, check_normalize h, h]

end RuleView

/-- A text makes a rule exactly if its normal spelling is a pattern of the grammar. The rule has that
spelling as its domain, is a wildcard exactly if that starts with `*.`, and is one that a store accepts;
the spelling is its own normal spelling and makes the same rule again. A check of a text gives a decision
exactly if its normal spelling is a name of the grammar, and a check of that spelling then gives the same
decision and counts the same query. -/
theorem accepted_iff_grammar (typed : String) :
    (∀ action,
      ((∃ r, Rule.ofPattern typed action = .ok r) ↔ IsPattern (normalize typed)) ∧
        ∀ r, Rule.ofPattern typed action = .ok r →
          r.domain = normalize typed ∧ r.action = action ∧
            (r.kind = .wildcard ↔ Name.star <+: (normalize typed).toList) ∧ r.fault? = none ∧
            normalize (normalize typed) = normalize typed ∧
            Rule.ofPattern (normalize typed) action = .ok r) ∧
      ∀ (view : RuleView) now,
        ((∃ decision, view.check typed now = .ok decision) ↔ IsName (normalize typed)) ∧
          ∀ decision, view.check typed now = .ok decision →
            view.check (normalize typed) now = .ok decision ∧
              ∀ stats, view.checkCounted stats (normalize typed) now =
                view.checkCounted stats typed now := by
  constructor
  · intro action
    refine ⟨Rule.ofPattern_isOk_iff, fun r h => ?_⟩
    have haccepted := Rule.fault?_of_ofPattern h
    have hkind := Rule.kind_eq_wildcard_iff haccepted
    obtain rfl := (Rule.ofPattern_eq_ok_iff.mp h).2
    exact ⟨rfl, rfl, hkind, haccepted, Rule.normalize_of_ofPattern h, Rule.ofPattern_normalize h⟩
  · intro view now
    refine ⟨RuleView.check_isOk_iff, fun decision h => ?_⟩
    exact ⟨RuleView.check_normalize h, fun stats => RuleView.checkCounted_normalize stats h⟩

/-- A wildcard typed carelessly makes a rule, and is nothing to ask for. -/
theorem accepted_iff_grammar_sample :
    Rule.ofPattern " *.Ads.Com.. " .block = .ok (Rule.draft "*.ads.com" .block) ∧
      IsPattern (normalize " *.Ads.Com.. ") ∧ ¬ IsName (normalize " *.Ads.Com.. ") ∧
      Rule.ofPattern (normalize " *.Ads.Com.. ") .block = .ok (Rule.draft "*.ads.com" .block) := by
  obtain ⟨hrules, hchecks⟩ := accepted_iff_grammar " *.Ads.Com.. "
  have hrule : Rule.ofPattern " *.Ads.Com.. " .block = .ok (Rule.draft "*.ads.com" .block) := by
    decide +kernel
  obtain ⟨hpattern, hcanonical⟩ := hrules .block
  refine ⟨hrule, hpattern.mp ⟨_, hrule⟩, ?_, (hcanonical _ hrule).2.2.2.2.2⟩
  intro hname
  obtain ⟨decision, hdecision⟩ := (hchecks Store.sample.view ⟨0, 0⟩).1.mpr hname
  have hrefused : Store.sample.view.check " *.Ads.Com.. " ⟨0, 0⟩ =
      .error (.name (.wildcardQuery "*.ads.com")) := by decide +kernel
  rw [hrefused] at hdecision
  cases hdecision

end DnsFilter
