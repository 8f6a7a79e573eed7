import DnsFilter.CommandLine.Session
import DnsFilter.Proofs.Decision.Spelling
import DnsFilter.Proofs.Stats.History

/-! What checks count. A query is counted under the normal spelling of the text that was typed, and read
under the normal spelling of the text that is asked about. That both meet hangs on the check, which comes
before the counting: only what it accepts is counted, and a spelling that it accepts is its own normal
spelling. -/

namespace DnsFilter

open Name (normalize IsName)

variable {α : Type} {view : RuleView} {stats next : QueryStats} {typed : String} {now : Instant}
  {decision : Decision} {cause : Fault}

theorem QueryStats.countFor_record (stats : QueryStats) (domain : String) (at_ : Instant)
    (name : String) : (stats.record domain at_).countFor name =
      stats.countFor name + if normalize name = domain then 1 else 0 := by
  rw [countFor, count, counter?_record, countFor, count]
  by_cases hname : domain = normalize name
  · rw [if_pos hname, if_pos hname.symm]
    cases stats.counter? (normalize name) <;> rfl
  · rw [if_neg hname, if_neg (Ne.symm hname), Nat.add_zero]

/-! ### One check -/

namespace RuleView

theorem checkCounted_of_ok (h : view.check typed now = .ok decision) (stats : QueryStats) :
    view.checkCounted stats typed now = (.ok decision, stats.record decision.domain now) := by
  simp only [checkCounted, h]

theorem checkCounted_of_error (h : view.check typed now = .error cause) (stats : QueryStats) :
    view.checkCounted stats typed now = (.error cause, stats) := by
  simp only [checkCounted, h]

theorem domain_of_check (h : view.check typed now = .ok decision) :
    decision.domain = normalize typed := by
  rw [(check_eq_ok_iff.mp h).2]
  rfl

/-- Whether a count is asked for by the text that was typed or by the domain that was decided about, it
is the same one. -/
theorem countFor_domain_of_check (h : view.check typed now = .ok decision) (stats : QueryStats) :
    stats.countFor decision.domain = stats.countFor typed := by
  rw [domain_of_check h, QueryStats.countFor, normalize_of_check h, QueryStats.countFor]

end RuleView

/-! ### Many checks -/

namespace CommandLine

variable {json : Bool} {names : List String}

theorem checkAll_cons_of_ok (h : view.check typed now = .ok decision) :
    (checkAll view json now stats (typed :: names)).2 =
      (checkAll view json (now.later 1) (stats.record decision.domain now) names).2 := by
  rw [checkAll, RuleView.checkCounted_of_ok h]

theorem checkAll_cons_of_error (h : view.check typed now = .error cause) :
    (checkAll view json now stats (typed :: names)).2 = .error cause := by
  rw [checkAll, RuleView.checkCounted_of_error h]

/-- A row of checks is made to its end exactly if every text is accepted. -/
theorem checkAll_isOk_iff :
    (∃ next, (checkAll view json now stats names).2 = .ok next) ↔
      ∀ typed ∈ names, IsName (normalize typed) := by
  induction names generalizing now stats with
  | nil => exact iff_of_true ⟨stats, rfl⟩ nofun
  | cons typed rest ih =>
      have hfirst : (∃ decision, view.check typed now = .ok decision) ↔ IsName (normalize typed) :=
        RuleView.check_isOk_iff
      rw [List.forall_mem_cons, ← hfirst]
      cases h : view.check typed now with
      | ok decision => simp [checkAll_cons_of_ok h, ih]
      | error cause => simp [checkAll_cons_of_error h]

/-- A row of checks that is made to its end counts each name as often as it was typed, in whatever
spelling. -/
theorem countFor_checkAll (h : (checkAll view json now stats names).2 = .ok next) (name : String) :
    next.countFor name =
      stats.countFor name + names.countP fun typed => normalize name == normalize typed := by
  induction names generalizing now stats with
  | nil =>
      cases h
      rfl
  | cons typed rest ih =>
      cases hcheck : view.check typed now with
      | error cause =>
          rw [checkAll_cons_of_error hcheck] at h
          cases h
      | ok decision =>
          rw [checkAll_cons_of_ok hcheck] at h
          rw [ih h, stats.countFor_record, RuleView.domain_of_check hcheck, List.countP_cons]
          simp only [beq_iff_eq]
          omega

example : (checkAll Store.sample.view false ⟨0, 0⟩ .empty ["Ads.com", "b.org", " ads.com. "]).2.map
    (·.countFor "ADS.COM..") = .ok 2 := by
  decide +kernel

end CommandLine

/-! ### A check within the services -/

namespace Services

theorem check_of_ok {s : Services α} (h : s.rules.view.check typed now = .ok decision) :
    s.check typed now =
      (.ok decision, { s with stats := s.stats.record decision.domain now }) := by
  rw [check, RuleView.checkCounted_of_ok h]

theorem check_of_error {s : Services α} (h : s.rules.view.check typed now = .error cause) :
    s.check typed now = (.error cause, s) := by
  rw [check, RuleView.checkCounted_of_error h]

/-- Whatever the services and the text, a check that is counted decides as one that is not, and touches
no rule. It succeeds exactly if the normal spelling of the text is a name of the grammar. Then the count
for each text with that normal spelling grows by one and all others stay; the domain of the decision has
the same count as the text, before the check, after it and ever. If it fails, all is as before. -/
theorem check_counts_accepted (s : Services α) (typed : String) (now : Instant) :
    (s.check typed now).1 = s.rules.view.check typed now ∧
      (s.check typed now).2.rules = s.rules ∧
      ((∃ decision, (s.check typed now).1 = .ok decision) ↔ IsName (normalize typed)) ∧
      (∀ decision, (s.check typed now).1 = .ok decision →
        (∀ name, (s.check typed now).2.stats.countFor name =
          s.stats.countFor name + if normalize name = normalize typed then 1 else 0) ∧
        ∀ stats : QueryStats, stats.countFor decision.domain = stats.countFor typed) ∧
      ∀ cause, (s.check typed now).1 = .error cause → (s.check typed now).2 = s := by
  have hanswer : (∃ decision, s.rules.view.check typed now = .ok decision) ↔
      IsName (normalize typed) := RuleView.check_isOk_iff
  cases h : s.rules.view.check typed now with
  | ok decision =>
      rw [h] at hanswer
      rw [check_of_ok h]
      refine ⟨rfl, rfl, hanswer, ?_, nofun⟩
      rintro _ ⟨⟩
      refine ⟨fun name => ?_, RuleView.countFor_domain_of_check h⟩
      rw [s.stats.countFor_record, RuleView.domain_of_check h]
  | error cause =>
      rw [h] at hanswer
      rw [check_of_error h]
      refine ⟨rfl, rfl, hanswer, ?_, fun _ _ => rfl⟩
      rintro decision ⟨⟩

end Services

end DnsFilter
