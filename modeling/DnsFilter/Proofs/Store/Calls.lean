import DnsFilter.Calls
import DnsFilter.Proofs.Coverage.Pass
import DnsFilter.Proofs.Rule.Accepted

/-! Everything that can be called on a rule store and on the wildcard policy beside it, in any order,
with any rules. A call makes at most one write of the store, and one that is refused makes none; so
whatever is called, one after the other, the store stays one that writes alone lead to. -/

namespace DnsFilter

namespace PolicedStore

/-! ### A call is at most one write -/

theorem orKeep_cases (s : Store) (attempt : Except Fault Store) :
    orKeep s attempt = s ∨ attempt = .ok (orKeep s attempt) := by
  cases attempt with
  | ok next => exact .inr rfl
  | error cause => exact .inl rfl

theorem write_of_reload {s next : Store} {source : Source} {batch : List Rule} {now : Instant}
    (h : (Store.keeper.reload s source batch now).map (·.1) = .ok next) :
    s.write (.replaceSource source (batch.map (Keeper.claimed source now))) = .ok next :=
  (Store.map_judged_eq_ok h).2

theorem passOrKeep_cases (order : Listing) (s : Store) (policy : WildcardPolicy) (now : Instant) :
    Coverage.passOrKeep order.keeper s policy now = s ∨
      ∃ w, s.write w = .ok (Coverage.passOrKeep order.keeper s policy now) := by
  cases hpass : Coverage.pass order.keeper s policy now with
  | error cause => exact .inl (by rw [Coverage.passOrKeep, hpass])
  | ok answer =>
      have hkept : Coverage.passOrKeep order.keeper s policy now = answer.1 := by
        rw [Coverage.passOrKeep, hpass]
      rw [hkept]
      rcases Coverage.pass_eq_ok hpass with ⟨-, hsame⟩ | hwrite
      · exact .inl hsame
      · exact .inr ⟨_, hwrite⟩

theorem after_cases (s : PolicedStore) (c : Call) :
    (s.after c).rules = s.rules ∨ ∃ w, s.rules.write w = .ok (s.after c).rules := by
  cases c with
  | write w => exact (orKeep_cases s.rules _).imp_right fun h => ⟨w, h⟩
  | reload source batch now =>
      exact (orKeep_cases s.rules _).imp_right fun h => ⟨_, write_of_reload h⟩
  | cleanUp now => exact (orKeep_cases s.rules _).imp_right fun h => ⟨.removeExpired now, h⟩
  | cover order now => exact passOrKeep_cases order s.rules s.policy now
  | changePolicy policy covering order now saving =>
      cases covering with
      | true => exact passOrKeep_cases order s.rules policy now
      | false => exact .inl rfl

/-! ### Sequences of calls -/

theorem reachable_after {s : PolicedStore} (h : s.rules.Reachable) (c : Call) :
    (s.after c).rules.Reachable := by
  rcases after_cases s c with hsame | ⟨w, hw⟩
  · rw [hsame]
    exact h
  · exact .write w h hw

theorem limit_after (s : PolicedStore) (c : Call) : (s.after c).rules.limit = s.rules.limit := by
  rcases after_cases s c with hsame | ⟨w, hw⟩
  · rw [hsame]
  · rw [(Store.write_eq_ok hw).2.1]

theorem reachable_run (calls : List Call) {s : PolicedStore} (h : s.rules.Reachable) :
    (calls.foldl after s).rules.Reachable := by
  induction calls generalizing s with
  | nil => exact h
  | cons c rest ih => exact ih (reachable_after h c)

theorem limit_run (calls : List Call) (s : PolicedStore) :
    (calls.foldl after s).rules.limit = s.rules.limit := by
  induction calls generalizing s with
  | nil => rfl
  | cons c rest ih => exact (ih (s.after c)).trans (limit_after s c)

/-- Whatever is called on an empty store, one call after the other, whether or not each is refused:
the rules are found under their own domains and nowhere else, no domain has two of them, each is one
that a store accepts, which is a wildcard exactly when its domain starts with `*.`, and a limit that
was set is not passed. -/
theorem run_keeps_invariants (limit : Option Nat) (policy : WildcardPolicy) (calls : List Call) :
    let s := (calls.foldl after ⟨Store.empty limit, policy⟩).rules
    (∀ domain r, s.ruleFor domain = some r ↔ r ∈ s.rules ∧ r.domain = domain) ∧
      (s.rules.map (·.domain)).Nodup ∧
      (∀ r ∈ s.rules, r.fault? = none ∧
        (r.kind = .wildcard ↔ Name.star <+: r.domain.toList)) ∧
      ∀ most, limit = some most → s.size ≤ most := by
  intro s
  have hsound : s.Sound := (reachable_run calls (.empty limit)).sound
  have hlimit : s.limit = limit := limit_run calls _
  refine ⟨fun _ _ => hsound.ruleFor_eq_some_iff, hsound.distinct, fun r hr => ?_, ?_⟩
  · have haccepted := hsound.accepted r hr
    exact ⟨haccepted, Rule.kind_eq_wildcard_iff haccepted⟩
  · intro most hmost
    exact hsound.bounded most (hlimit.trans hmost)

end PolicedStore

end DnsFilter
