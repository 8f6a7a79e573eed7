import DnsFilter.Coverage.Pass
import DnsFilter.Proofs.Store.Reachable

/-! Coverage passes over the rule store, in whatever order it lists its rules. A pass makes at most one
write, that of the rules it has planned. -/

namespace DnsFilter

namespace Coverage

variable {order : Listing} {s next : Store} {policy : WildcardPolicy} {now : Instant}
  {outcome : Outcome}

theorem pass_eq {σ : Type} (k : Keeper σ) (s : σ) (policy : WildcardPolicy) (now : Instant) :
    pass k s policy now =
      let p := plan policy now (k.view s).rules
      if p.batch.isEmpty then .ok (s, p.outcome 0)
      else (k.addMissing s p.batch).map fun answer => (answer.1, p.outcome answer.2) := rfl

theorem pass_keeper (order : Listing) (s : Store) (policy : WildcardPolicy) (now : Instant) :
    pass order.keeper s policy now =
      let p := plan policy now (order.list s.rules)
      if p.batch.isEmpty then .ok (s, p.outcome 0)
      else (s.addMissing p.batch).map fun answer => (answer.1, p.outcome answer.2) :=
  pass_eq order.keeper s policy now

theorem pass_eq_ok (h : pass order.keeper s policy now = .ok (next, outcome)) :
    ((plan policy now (order.list s.rules)).batch = [] ∧ next = s) ∨
      s.write (.addMissing (plan policy now (order.list s.rules)).batch) = .ok next := by
  rw [pass_keeper] at h
  by_cases hempty : (plan policy now (order.list s.rules)).batch.isEmpty = true
  · rw [if_pos hempty] at h
    cases h
    exact .inl ⟨List.isEmpty_iff.mp hempty, rfl⟩
  · rw [if_neg hempty] at h
    right
    cases hadd : s.addMissing (plan policy now (order.list s.rules)).batch with
    | error cause =>
        rw [hadd] at h
        cases h
    | ok added =>
        rw [hadd] at h
        cases h
        rw [Store.write, hadd]
        rfl

/-- After a pass the planned rules are there beside the old ones. -/
theorem rules_of_pass (h : pass order.keeper s policy now = .ok (next, outcome)) :
    next = { s with rules :=
      (plan policy now (order.list s.rules)).batch.foldl Store.placeMissing s.rules } := by
  rcases pass_eq_ok h with ⟨hempty, rfl⟩ | hwrite
  · rw [hempty]
    rfl
  · exact (Store.write_eq_ok hwrite).2.1

theorem reachable_of_pass (hs : s.Reachable)
    (h : pass order.keeper s policy now = .ok (next, outcome)) : next.Reachable := by
  rcases pass_eq_ok h with ⟨-, rfl⟩ | hwrite
  · exact hs
  · exact .write _ hs hwrite

end Coverage

end DnsFilter
