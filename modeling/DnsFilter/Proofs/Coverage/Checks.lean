import DnsFilter.Proofs.Coverage.Repeated
import DnsFilter.Proofs.Coverage.Allowed
import DnsFilter.Proofs.Decision.Verdict
import DnsFilter.Proofs.Name.Normal

/-! What checks see of a coverage pass. A rule that a pass adds is found about its own domain and about
no other name: it is an exact one, so that no search for wildcards comes upon it. About its domain it
decides for as long as the wildcard that it stands for, and once both have run out it is as if the pass
had not been made. -/

namespace DnsFilter

namespace Coverage

open Store

variable {order : Listing} {s next : Store} {policy : WildcardPolicy} {now t : Instant}
  {outcome : Outcome} {q : Rule}

/-! ### The rules that are new -/

theorem isDue_of_new (hs : s.Reachable) (h : pass order.keeper s policy now = .ok (next, outcome))
    (hq : q ∈ next.rules) (hnew : q ∉ s.rules) :
    ∃ w root, s.IsDue policy now w root ∧ q = rootRule w root now := by
  by_cases hmode : policy.mode = .subdomainsOnly
  · rw [next_eq_of_subdomainsOnly h hmode] at hq
    exact absurd hq hnew
  · exact ((mem_pass_iff hs h hmode).mp hq).resolve_left hnew

/-- The domain of a new rule is a name that may be asked for. -/
theorem queryFault?_of_new (hs : s.Reachable)
    (h : pass order.keeper s policy now = .ok (next, outcome)) (hq : q ∈ next.rules)
    (hnew : q ∉ s.rules) : Name.queryFault? q.domain = none := by
  have haccepted := (reachable_of_pass hs h).sound.accepted q hq
  obtain ⟨w, root, -, rfl⟩ := isDue_of_new hs h hq hnew
  exact Rule.queryFault?_of_exact haccepted rfl

theorem ruleFor_eq_of_pass (hs : s.Reachable)
    (h : pass order.keeper s policy now = .ok (next, outcome)) {domain : String}
    (hold : ∀ q ∈ next.rules, q ∉ s.rules → q.domain ≠ domain) :
    next.ruleFor domain = s.ruleFor domain := by
  ext r
  rw [(reachable_of_pass hs h).sound.ruleFor_eq_some_iff, hs.sound.ruleFor_eq_some_iff]
  refine and_congr_left fun hdomain => ⟨fun hr => ?_, mem_pass_of_mem hs.sound h⟩
  by_contra hnew
  exact hold r hr hnew hdomain

/-- No new rule is a wildcard, so that a pass makes no difference to what is found over a name. -/
theorem ruleFor_wildcardOver (hs : s.Reachable)
    (h : pass order.keeper s policy now = .ok (next, outcome)) (parent : List Char) :
    next.ruleFor (Name.wildcardOver parent) = s.ruleFor (Name.wildcardOver parent) := by
  refine ruleFor_eq_of_pass hs h fun q hq hnew => ?_
  exact Name.ne_wildcardOver_of_queryFault? (queryFault?_of_new hs h hq hnew) parent

theorem ruleFor_of_new (hs : s.Reachable)
    (h : pass order.keeper s policy now = .ok (next, outcome)) (hq : q ∈ next.rules)
    (hnew : q ∉ s.rules) : next.ruleFor q.domain = some q ∧ s.ruleFor q.domain = none := by
  refine ⟨(reachable_of_pass hs h).sound.ruleFor_eq_some_iff.mpr ⟨hq, rfl⟩, ?_⟩
  obtain ⟨w, root, hdue, rfl⟩ := isDue_of_new hs h hq hnew
  refine List.find?_eq_none.mpr fun r hr hdomain => ?_
  exact hdue.missing r hr (beq_iff_eq.mp hdomain)

/-! ### What is found about a name -/

/-- What is live about a name differs by no more than what is live of the rule for the name itself. -/
theorem liveMatches_of_pass (hs : s.Reachable)
    (h : pass order.keeper s policy now = .ok (next, outcome)) {name : String}
    (hname : Name.queryFault? name = none)
    (hown : (next.ruleFor name).toList.filter (fun r => !r.isExpired t) =
      (s.ruleFor name).toList.filter fun r => !r.isExpired t) :
    next.liveMatches name t = s.liveMatches name t := by
  have hwildcards : ((Name.parents name.toList).map Name.wildcardOver).filterMap next.ruleFor =
      ((Name.parents name.toList).map Name.wildcardOver).filterMap s.ruleFor := by
    refine List.filterMap_congr fun domain hdomain => ?_
    obtain ⟨parent, -, rfl⟩ := List.mem_map.mp hdomain
    exact ruleFor_wildcardOver hs h parent
  have hfound (u : Store) : u.liveMatches name t =
      (u.ruleFor name).toList.filter (fun r => !r.isExpired t) ++
        (((Name.parents name.toList).map Name.wildcardOver).filterMap u.ruleFor).filter
          fun r => !r.isExpired t := by
    rw [liveMatches, findMatches_eq_filterMap u hname, Name.probes, List.filterMap_cons,
      ← List.filter_append]
    cases u.ruleFor name <;> rfl
  rw [hfound, hfound, hown, hwildcards]

theorem check_of_pass (hs : s.Reachable)
    (h : pass order.keeper s policy now = .ok (next, outcome)) {typed : String}
    (hold : ∀ q ∈ next.rules, q ∉ s.rules → q.domain ≠ Name.normalize typed) :
    next.view.check typed t = s.view.check typed t := by
  refine check_congr fun hname => liveMatches_of_pass hs h hname ?_
  rw [ruleFor_eq_of_pass hs h hold]

/-- When a new rule has run out, its name is answered for as if the pass had not been made. -/
theorem check_of_expired (hs : s.Reachable)
    (h : pass order.keeper s policy now = .ok (next, outcome)) (hq : q ∈ next.rules)
    (hnew : q ∉ s.rules) (hexpired : q.isExpired t = true) {typed : String}
    (htyped : Name.normalize typed = q.domain) :
    next.view.check typed t = s.view.check typed t := by
  refine check_congr fun hname => liveMatches_of_pass hs h hname ?_
  obtain ⟨hadded, hmissing⟩ := ruleFor_of_new hs h hq hnew
  rw [htyped, hadded, hmissing]
  simp [hexpired]

/-- While a new rule is live, it decides about its name. -/
theorem check_of_live (hs : s.Reachable)
    (h : pass order.keeper s policy now = .ok (next, outcome)) (hq : q ∈ next.rules)
    (hnew : q ∉ s.rules) (hlive : q.isExpired t = false) {typed : String}
    (htyped : Name.normalize typed = q.domain) :
    ∃ decision, next.view.check typed t = .ok decision ∧ decision.winner = some q ∧
      decision.action = q.action := by
  have hname : Name.queryFault? (Name.normalize typed) = none :=
    htyped ▸ queryFault?_of_new hs h hq hnew
  exact (reachable_of_pass hs h).sound.check_of_exact hname hq htyped.symm hlive

/-! ### What checks see -/

/-- After a successful pass every check is answered as it was before, at whatever time, unless it asks
for the domain of a rule that the pass has added. Such a domain is the name under a stored wildcard, in
its normal spelling. As long as that wildcard is live, the new rule decides about the name, as the
wildcard does about the names below it; from its expiry on the name is answered for as before. -/
theorem pass_seen_by_checks (order : Listing) (s next : Store) (hs : s.Reachable)
    (policy : WildcardPolicy) (now : Instant) (outcome : Outcome)
    (hpass : pass order.keeper s policy now = .ok (next, outcome)) :
    (∀ typed t, (∀ q ∈ next.rules, q ∉ s.rules → q.domain ≠ Name.normalize typed) →
        next.view.check typed t = s.view.check typed t) ∧
      ∀ q ∈ next.rules, q ∉ s.rules →
        Name.normalize q.domain = q.domain ∧
        ∃ w ∈ s.rules, w.kind = .wildcard ∧ w.domain = Name.wildcardOver q.domain.toList ∧
          ∀ typed t, Name.normalize typed = q.domain →
            (w.isExpired t = false → ∃ decision, next.view.check typed t = .ok decision ∧
              decision.winner = some q ∧ decision.action = w.action) ∧
            (w.isExpired t = true → next.view.check typed t = s.view.check typed t) := by
  refine ⟨fun typed t hold => check_of_pass hs hpass hold, fun q hq hnew => ⟨?_, ?_⟩⟩
  · have haccepted := (reachable_of_pass hs hpass).sound.accepted q hq
    exact Name.normalize_eq_self (Rule.fault?_eq_none_iff.mp haccepted).1
  · obtain ⟨w, root, hdue, rfl⟩ := isDue_of_new hs hpass hq hnew
    have hkind := (Rule.isWildcard_iff (hs.sound.accepted w hdue.mem)).mpr
      ⟨root.toList, hdue.domain_eq⟩
    refine ⟨w, hdue.mem, beq_iff_eq.mp hkind, hdue.domain_eq, fun typed t htyped => ⟨?_, ?_⟩⟩
    -- the new rule runs out when its wildcard does
    · intro hlive
      exact check_of_live hs hpass hq hnew hlive htyped
    · intro hexpired
      exact check_of_expired hs hpass hq hnew hexpired htyped

/-- The name under a wildcard that runs out at second 500, until then and from then on. -/
theorem pass_seen_by_checks_sample : uncovered.Reachable ∧
    pass Listing.reversed.keeper uncovered ⟨.smart, true⟩ ⟨200, 0⟩ = .ok (covered, ⟨3, 1, 1, 1⟩) ∧
    covered.view.check "x.ads.com" ⟨499, 0⟩ = uncovered.view.check "x.ads.com" ⟨499, 0⟩ ∧
    (∃ decision, covered.view.check " Ads.com. " ⟨499, 0⟩ = .ok decision ∧
      decision.action = .block) ∧
    covered.view.check " Ads.com. " ⟨500, 0⟩ = uncovered.view.check " Ads.com. " ⟨500, 0⟩ := by
  have hpass : pass Listing.reversed.keeper uncovered ⟨.smart, true⟩ ⟨200, 0⟩ =
      .ok (covered, ⟨3, 1, 1, 1⟩) := by decide +kernel
  obtain ⟨hothers, hadded⟩ := pass_seen_by_checks .reversed uncovered covered reachable_uncovered
    ⟨.smart, true⟩ ⟨200, 0⟩ ⟨3, 1, 1, 1⟩ hpass
  obtain ⟨q, hq, hnew, hroot⟩ : ∃ q ∈ covered.rules, q ∉ uncovered.rules ∧
      q.domain = Name.normalize " Ads.com. " := by decide +kernel
  obtain ⟨-, w, hw, -, hdomain, hchecks⟩ := hadded q hq hnew
  have hwildcard : ∀ w ∈ uncovered.rules,
      w.domain = Name.wildcardOver (Name.normalize " Ads.com. ").toList →
      w.isExpired ⟨499, 0⟩ = false ∧ w.isExpired ⟨500, 0⟩ = true ∧ w.action = .block := by
    decide +kernel
  obtain ⟨hlive, hexpired, hblock⟩ := hwildcard w hw (hroot ▸ hdomain)
  refine ⟨reachable_uncovered, hpass, hothers _ _ (by decide +kernel), ?_, ?_⟩
  · obtain ⟨decision, hcheck, -, haction⟩ := (hchecks _ _ hroot.symm).1 hlive
    exact ⟨decision, hcheck, haction.trans hblock⟩
  · exact (hchecks _ _ hroot.symm).2 hexpired

end Coverage

end DnsFilter
