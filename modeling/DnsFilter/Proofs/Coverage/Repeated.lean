import DnsFilter.Proofs.Coverage.Capacity
import DnsFilter.Proofs.Coverage.Counts

/-! A pass made again. After a pass no root is due: each one that was has a rule by then, and the new
rules, though some of them may be allows, take no root out of the count that was not out of it before.
So the same pass once more finds nothing to add, and its outcome is known from the first one. -/

namespace DnsFilter.Coverage

open Store

variable {order again : Listing} {s next : Store} {policy : WildcardPolicy} {now : Instant}
  {outcome : Outcome}

/-! ### After a pass -/

theorem nodup_append_batch (order : Listing) (hs : s.Sound) :
    ((s.rules ++ (plan policy now (order.list s.rules)).batch).map (·.domain)).Nodup := by
  rw [List.map_append, List.nodup_append]
  refine ⟨hs.distinct, nodup_batch policy now _, ?_⟩
  rintro domain hold added hadded rfl
  obtain ⟨q, hq, rfl⟩ := List.mem_map.mp hadded
  exact domain_notMem_of_mem_batch hq (((order.perm s.rules).map Rule.domain).mem_iff.mpr hold)

/-- A pass puts the rules that it has planned behind the old ones, and counts them. -/
theorem eq_append_of_pass (hs : s.Sound)
    (h : pass order.keeper s policy now = .ok (next, outcome)) :
    next = { s with rules := s.rules ++ (plan policy now (order.list s.rules)).batch } ∧
      outcome = (plan policy now (order.list s.rules)).outcome
        (plan policy now (order.list s.rules)).batch.length := by
  have hnext := rules_of_pass h
  rw [foldl_placeMissing_eq_append (nodup_append_batch order hs)] at hnext
  refine ⟨hnext, ?_⟩
  rw [pass_keeper] at h
  generalize plan policy now (order.list s.rules) = p at h hnext
  by_cases hempty : p.batch.isEmpty = true
  · rw [if_pos hempty] at h
    cases h
    rw [List.isEmpty_iff.mp hempty]
    rfl
  · rw [if_neg hempty] at h
    cases hadd : s.addMissing p.batch with
    | error cause =>
        rw [hadd] at h
        cases h
    | ok answer =>
        rw [hadd] at h
        cases h
        have hgrown : s.size + answer.2 = s.size + p.batch.length := by
          rw [← size_of_addMissing hadd, hnext, size, size, List.length_append]
        rw [Nat.add_left_cancel hgrown]

theorem mem_pass_of_mem (hs : s.Sound) (h : pass order.keeper s policy now = .ok (next, outcome))
    {r : Rule} (hr : r ∈ s.rules) : r ∈ next.rules := by
  rw [(eq_append_of_pass hs h).1]
  exact List.mem_append_left _ hr

theorem allowedWithin_of_pass (hs : s.Sound)
    (h : pass order.keeper s policy now = .ok (next, outcome)) {root : String}
    (hallowed : s.AllowedWithin root now) : next.AllowedWithin root now := by
  obtain ⟨a, ha, hallow⟩ := hallowed
  exact ⟨a, mem_pass_of_mem hs h ha, hallow⟩

/-- A root that was due has a rule after the pass. -/
theorem exists_of_isDue (hs : s.Reachable)
    (h : pass order.keeper s policy now = .ok (next, outcome))
    (hmode : policy.mode ≠ .subdomainsOnly) {w : Rule} {root : String}
    (hdue : s.IsDue policy now w root) : ∃ q ∈ next.rules, q.domain = root :=
  ⟨rootRule w root now, (mem_pass_iff hs h hmode).mpr (.inr ⟨w, root, hdue, rfl⟩), rfl⟩

/-- No root is due after a pass: one that is missing then was missing before, and has been covered. -/
theorem not_isDue_of_pass (hs : s.Reachable)
    (h : pass order.keeper s policy now = .ok (next, outcome))
    (hmode : policy.mode ≠ .subdomainsOnly) (w : Rule) (root : String) :
    ¬ next.IsDue policy now w root := by
  rintro ⟨hw, hdomain, hlive, hmissing, hspared⟩
  have hdue : s.IsDue policy now w root :=
    { mem := mem_of_mem_pass_of_wildcard hs h hmode hw hdomain
      domain_eq := hdomain
      live := hlive
      missing := fun r hr => hmissing r (mem_pass_of_mem hs.sound h hr)
      not_spared := fun hboth => hspared ⟨hboth.1, allowedWithin_of_pass hs.sound h hboth.2⟩ }
  obtain ⟨q, hq, hroot⟩ := exists_of_isDue hs h hmode hdue
  exact hmissing q hq hroot

theorem batch_eq_nil_of_pass (hs : s.Reachable)
    (h : pass order.keeper s policy now = .ok (next, outcome)) :
    (plan policy now (again.list next.rules)).batch = [] := by
  have hnone : rootRules policy now (again.list next.rules) = [] := by
    by_cases hmode : policy.mode = .subdomainsOnly
    · exact rootRules_of_subdomainsOnly hmode _
    · refine List.eq_nil_iff_forall_not_mem.mpr fun q hq => ?_
      obtain ⟨w, root, hdue, -⟩ := (mem_rootRules_iff (reachable_of_pass hs h).sound hmode).mp hq
      exact not_isDue_of_pass hs h hmode w root hdue
  rw [batch_plan, hnone, List.foldl_nil]

/-! ### What is counted again -/

theorem isExamined_iff {w : Rule} (h : w.fault? = none) {root : String}
    (hdomain : w.domain = Name.wildcardOver root.toList) :
    isExamined policy now w = true ↔ policy.mode ≠ .subdomainsOnly ∧ w.isExpired now = false := by
  have hkind : w.kind = .wildcard :=
    beq_iff_eq.mp ((Rule.isWildcard_iff h).mpr ⟨root.toList, hdomain⟩)
  rw [isExamined, Bool.and_eq_true, isAsked_iff hdomain, and_iff_right hkind, Bool.not_eq_true']

/-- What it takes for the root of a stored rule to be left out, said of the store. -/
theorem isLeftOut_iff (hs : s.Sound) {w : Rule} (hw : w ∈ s.rules) :
    isLeftOut policy now ((order.list s.rules).map (·.domain)) (allowedNames (order.list s.rules) now)
        w = true ↔
      ∃ root, w.domain = Name.wildcardOver root.toList ∧
        (policy.mode ≠ .subdomainsOnly ∧ w.isExpired now = false) ∧
        (∀ r ∈ s.rules, r.domain ≠ root) ∧
        policy.respectAllowlist = true ∧ s.AllowedWithin root now := by
  have haccepted := hs.accepted w hw
  have hexisting {root : String} :
      root ∉ (order.list s.rules).map (·.domain) ↔ ∀ r ∈ s.rules, r.domain ≠ root := by
    rw [((order.perm s.rules).map Rule.domain).mem_iff]
    simp
  rw [isLeftOut, Bool.and_eq_true, Option.any_eq_true, ← exists_and_left]
  refine exists_congr fun root => ?_
  rw [and_left_comm, rootOfWildcard?_eq_some_iff haccepted]
  refine and_congr_right fun hdomain => ?_
  simp only [isExamined_iff haccepted hdomain, Bool.and_eq_true, Bool.not_eq_true',
    ← Bool.not_eq_true, List.contains_iff_mem, hexisting, mem_allowedNames_listed_iff]

/-- A pass leaves out the same roots when it is made again. -/
theorem isLeftOut_of_pass_iff (hs : s.Reachable)
    (h : pass order.keeper s policy now = .ok (next, outcome)) {w : Rule} (hw : w ∈ s.rules) :
    isLeftOut policy now ((again.list next.rules).map (·.domain))
        (allowedNames (again.list next.rules) now) w = true ↔
      isLeftOut policy now ((order.list s.rules).map (·.domain))
        (allowedNames (order.list s.rules) now) w = true := by
  by_cases hmode : policy.mode = .subdomainsOnly
  · rw [next_eq_of_subdomainsOnly h hmode, isLeftOut_iff hs.sound hw, isLeftOut_iff hs.sound hw]
  rw [isLeftOut_iff (reachable_of_pass hs h).sound (mem_pass_of_mem hs.sound h hw),
    isLeftOut_iff hs.sound hw]
  refine exists_congr fun root => and_congr_right fun hdomain => and_congr_right fun hlooked => ?_
  constructor
  · rintro ⟨hmissing, hrespect, -⟩
    have hold : ∀ r ∈ s.rules, r.domain ≠ root :=
      fun r hr => hmissing r (mem_pass_of_mem hs.sound h hr)
    refine ⟨hold, hrespect, ?_⟩
    -- were it not allowed before, the first pass would have covered the root
    by_contra hspared
    obtain ⟨q, hq, hroot⟩ := exists_of_isDue hs h hmode
      ⟨hw, hdomain, hlooked.2, hold, fun hboth => hspared hboth.2⟩
    exact hmissing q hq hroot
  · rintro ⟨hmissing, hrespect, hallowed⟩
    refine ⟨?_, hrespect, allowedWithin_of_pass hs.sound h hallowed⟩
    intro q hq hroot
    rcases (mem_pass_iff hs h hmode).mp hq with hold | ⟨v, name, hdue, rfl⟩
    · exact hmissing q hold hroot
    · obtain rfl : name = root := hroot
      exact hdue.not_spared ⟨hrespect, hallowed⟩

/-- What a pass does not look at by itself it does not count, so that the rules it has added make no
difference to a count of those it looks at. -/
theorem countP_of_pass (hs : s.Reachable)
    (h : pass order.keeper s policy now = .ok (next, outcome)) {f g : Rule → Bool}
    (hnew : ∀ r, isExamined policy now r = false → g r = false)
    (hold : ∀ r ∈ s.rules, g r = true ↔ f r = true) :
    (again.list next.rules).countP g = (order.list s.rules).countP f := by
  have hadded : (plan policy now (order.list s.rules)).batch.countP g = 0 := by
    rw [List.countP_eq_zero]
    intro q hq hg
    rw [hnew q (isExamined_of_mem_batch hq)] at hg
    cases hg
  calc
    (again.list next.rules).countP g = next.rules.countP g := (again.perm next.rules).countP_eq g
    _ = s.rules.countP g + (plan policy now (order.list s.rules)).batch.countP g := by
      rw [(eq_append_of_pass hs.sound h).1, List.countP_append]
    _ = s.rules.countP f := by rw [hadded, Nat.add_zero, List.countP_congr hold]
    _ = (order.list s.rules).countP f := ((order.perm s.rules).countP_eq f).symm

theorem examined_again (hs : s.Reachable)
    (h : pass order.keeper s policy now = .ok (next, outcome)) :
    (plan policy now (again.list next.rules)).examined =
      (plan policy now (order.list s.rules)).examined := by
  rw [(accounts_plan policy now (again.list next.rules)).examined,
    (accounts_plan policy now (order.list s.rules)).examined]
  exact countP_of_pass hs h (fun _ hover => hover) fun _ _ => Iff.rfl

theorem skippedAllowed_again (hs : s.Reachable)
    (h : pass order.keeper s policy now = .ok (next, outcome)) :
    (plan policy now (again.list next.rules)).skippedAllowed =
      (plan policy now (order.list s.rules)).skippedAllowed := by
  rw [(accounts_plan policy now (again.list next.rules)).leftOut,
    (accounts_plan policy now (order.list s.rules)).leftOut]
  refine countP_of_pass hs h (fun r hover => ?_) fun r hr => isLeftOut_of_pass_iff hs h hr
  simp [isLeftOut, hover]

/-- With as many wildcards looked at as before, as many left out and none to plan for, those that were
planned for must be counted among the roots that have a rule. -/
theorem skippedExisting_again (hs : s.Reachable)
    (h : pass order.keeper s policy now = .ok (next, outcome)) :
    (plan policy now (again.list next.rules)).skippedExisting =
      (plan policy now (order.list s.rules)).skippedExisting +
        (plan policy now (order.list s.rules)).batch.length := by
  have hrootless : (again.list next.rules).countP (isRootless policy now) =
      (order.list s.rules).countP (isRootless policy now) := by
    refine countP_of_pass hs h (fun r hover => ?_) fun _ _ => Iff.rfl
    simp [isRootless, hover]
  have hbefore := (accounts_plan policy now (order.list s.rules)).balance
  have hafter := (accounts_plan policy now (again.list next.rules)).balance
  rw [batch_eq_nil_of_pass hs h, List.length_nil, examined_again hs h, skippedAllowed_again hs h,
    hrootless] at hafter
  omega

/-- A pass that is made once more after a successful one, under the same policy and at the same time,
succeeds, and leaves the store as it is. It looks at the same number of wildcards and spares the same
number of roots; the roots that had a rule are now those that had one before and those that got one. -/
theorem pass_again (order again : Listing) (s next : Store) (hs : s.Reachable)
    (policy : WildcardPolicy) (now : Instant) (outcome : Outcome)
    (hpass : pass order.keeper s policy now = .ok (next, outcome)) :
    pass again.keeper next policy now = .ok (next,
      { examined := outcome.examined
        skippedExisting := outcome.skippedExisting + outcome.added
        skippedAllowed := outcome.skippedAllowed
        added := 0 }) := by
  have hempty : (plan policy now (again.list next.rules)).batch = [] :=
    batch_eq_nil_of_pass hs hpass
  rw [pass_keeper, (eq_append_of_pass hs.sound hpass).2]
  simp only [hempty, List.isEmpty_nil, if_true, Plan.outcome, examined_again hs hpass,
    skippedAllowed_again hs hpass, skippedExisting_again hs hpass]

/-- The second pass finds the root covered that the first one has covered. -/
theorem pass_again_sample : uncovered.Reachable ∧
    pass Listing.asStored.keeper uncovered ⟨.smart, true⟩ ⟨200, 0⟩ =
      .ok (covered, ⟨3, 1, 1, 1⟩) ∧
    pass Listing.reversed.keeper covered ⟨.smart, true⟩ ⟨200, 0⟩ = .ok (covered, ⟨3, 2, 1, 0⟩) := by
  have hpass : pass Listing.asStored.keeper uncovered ⟨.smart, true⟩ ⟨200, 0⟩ =
      .ok (covered, ⟨3, 1, 1, 1⟩) := by decide +kernel
  exact ⟨reachable_uncovered, hpass, pass_again .asStored .reversed uncovered covered
    reachable_uncovered ⟨.smart, true⟩ ⟨200, 0⟩ ⟨3, 1, 1, 1⟩ hpass⟩

end DnsFilter.Coverage
