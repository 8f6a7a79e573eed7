import DnsFilter.Proofs.Coverage.Plan

/-! What a plan counts. Considering a rule ends in one of five ways, each with its own entries in the
books; over a list of rules the books say how many of them were looked at and how many were left out for
an explicit allow, and every rule that was looked at is accounted for once. -/

namespace DnsFilter.Coverage

variable {policy : WildcardPolicy} {now : Instant} {existing spared : List String}

/-- Whether a pass looks at the root of the rule. -/
def isExamined (policy : WildcardPolicy) (now : Instant) (r : Rule) : Bool :=
  isAsked policy r && !r.isExpired now

/-- Whether the rule is looked at, but stands over no name. -/
def isRootless (policy : WildcardPolicy) (now : Instant) (r : Rule) : Bool :=
  isExamined policy now r && (Name.rootOfWildcard? r.domain).isNone

/-- Whether the rule is looked at, and its root stays without a rule for an explicit allow. -/
def isLeftOut (policy : WildcardPolicy) (now : Instant) (existing spared : List String) (r : Rule) :
    Bool :=
  isExamined policy now r && (Name.rootOfWildcard? r.domain).any fun root =>
    !existing.contains root && (policy.respectAllowlist && spared.contains root)

/-- A pass does not look at the rules that it plans, since they are exact ones. -/
theorem isExamined_of_mem_batch {rules : List Rule} {q : Rule}
    (h : q ∈ (plan policy now rules).batch) : isExamined policy now q = false := by
  obtain ⟨r, -, hroot⟩ := exists_rootFor?_of_mem_batch h
  obtain ⟨root, -, -, -, -, -, -, -, rfl⟩ := rootFor?_eq_some_iff.mp hroot
  rfl

/-! ### One rule -/

/-- The ways in which considering a rule can end. -/
inductive Considered (policy : WildcardPolicy) (now : Instant) (existing spared : List String)
    (p : Plan) (r : Rule) : Plan → Prop
  | passedOver : isExamined policy now r = false → Considered policy now existing spared p r p
  | rootless : isExamined policy now r = true → Name.rootOfWildcard? r.domain = none →
      Considered policy now existing spared p r { p with examined := p.examined + 1 }
  | covered (root : String) : isExamined policy now r = true →
      Name.rootOfWildcard? r.domain = some root →
      root ∈ existing ∨ (∃ q ∈ p.batch, q.domain = root) →
      Considered policy now existing spared p r
        { p with examined := p.examined + 1, skippedExisting := p.skippedExisting + 1 }
  | leftOut (root : String) : isExamined policy now r = true →
      Name.rootOfWildcard? r.domain = some root → root ∉ existing →
      policy.respectAllowlist = true → root ∈ spared →
      Considered policy now existing spared p r
        { p with examined := p.examined + 1, skippedAllowed := p.skippedAllowed + 1 }
  | planned (root : String) : isExamined policy now r = true →
      Name.rootOfWildcard? r.domain = some root → root ∉ existing →
      (∀ q ∈ p.batch, q.domain ≠ root) → ¬ (policy.respectAllowlist = true ∧ root ∈ spared) →
      Considered policy now existing spared p r
        { p with examined := p.examined + 1, batch := p.batch ++ [rootRule r root now] }

theorem considered (policy : WildcardPolicy) (now : Instant) (existing spared : List String)
    (p : Plan) (r : Rule) :
    Considered policy now existing spared p r (p.consider policy now existing spared r) := by
  unfold Plan.consider
  by_cases hexamined : isExamined policy now r = true
  · rw [if_pos (show (isAsked policy r && !r.isExpired now) = true from hexamined)]
    cases hroot : Name.rootOfWildcard? r.domain with
    | none => exact .rootless hexamined hroot
    | some root =>
        dsimp only
        split
        · rename_i hcovered
          simp only [Bool.or_eq_true, List.contains_iff_mem, List.any_eq_true, beq_iff_eq]
            at hcovered
          exact .covered root hexamined hroot hcovered
        · rename_i hnew
          simp only [Bool.or_eq_true, List.contains_iff_mem, List.any_eq_true, beq_iff_eq, not_or,
            not_exists, not_and] at hnew
          split
          · rename_i hspared
            rw [Bool.and_eq_true, List.contains_iff_mem] at hspared
            exact .leftOut root hexamined hroot hnew.1 hspared.1 hspared.2
          · rename_i hspared
            rw [Bool.and_eq_true, List.contains_iff_mem] at hspared
            exact .planned root hexamined hroot hnew.1 hnew.2 hspared
  · rw [if_neg (show ¬ (isAsked policy r && !r.isExpired now) = true from hexamined)]
    exact .passedOver (Bool.eq_false_iff.mpr hexamined)

/-! ### A list of rules -/

/-- What the books of a plan say after the rules `seen`. -/
structure Plan.Accounts (policy : WildcardPolicy) (now : Instant) (existing spared : List String)
    (seen : List Rule) (p : Plan) : Prop where
  examined : p.examined = seen.countP (isExamined policy now)
  leftOut : p.skippedAllowed = seen.countP (isLeftOut policy now existing spared)
  balance : p.examined =
    p.skippedExisting + p.skippedAllowed + p.batch.length + seen.countP (isRootless policy now)
  unspared : ∀ q ∈ p.batch, ¬ (policy.respectAllowlist = true ∧ q.domain ∈ spared)

theorem isLeftOut_of_root {r : Rule} {root : String} (hlooked : isExamined policy now r = true)
    (hroot : Name.rootOfWildcard? r.domain = some root) :
    isLeftOut policy now existing spared r = true ↔
      root ∉ existing ∧ policy.respectAllowlist = true ∧ root ∈ spared := by
  simp [isLeftOut, hlooked, hroot]

theorem isRootless_of_root {r : Rule} {root : String}
    (hroot : Name.rootOfWildcard? r.domain = some root) : isRootless policy now r = false := by
  simp [isRootless, hroot]

/-- One more rule keeps the books right. A root that is spared is never planned, so that it makes no
difference to the count of those left out that the planned ones are asked for first. -/
theorem Plan.Accounts.consider {seen : List Rule} {p : Plan}
    (h : p.Accounts policy now existing spared seen) (r : Rule) :
    (p.consider policy now existing spared r).Accounts policy now existing spared
      (seen ++ [r]) := by
  obtain ⟨hexamined, hleftOut, hbalance, hunspared⟩ := h
  have hstep := considered policy now existing spared p r
  generalize p.consider policy now existing spared r = next at hstep
  cases hstep with
  | passedOver hover =>
      have hout : isLeftOut policy now existing spared r = false := by simp [isLeftOut, hover]
      have hless : isRootless policy now r = false := by simp [isRootless, hover]
      refine ⟨?_, ?_, ?_, hunspared⟩
      · simp [hover, hexamined]
      · simp [hout, hleftOut]
      · simp [hless, hbalance]
  | rootless hlooked hroot =>
      have hout : isLeftOut policy now existing spared r = false := by simp [isLeftOut, hroot]
      have hless : isRootless policy now r = true := by simp [isRootless, hlooked, hroot]
      refine ⟨?_, ?_, ?_, hunspared⟩
      · simp [hlooked, hexamined]
      · simp [hout, hleftOut]
      · simp only [List.countP_append, List.countP_singleton, hless, if_true]
        omega
  | covered root hlooked hroot hcovered =>
      have hout : isLeftOut policy now existing spared r = false := by
        rw [Bool.eq_false_iff, Ne, isLeftOut_of_root hlooked hroot]
        rintro ⟨hnew, hspared⟩
        rcases hcovered with hold | ⟨q, hq, rfl⟩
        · exact hnew hold
        · exact hunspared q hq hspared
      refine ⟨?_, ?_, ?_, hunspared⟩
      · simp [hlooked, hexamined]
      · simp [hout, hleftOut]
      · simp only [List.countP_append, List.countP_singleton, isRootless_of_root hroot,
          Bool.false_eq_true, if_false]
        omega
  | leftOut root hlooked hroot hnew hrespect hspared =>
      have hout : isLeftOut policy now existing spared r = true :=
        (isLeftOut_of_root hlooked hroot).mpr ⟨hnew, hrespect, hspared⟩
      refine ⟨?_, ?_, ?_, hunspared⟩
      · simp [hlooked, hexamined]
      · simp [hout, hleftOut]
      · simp only [List.countP_append, List.countP_singleton, isRootless_of_root hroot,
          Bool.false_eq_true, if_false]
        omega
  | planned root hlooked hroot hnew hfresh hspared =>
      have hout : isLeftOut policy now existing spared r = false := by
        rw [Bool.eq_false_iff, Ne, isLeftOut_of_root hlooked hroot]
        exact fun hleft => hspared hleft.2
      refine ⟨?_, ?_, ?_, ?_⟩
      · simp [hlooked, hexamined]
      · simp [hout, hleftOut]
      · simp only [List.countP_append, List.countP_singleton, isRootless_of_root hroot,
          Bool.false_eq_true, if_false, List.length_append, List.length_singleton]
        omega
      · intro q hq
        rw [List.mem_append, List.mem_singleton] at hq
        rcases hq with hold | rfl
        · exact hunspared q hold
        · exact hspared

theorem Plan.Accounts.foldl_consider {seen : List Rule} {p : Plan}
    (h : p.Accounts policy now existing spared seen) (rules : List Rule) :
    (rules.foldl (Plan.consider policy now existing spared) p).Accounts policy now existing spared
      (seen ++ rules) := by
  induction rules generalizing seen p with
  | nil =>
      rw [List.append_nil]
      exact h
  | cons r rest ih =>
      have hrest := ih (h.consider r)
      rwa [List.append_assoc, List.singleton_append] at hrest

theorem accounts_plan (policy : WildcardPolicy) (now : Instant) (rules : List Rule) :
    (plan policy now rules).Accounts policy now (rules.map (·.domain)) (allowedNames rules now)
      rules := by
  have hempty : Plan.empty.Accounts policy now (rules.map (·.domain)) (allowedNames rules now) [] :=
    ⟨rfl, rfl, rfl, by simp [Plan.empty]⟩
  exact hempty.foldl_consider rules

end DnsFilter.Coverage
