import DnsFilter.Coverage.Plan
import DnsFilter.Proofs.Name.Labels
import DnsFilter.Proofs.Store.Reachable

/-! The plan of a coverage pass. Each rule by itself tells which rule is to cover its root, if any, and
the batch of the plan is the list of these, the first one for each root. -/

namespace DnsFilter.Coverage

variable {policy : WildcardPolicy} {now : Instant} {existing spared : List String}

/-- The rule that is to cover the root of `r`, unless the root exists or is spared. -/
def rootFor? (policy : WildcardPolicy) (now : Instant) (existing spared : List String) (r : Rule) :
    Option Rule :=
  if isAsked policy r && !r.isExpired now then
    (Name.rootOfWildcard? r.domain).bind fun root =>
      if existing.contains root || (policy.respectAllowlist && spared.contains root) then none
      else some (rootRule r root now)
  else none

theorem isAsked_iff {r : Rule} {root : List Char} (h : r.domain = Name.wildcardOver root) :
    isAsked policy r = true ↔ r.kind = .wildcard ∧ policy.mode ≠ .subdomainsOnly := by
  have hstar : (Name.afterStar? r.domain.toList).isSome = true := by
    rw [h, Name.afterStar?_wildcardOver]
    rfl
  simp [isAsked, WildcardPolicy.coversRoot, hstar]

theorem rootFor?_eq_some_iff {r q : Rule} :
    rootFor? policy now existing spared r = some q ↔
      ∃ root, root ≠ "" ∧ r.domain = Name.wildcardOver root.toList ∧ r.kind = .wildcard ∧
        policy.mode ≠ .subdomainsOnly ∧ r.isExpired now = false ∧ root ∉ existing ∧
        ¬ (policy.respectAllowlist = true ∧ root ∈ spared) ∧ q = rootRule r root now := by
  unfold rootFor?
  constructor
  · intro h
    split at h
    · rename_i hasked
      obtain ⟨root, hroot, hq⟩ := Option.bind_eq_some_iff.mp h
      obtain ⟨hne, hdomain⟩ := Name.rootOfWildcard?_eq_some_iff.mp hroot
      rw [Bool.and_eq_true, isAsked_iff hdomain, Bool.not_eq_true'] at hasked
      split at hq
      · cases hq
      · rename_i hfree
        cases hq
        simp only [Bool.or_eq_true, Bool.and_eq_true, List.contains_iff_mem, not_or] at hfree
        exact ⟨root, hne, hdomain, hasked.1.1, hasked.1.2, hasked.2, hfree.1, hfree.2, rfl⟩
    · cases h
  · rintro ⟨root, hne, hdomain, hkind, hmode, hlive, hnew, hspared, rfl⟩
    have hasked : (isAsked policy r && !r.isExpired now) = true := by
      rw [Bool.and_eq_true, isAsked_iff hdomain, hlive]
      exact ⟨⟨hkind, hmode⟩, rfl⟩
    have hfree : ¬ (existing.contains root ||
        (policy.respectAllowlist && spared.contains root)) = true := by
      simp only [Bool.or_eq_true, Bool.and_eq_true, List.contains_iff_mem, not_or]
      exact ⟨hnew, hspared⟩
    rw [if_pos hasked, Name.rootOfWildcard?_eq_some_iff.mpr ⟨hne, hdomain⟩, Option.bind_some,
      if_neg hfree]

theorem placeMissing_rootRule (batch : List Rule) (r : Rule) (root : String) (now : Instant) :
    Store.placeMissing batch (rootRule r root now) =
      if batch.any fun q => q.domain == root then batch else batch ++ [rootRule r root now] := rfl

theorem batch_consider (p : Plan) (r : Rule) :
    (p.consider policy now existing spared r).batch =
      match rootFor? policy now existing spared r with
      | some q => Store.placeMissing p.batch q
      | none => p.batch := by
  unfold Plan.consider rootFor?
  by_cases hasked : (isAsked policy r && !r.isExpired now) = true
  · rw [if_pos hasked, if_pos hasked]
    cases Name.rootOfWildcard? r.domain with
    | none => rfl
    | some root =>
        dsimp only [Option.bind_some]
        -- a root that is planned for already counts as existing even where it is also spared
        cases existing.contains root with
        | true => rfl
        | false =>
            cases policy.respectAllowlist && spared.contains root with
            | true => cases p.batch.any (fun q => q.domain == root) <;> rfl
            | false =>
                simp only [Bool.or_false, Bool.false_or, Bool.false_eq_true, if_false,
                  placeMissing_rootRule]
                cases p.batch.any (fun q => q.domain == root) <;> rfl
  · rw [if_neg hasked, if_neg hasked]

theorem batch_foldl_consider (rules : List Rule) (p : Plan) :
    (rules.foldl (Plan.consider policy now existing spared) p).batch =
      (rules.filterMap (rootFor? policy now existing spared)).foldl Store.placeMissing
        p.batch := by
  induction rules generalizing p with
  | nil => rfl
  | cons r rest ih =>
      rw [List.foldl_cons, ih, batch_consider]
      cases hroot : rootFor? policy now existing spared r with
      | none => rw [List.filterMap_cons_none hroot]
      | some q => rw [List.filterMap_cons_some hroot, List.foldl_cons]

/-- The rules that cover the roots of `rules`, one for each of these that has none there. -/
def rootRules (policy : WildcardPolicy) (now : Instant) (rules : List Rule) : List Rule :=
  rules.filterMap (rootFor? policy now (rules.map (·.domain)) (allowedNames rules now))

theorem batch_plan (policy : WildcardPolicy) (now : Instant) (rules : List Rule) :
    (plan policy now rules).batch = (rootRules policy now rules).foldl Store.placeMissing [] :=
  batch_foldl_consider rules Plan.empty

theorem exists_rootFor?_of_mem_batch {rules : List Rule} {q : Rule}
    (h : q ∈ (plan policy now rules).batch) : ∃ r ∈ rules,
      rootFor? policy now (rules.map (·.domain)) (allowedNames rules now) r = some q := by
  rw [batch_plan] at h
  rcases Store.mem_foldl (fun _ _ _ => Store.mem_placeMissing) _ h with hroot | hnil
  · exact List.mem_filterMap.mp hroot
  · exact absurd hnil List.not_mem_nil

theorem nodup_batch (policy : WildcardPolicy) (now : Instant) (rules : List Rule) :
    ((plan policy now rules).batch.map (·.domain)).Nodup := by
  rw [batch_plan]
  exact Store.foldl_distinct Store.map_domain_placeMissing _ List.nodup_nil

theorem domain_notMem_of_mem_batch {rules : List Rule} {q : Rule}
    (h : q ∈ (plan policy now rules).batch) : q.domain ∉ rules.map (·.domain) := by
  obtain ⟨r, -, hroot⟩ := exists_rootFor?_of_mem_batch h
  obtain ⟨root, -, -, -, -, -, hnew, -, rfl⟩ := rootFor?_eq_some_iff.mp hroot
  exact hnew

/-! ### Names that explicit allows speak for -/

theorem isLiveAllow_iff {r : Rule} : r.isLiveAllow now = true ↔
    r.action = .allow ∧ r.kind = .exact ∧ r.isExpired now = false := by
  unfold Rule.isLiveAllow Rule.isWildcard
  cases r.kind <;> simp

theorem mem_allowedNames_iff {rules : List Rule} {name : String} :
    name ∈ allowedNames rules now ↔ ∃ a ∈ rules, a.isLiveAllow now = true ∧
      (a.domain = name ∨ Name.isAbove name.toList a.domain.toList = true) := by
  unfold allowedNames
  simp only [List.mem_flatMap, List.mem_filter, List.mem_cons, List.mem_map]
  constructor
  · rintro ⟨a, ⟨ha, hallow⟩, hdomain | ⟨p, hp, rfl⟩⟩
    · exact ⟨a, ha, hallow, .inl hdomain.symm⟩
    · rw [Name.mem_parents_iff_isAbove] at hp
      exact ⟨a, ha, hallow, .inr (by rw [String.toList_ofList]; exact hp)⟩
  · rintro ⟨a, ha, hallow, hdomain | habove⟩
    · exact ⟨a, ⟨ha, hallow⟩, .inl hdomain.symm⟩
    · rw [← Name.mem_parents_iff_isAbove] at habove
      exact ⟨a, ⟨ha, hallow⟩, .inr ⟨name.toList, habove, String.ofList_toList⟩⟩

end DnsFilter.Coverage
