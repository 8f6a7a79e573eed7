import DnsFilter.Proofs.Coverage.Pass
import DnsFilter.Proofs.Coverage.Plan
import DnsFilter.Proofs.Rule.Accepted

/-! What a coverage pass adds to the rule store, said of the store alone: one rule for the root of each
live wildcard that has none and is not spared, whatever the order in which the rules are listed. A root
whose rule has run out counts as one that has a rule, so that it stays without a live one. -/

namespace DnsFilter

namespace Store

/-- Whether some live exact rule allows `root` or a name below it. -/
def AllowedWithin (s : Store) (root : String) (now : Instant) : Prop :=
  ∃ a ∈ s.rules, a.action = .allow ∧ a.kind = .exact ∧ a.isExpired now = false ∧
    (a.domain = root ∨ Name.isAbove root.toList a.domain.toList = true)

/-- Whether `root` is to get a rule for the wildcard `w` that is stored over it. -/
structure IsDue (s : Store) (policy : WildcardPolicy) (now : Instant) (w : Rule) (root : String) :
    Prop where
  mem : w ∈ s.rules
  domain_eq : w.domain = Name.wildcardOver root.toList
  live : w.isExpired now = false
  missing : ∀ r ∈ s.rules, r.domain ≠ root
  not_spared : ¬ (policy.respectAllowlist = true ∧ s.AllowedWithin root now)

/-! ### A store that is to be covered -/

/-- Three wildcards: one whose root has no rule, one with an allow below its root, and one whose root
has a rule that has run out. -/
def uncovered : Store :=
  ⟨[{ Rule.draft "*.ads.com" .block with
        priority := Priority.least, customMessage := some "no ads", expiresAt := some ⟨500, 0⟩ },
    Rule.draft "*.shop.com" .block, Rule.draft "www.shop.com" .allow,
    Rule.draft "*.old.com" .block,
    { Rule.draft "old.com" .allow with expiresAt := some ⟨100, 0⟩ }], some 6⟩

/-- The same with a rule for the first root, made at second 200. -/
def covered : Store :=
  { uncovered with rules := uncovered.rules ++
    [{ Rule.draft "ads.com" .block with
        priority := Priority.least
        source := .system
        comment := some "Auto-generated root coverage for *.ads.com"
        customMessage := some "no ads"
        updatedAt := some ⟨200, 0⟩
        expiresAt := some ⟨500, 0⟩
        autoGenerated := true }] }

theorem reachable_uncovered : uncovered.Reachable :=
  .write (.add uncovered.rules) (.empty (some 6)) (by decide +kernel)

end Store

namespace Coverage

open Store

variable {order : Listing} {s next : Store} {policy : WildcardPolicy} {now : Instant}
  {outcome : Outcome}

theorem mem_allowedNames_listed_iff {root : String} :
    root ∈ allowedNames (order.list s.rules) now ↔ s.AllowedWithin root now := by
  simp only [mem_allowedNames_iff, isLiveAllow_iff, (order.perm s.rules).mem_iff, AllowedWithin,
    and_assoc]

/-- The rules that a pass has in mind are those for the roots that are due. -/
theorem mem_rootRules_iff (hs : s.Sound) (hmode : policy.mode ≠ .subdomainsOnly) {q : Rule} :
    q ∈ rootRules policy now (order.list s.rules) ↔
      ∃ w root, s.IsDue policy now w root ∧ q = rootRule w root now := by
  unfold rootRules
  simp only [List.mem_filterMap, rootFor?_eq_some_iff, (order.perm s.rules).mem_iff,
    mem_allowedNames_listed_iff, List.mem_map]
  constructor
  · rintro ⟨w, hw, root, -, hdomain, -, -, hlive, hmissing, hspared, rfl⟩
    exact ⟨w, root, ⟨hw, hdomain, hlive, fun r hr h => hmissing ⟨r, hr, h⟩, hspared⟩, rfl⟩
  · rintro ⟨w, root, hdue, rfl⟩
    have haccepted := hs.accepted w hdue.mem
    have hkind := (Rule.isWildcard_iff haccepted).mpr ⟨root.toList, hdue.domain_eq⟩
    have hroot := Rule.root_ne_nil haccepted hdue.domain_eq
    refine ⟨w, hdue.mem, root, ?_, hdue.domain_eq, beq_iff_eq.mp hkind, hmode, hdue.live, ?_,
      hdue.not_spared, rfl⟩
    · rintro rfl
      exact hroot rfl
    · rintro ⟨r, hr, h⟩
      exact hdue.missing r hr h

theorem rootRules_of_subdomainsOnly (hmode : policy.mode = .subdomainsOnly) (rules : List Rule) :
    rootRules policy now rules = [] := by
  refine List.filterMap_eq_nil_iff.mpr fun r _ => ?_
  rw [Option.eq_none_iff_forall_ne_some]
  intro q hq
  obtain ⟨root, -, -, -, hasked, -⟩ := rootFor?_eq_some_iff.mp hq
  exact hasked hmode

/-- Distinct wildcards stand over distinct roots. -/
theorem rootRules_unique (hs : s.Sound) (hmode : policy.mode ≠ .subdomainsOnly) :
    ∀ a ∈ rootRules policy now (order.list s.rules),
      ∀ b ∈ rootRules policy now (order.list s.rules), a.domain = b.domain → a = b := by
  intro a ha b hb hdomain
  obtain ⟨w, root, hdue, rfl⟩ := (mem_rootRules_iff hs hmode).mp ha
  obtain ⟨v, name, hdue', rfl⟩ := (mem_rootRules_iff hs hmode).mp hb
  obtain rfl : root = name := hdomain
  rw [hs.eq_of_domain_eq hdue.mem hdue'.mem (hdue.domain_eq.trans hdue'.domain_eq.symm)]

/-! ### After a pass -/

theorem ruleFor_of_pass (h : pass order.keeper s policy now = .ok (next, outcome))
    (domain : String) :
    next.ruleFor domain = (s.ruleFor domain).or
      ((rootRules policy now (order.list s.rules)).find? (·.domain == domain)) := by
  rw [rules_of_pass h, batch_plan]
  unfold ruleFor
  rw [find?_foldl_placeMissing, find?_foldl_placeMissing, List.find?_nil, Option.none_or]

theorem next_eq_of_subdomainsOnly (h : pass order.keeper s policy now = .ok (next, outcome))
    (hmode : policy.mode = .subdomainsOnly) : next = s := by
  rw [rules_of_pass h, batch_plan, rootRules_of_subdomainsOnly hmode]
  rfl

theorem mem_pass_iff (hs : s.Reachable) (h : pass order.keeper s policy now = .ok (next, outcome))
    (hmode : policy.mode ≠ .subdomainsOnly) {q : Rule} :
    q ∈ next.rules ↔ q ∈ s.rules ∨ ∃ w root, s.IsDue policy now w root ∧ q = rootRule w root now := by
  have hsound := hs.sound
  have hnext := (reachable_of_pass hs h).sound
  have hfound : q ∈ next.rules ↔ next.ruleFor q.domain = some q := by
    rw [hnext.ruleFor_eq_some_iff, and_iff_left rfl]
  rw [hfound, ruleFor_of_pass h, Option.or_eq_some_iff, hsound.ruleFor_eq_some_iff,
    find?_key_eq_some_iff_of_unique (rootRules_unique hsound hmode), mem_rootRules_iff hsound hmode,
    and_iff_left rfl, and_iff_left rfl]
  -- a root that is due has no rule, so that the look-up goes on to the new ones
  refine or_congr_right (and_iff_right_of_imp ?_)
  rintro ⟨w, root, hdue, rfl⟩
  exact List.find?_eq_none.mpr fun r hr hdomain => hdue.missing r hr (beq_iff_eq.mp hdomain)

/-- A successful pass keeps the store as it is where wildcards are about subdomains only. Otherwise it
keeps every rule, and adds just these: for each stored wildcard that is live, whose root has no rule,
and whose root is not spared for an explicit allow, one exact rule for the root, which does what the
wildcard does for as long as that. -/
theorem pass_adds_due_roots (order : Listing) (s next : Store) (hs : s.Reachable)
    (policy : WildcardPolicy) (now : Instant) (outcome : Outcome)
    (hpass : pass order.keeper s policy now = .ok (next, outcome)) :
    (policy.mode = .subdomainsOnly → next = s) ∧
      (policy.mode ≠ .subdomainsOnly →
        next.limit = s.limit ∧ (next.rules.map (·.domain)).Nodup ∧
        (∀ domain r, s.ruleFor domain = some r → next.ruleFor domain = some r) ∧
        ∀ q, q ∈ next.rules ↔ q ∈ s.rules ∨ ∃ w root, s.IsDue policy now w root ∧
          q = { domain := root
                kind := .exact
                action := w.action
                priority := max (w.priority - 1) (-0x8000000000000000)
                source := .system
                comment := some ("Auto-generated root coverage for " ++ w.domain)
                customMessage := w.customMessage
                updatedAt := some now
                expiresAt := w.expiresAt
                autoGenerated := true }) := by
  refine ⟨next_eq_of_subdomainsOnly hpass, fun hmode => ⟨?_, ?_, ?_, fun q => ?_⟩⟩
  · rw [rules_of_pass hpass]
  · exact (reachable_of_pass hs hpass).sound.distinct
  · intro domain r hr
    rw [ruleFor_of_pass hpass, hr, Option.some_or]
  · exact mem_pass_iff hs hpass hmode

/-- The pass finds one root to cover; another one is spared, and one has a rule that has run out. -/
theorem pass_adds_due_roots_sample :
    uncovered.Reachable ∧
      pass Listing.reversed.keeper uncovered ⟨.smart, true⟩ ⟨200, 0⟩ =
        .ok (covered, ⟨3, 1, 1, 1⟩) ∧
      ∀ q, q ∈ covered.rules ↔ q ∈ uncovered.rules ∨
        ∃ w root, uncovered.IsDue ⟨.smart, true⟩ ⟨200, 0⟩ w root ∧ q = rootRule w root ⟨200, 0⟩ := by
  have hpass : pass Listing.reversed.keeper uncovered ⟨.smart, true⟩ ⟨200, 0⟩ =
      .ok (covered, ⟨3, 1, 1, 1⟩) := by decide +kernel
  have hadded := (pass_adds_due_roots .reversed uncovered covered reachable_uncovered
    ⟨.smart, true⟩ ⟨200, 0⟩ ⟨3, 1, 1, 1⟩ hpass).2 (by decide)
  exact ⟨reachable_uncovered, hpass, hadded.2.2.2⟩

/-! ### Rules that have run out -/

/-- The pass leaves a rule that has run out where it is. -/
theorem expired_of_pass (hs : s.Reachable)
    (h : pass order.keeper s policy now = .ok (next, outcome)) {r q : Rule} (hr : r ∈ s.rules)
    (hexpired : r.isExpired now = true) (hq : q ∈ next.rules) (hdomain : q.domain = r.domain) :
    q.isExpired now = true := by
  have hkept : next.ruleFor r.domain = some r := by
    rw [ruleFor_of_pass h, hs.sound.ruleFor_eq_some_iff.mpr ⟨hr, rfl⟩, Option.some_or]
  have hsound := (reachable_of_pass hs h).sound
  obtain ⟨hmem, -⟩ := hsound.ruleFor_eq_some_iff.mp hkept
  rw [hsound.eq_of_domain_eq hq hmem hdomain]
  exact hexpired

theorem mem_of_mem_pass_of_wildcard (hs : s.Reachable)
    (h : pass order.keeper s policy now = .ok (next, outcome))
    (hmode : policy.mode ≠ .subdomainsOnly) {w : Rule} {root : List Char} (hw : w ∈ next.rules)
    (hdomain : w.domain = Name.wildcardOver root) : w ∈ s.rules := by
  rcases (mem_pass_iff hs h hmode).mp hw with hold | ⟨v, name, -, rfl⟩
  · exact hold
  · have haccepted := (reachable_of_pass hs h).sound.accepted _ hw
    have hkind := (Rule.isWildcard_iff haccepted).mpr ⟨root, hdomain⟩
    cases hkind

/-- After a successful pass that covers roots, every live wildcard has a live rule for its root, unless
the root is spared or had a rule before that has run out; and in the latter case the pass leaves the
root without a live rule. -/
theorem live_root_unless_expired (order : Listing) (s next : Store) (hs : s.Reachable)
    (policy : WildcardPolicy) (hmode : policy.mode ≠ .subdomainsOnly) (now : Instant)
    (outcome : Outcome) (hpass : pass order.keeper s policy now = .ok (next, outcome)) (w : Rule)
    (hw : w ∈ next.rules) (root : String) (hdomain : w.domain = Name.wildcardOver root.toList)
    (hlive : w.isExpired now = false) :
    ((∀ r ∈ s.rules, r.domain = root → r.isExpired now = false) →
        ¬ (policy.respectAllowlist = true ∧ s.AllowedWithin root now) →
        ∃ r ∈ next.rules, r.domain = root ∧ r.isExpired now = false) ∧
      ((∃ r ∈ s.rules, r.domain = root ∧ r.isExpired now = true) →
        ∀ r ∈ next.rules, r.domain = root → r.isExpired now = true) := by
  have hmem := mem_of_mem_pass_of_wildcard hs hpass hmode hw hdomain
  constructor
  · intro hunexpired hspared
    by_cases hmissing : ∀ r ∈ s.rules, r.domain ≠ root
    · refine ⟨rootRule w root now, ?_, rfl, hlive⟩
      exact (mem_pass_iff hs hpass hmode).mpr
        (.inr ⟨w, root, ⟨hmem, hdomain, hlive, hmissing, hspared⟩, rfl⟩)
    · push Not at hmissing
      obtain ⟨r, hr, hroot⟩ := hmissing
      exact ⟨r, (mem_pass_iff hs hpass hmode).mpr (.inl hr), hroot, hunexpired r hr hroot⟩
  · rintro ⟨r, hr, rfl, hexpired⟩ q hq hroot
    exact expired_of_pass hs hpass hr hexpired hq hroot

theorem live_root_sample : uncovered.Reachable ∧
    pass Listing.asStored.keeper uncovered ⟨.includeRoot, true⟩ ⟨200, 0⟩ =
      .ok (covered, ⟨3, 1, 1, 1⟩) ∧
    (∀ r ∈ uncovered.rules, r.domain = "ads.com" → r.isExpired ⟨200, 0⟩ = false) ∧
    ¬ uncovered.AllowedWithin "ads.com" ⟨200, 0⟩ ∧
    ∃ r ∈ covered.rules, r.domain = "ads.com" ∧ r.isExpired ⟨200, 0⟩ = false := by
  have hpass : pass Listing.asStored.keeper uncovered ⟨.includeRoot, true⟩ ⟨200, 0⟩ =
      .ok (covered, ⟨3, 1, 1, 1⟩) := by decide +kernel
  have hunexpired : ∀ r ∈ uncovered.rules, r.domain = "ads.com" →
      r.isExpired ⟨200, 0⟩ = false := by decide +kernel
  have hspared : ¬ uncovered.AllowedWithin "ads.com" ⟨200, 0⟩ := by
    unfold AllowedWithin
    decide +kernel
  obtain ⟨w, hw, hdomain, hlive⟩ : ∃ w ∈ covered.rules,
      w.domain = Name.wildcardOver "ads.com".toList ∧ w.isExpired ⟨200, 0⟩ = false := by
    decide +kernel
  refine ⟨reachable_uncovered, hpass, hunexpired, hspared, ?_⟩
  exact (live_root_unless_expired .asStored uncovered covered reachable_uncovered
    ⟨.includeRoot, true⟩ (by decide) ⟨200, 0⟩ ⟨3, 1, 1, 1⟩ hpass w hw "ads.com" hdomain hlive).1
    hunexpired fun h => hspared h.2

/-- An allow for the root that has run out keeps a pass from covering it, though no allow is in force
and the wildcard over it is live. -/
theorem expired_allow_keeps_root_uncovered : uncovered.Reachable ∧
    pass Listing.asStored.keeper uncovered ⟨.includeRoot, true⟩ ⟨200, 0⟩ =
      .ok (covered, ⟨3, 1, 1, 1⟩) ∧
    (∃ w ∈ covered.rules, w.domain = "*.old.com" ∧ w.isExpired ⟨200, 0⟩ = false) ∧
    (∀ r ∈ covered.rules, r.domain = "old.com" → r.isExpired ⟨200, 0⟩ = true) ∧
    ¬ covered.AllowedWithin "old.com" ⟨200, 0⟩ := by
  refine ⟨reachable_uncovered, by decide +kernel, by decide +kernel, by decide +kernel, ?_⟩
  unfold AllowedWithin
  decide +kernel

end Coverage

end DnsFilter
