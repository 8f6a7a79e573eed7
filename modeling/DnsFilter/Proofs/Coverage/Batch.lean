import DnsFilter.Proofs.Coverage.Allowed
import DnsFilter.Proofs.Coverage.Counts

/-! The batch of a pass over any keeper of rules, which may list a rule twice, list several for one
domain, or list some that no store accepts. Whatever is listed, the batch has one rule for each root
that some wildcard of the list is eligible to cover, made from the first such wildcard; and every
wildcard that the pass has looked at is accounted for. -/

namespace DnsFilter

/-- A keeper that reads the same rules whatever is written. Its state is the list of what has been. -/
def Keeper.logging (rules : List Rule) : Keeper (List Rule) where
  view _ := ⟨fun domain => rules.find? fun r => r.domain == domain, rules⟩
  addMissing log batch := .ok (log ++ batch, batch.length)
  replaceSource log _ batch := .ok (log ++ batch, batch.length)
  removeExpired log _ := .ok (log, 0)

namespace Coverage

variable {σ : Type} {policy : WildcardPolicy} {now : Instant} {rules : List Rule} {r q w : Rule}
  {root : String}

/-- Whether `w` is a wildcard of the list whose root a pass may cover. -/
structure IsEligible (policy : WildcardPolicy) (now : Instant) (rules : List Rule) (w : Rule)
    (root : String) : Prop where
  mode_ne : policy.mode ≠ .subdomainsOnly
  kind_eq : w.kind = .wildcard
  domain_eq : w.domain = Name.wildcardOver root.toList
  root_ne : root ≠ ""
  live : w.isExpired now = false
  missing : ∀ r ∈ rules, r.domain ≠ root
  not_spared : ¬ (policy.respectAllowlist = true ∧
    ∃ a ∈ rules, a.action = .allow ∧ a.kind = .exact ∧ a.isExpired now = false ∧
      (a.domain = root ∨ ∃ head, a.domain = head ++ "." ++ root))

/-- Whether the rule is a live wildcard that stands over no name. -/
def isBareStar (now : Instant) (r : Rule) : Bool :=
  r.kind == .wildcard && r.domain == "*." && !r.isExpired now

/-! ### The rules of the batch -/

theorem rootFor?_eq_some_iff_isEligible :
    rootFor? policy now (rules.map (·.domain)) (allowedNames rules now) w = some q ↔
      ∃ root, IsEligible policy now rules w root ∧ q = rootRule w root now := by
  rw [rootFor?_eq_some_iff]
  refine exists_congr fun root => ?_
  have hmissing : root ∉ rules.map (·.domain) ↔ ∀ r ∈ rules, r.domain ≠ root := by simp
  have hspared : root ∈ allowedNames rules now ↔
      ∃ a ∈ rules, a.action = .allow ∧ a.kind = .exact ∧ a.isExpired now = false ∧
        (a.domain = root ∨ ∃ head, a.domain = head ++ "." ++ root) := by
    simp only [mem_allowedNames_iff, isLiveAllow_iff, Name.isAbove_iff_exists_head, and_assoc]
  rw [hmissing, hspared]
  constructor
  · rintro ⟨hne, hdomain, hkind, hmode, hlive, hnew, hfree, rfl⟩
    exact ⟨⟨hmode, hkind, hdomain, hne, hlive, hnew, hfree⟩, rfl⟩
  · rintro ⟨⟨hmode, hkind, hdomain, hne, hlive, hnew, hfree⟩, rfl⟩
    exact ⟨hne, hdomain, hkind, hmode, hlive, hnew, hfree, rfl⟩

theorem any_rootFor?_iff :
    (rootFor? policy now (rules.map (·.domain)) (allowedNames rules now) w).any
        (·.domain == root) = true ↔ IsEligible policy now rules w root := by
  rw [Option.any_eq_true]
  constructor
  · rintro ⟨p, hp, hdomain⟩
    obtain ⟨name, heligible, rfl⟩ := rootFor?_eq_some_iff_isEligible.mp hp
    exact beq_iff_eq.mp hdomain ▸ heligible
  · intro heligible
    exact ⟨_, rootFor?_eq_some_iff_isEligible.mpr ⟨root, heligible, rfl⟩, beq_self_eq_true _⟩

/-- The rule of the batch for a root is made from the first wildcard that a rule for it is made from. -/
theorem find?_batch (policy : WildcardPolicy) (now : Instant) (rules : List Rule) (root : String) :
    (plan policy now rules).batch.find? (·.domain == root) =
      (rules.find? fun w => (rootFor? policy now (rules.map (·.domain)) (allowedNames rules now) w).any
        (·.domain == root)).bind
          (rootFor? policy now (rules.map (·.domain)) (allowedNames rules now)) := by
  rw [batch_plan, Store.find?_foldl_placeMissing, List.find?_nil, Option.none_or, rootRules,
    List.find?_filterMap]

theorem mem_batch_iff : q ∈ (plan policy now rules).batch ↔
    ∃ before w after root, rules = before ++ w :: after ∧ IsEligible policy now rules w root ∧
      (∀ v ∈ before, ¬ IsEligible policy now rules v root) ∧ q = rootRule w root now := by
  rw [mem_iff_find?_key (nodup_batch policy now rules), find?_batch, Option.bind_eq_some_iff]
  constructor
  · rintro ⟨w, hw, hq⟩
    obtain ⟨-, before, after, hsplit, hbefore⟩ := List.find?_eq_some_iff_append.mp hw
    obtain ⟨root, heligible, rfl⟩ := rootFor?_eq_some_iff_isEligible.mp hq
    refine ⟨before, w, after, root, hsplit, heligible, fun v hv hearlier => ?_, rfl⟩
    have hnone := hbefore v hv
    rw [Bool.not_eq_true', ← Bool.not_eq_true] at hnone
    exact hnone (any_rootFor?_iff.mpr hearlier)
  · rintro ⟨before, w, after, root, hsplit, heligible, hbefore, rfl⟩
    refine ⟨w, List.find?_eq_some_iff_append.mpr ⟨any_rootFor?_iff.mpr heligible, before, after,
      hsplit, fun v hv => ?_⟩, rootFor?_eq_some_iff_isEligible.mpr ⟨root, heligible, rfl⟩⟩
    rw [Bool.not_eq_true', ← Bool.not_eq_true, any_rootFor?_iff]
    exact hbefore v hv

/-! ### The wildcards that were looked at -/

theorem isRootless_iff : isRootless policy now r = true ↔
    policy.mode ≠ .subdomainsOnly ∧ isBareStar now r = true := by
  have hstar : (Name.afterStar? r.domain.toList).isSome = true ∧
      (Name.rootOfWildcard? r.domain).isNone = true ↔ r.domain = "*." := by
    rw [show "*." = Name.wildcardOver [] from rfl, Name.eq_wildcardOver_iff, Name.rootOfWildcard?]
    cases Name.afterStar? r.domain.toList with
    | none => simp
    | some rest => cases rest <;> simp
  simp only [isRootless, isExamined, isAsked, WildcardPolicy.coversRoot, isBareStar,
    Bool.and_eq_true, beq_iff_eq, bne_iff_ne, ← hstar]
  tauto

theorem countP_isRootless (policy : WildcardPolicy) (now : Instant) (rules : List Rule) :
    rules.countP (isRootless policy now) =
      if policy.mode = .subdomainsOnly then 0 else rules.countP (isBareStar now) := by
  split
  · rename_i hmode
    rw [List.countP_eq_zero]
    intro r _ hrootless
    exact (isRootless_iff.mp hrootless).1 hmode
  · rename_i hmode
    refine List.countP_congr fun r _ => ?_
    rw [isRootless_iff, and_iff_right hmode]

theorem plan_of_subdomainsOnly (hmode : policy.mode = .subdomainsOnly) (now : Instant)
    (rules : List Rule) : plan policy now rules = Plan.empty := by
  have hasked (r : Rule) : isAsked policy r = false := by
    simp [isAsked, WildcardPolicy.coversRoot, hmode]
  have hconsider (existing spared : List String) (r : Rule) :
      Plan.empty.consider policy now existing spared r = Plan.empty := by
    simp [Plan.consider, hasked]
  exact List.foldl_fixed' (hconsider _ _) rules

/-! ### Passes over any keeper -/

/-- A pass over any keeper, whatever rules it lists. It makes one write, of a batch of new rules, or none
if the batch is empty. The rules of the batch have distinct domains, of which none is listed; there is
one for each root that a listed wildcard is eligible to cover, made from the first such wildcard. Every
wildcard that was looked at is counted once: its root has a rule or is planned for already, it is
spared, it is planned for now, or there is no root. Where wildcards are about subdomains only, none is
looked at. -/
theorem pass_adds_first_eligible (k : Keeper σ) (s : σ) (policy : WildcardPolicy) (now : Instant) :
    let rules := (k.view s).rules
    let p := plan policy now rules
    (p.batch = [] → pass k s policy now =
        .ok (s, ⟨p.examined, p.skippedExisting, p.skippedAllowed, 0⟩)) ∧
      (p.batch ≠ [] → pass k s policy now = (k.addMissing s p.batch).map fun answer =>
        (answer.1, ⟨p.examined, p.skippedExisting, p.skippedAllowed, answer.2⟩)) ∧
      (p.batch.map (·.domain)).Nodup ∧
      (∀ q ∈ p.batch, ∀ r ∈ rules, r.domain ≠ q.domain) ∧
      (∀ q, q ∈ p.batch ↔ ∃ before w after root, rules = before ++ w :: after ∧
        IsEligible policy now rules w root ∧
        (∀ v ∈ before, ¬ IsEligible policy now rules v root) ∧ q = rootRule w root now) ∧
      (policy.mode ≠ .subdomainsOnly → p.examined = p.skippedExisting + p.skippedAllowed +
        p.batch.length + rules.countP (isBareStar now)) ∧
      (policy.mode = .subdomainsOnly → p = Plan.empty) := by
  intro rules p
  refine ⟨?_, ?_, nodup_batch policy now rules, ?_, fun q => mem_batch_iff, ?_, ?_⟩
  · intro hempty
    rw [pass_eq, if_pos (List.isEmpty_iff.mpr hempty)]
    rfl
  · intro hne
    rw [pass_eq, if_neg (mt List.isEmpty_iff.mp hne)]
    rfl
  · intro q hq r hr hdomain
    exact domain_notMem_of_mem_batch hq (List.mem_map.mpr ⟨r, hr, hdomain⟩)
  · intro hmode
    rw [(accounts_plan policy now rules).balance, countP_isRootless, if_neg hmode]
  · intro hmode
    exact plan_of_subdomainsOnly hmode now rules

/-- Three wildcards over one name, of which the first has run out; one over nothing; one over no name,
and one whose root has a rule of its own. -/
def unsorted : List Rule :=
  [{ Rule.draft "*.ads.com" .allow with expiresAt := some ⟨100, 0⟩ },
    Rule.draft "*.ads.com" .block, Rule.draft "*.ads.com" .unknown,
    { Rule.draft "*.com" .block with domain := "*." },
    { Rule.draft "*.com" .block with domain := "*.no name" },
    Rule.draft "*.shop.com" .block, Rule.draft "shop.com" .allow]

theorem pass_adds_first_eligible_sample :
    let p := plan ⟨.includeRoot, true⟩ ⟨200, 0⟩ unsorted
    p.batch ≠ [] ∧
      pass (Keeper.logging unsorted) [] ⟨.includeRoot, true⟩ ⟨200, 0⟩ =
        .ok (p.batch, ⟨5, 2, 0, 2⟩) ∧
      rootRule (Rule.draft "*.ads.com" .block) "ads.com" ⟨200, 0⟩ ∈ p.batch ∧
      5 = 2 + 0 + p.batch.length + unsorted.countP (isBareStar ⟨200, 0⟩) ∧
      pass (Keeper.logging unsorted) [] ⟨.subdomainsOnly, true⟩ ⟨200, 0⟩ =
        .ok ([], ⟨0, 0, 0, 0⟩) := by
  intro p
  have hne : p.batch ≠ [] := by decide +kernel
  obtain ⟨-, hwrite, -, -, hbatch, hbalance, -⟩ :=
    pass_adds_first_eligible (Keeper.logging unsorted) [] ⟨.includeRoot, true⟩ ⟨200, 0⟩
  obtain ⟨hidle, -, -, -, -, -, hnothing⟩ :=
    pass_adds_first_eligible (Keeper.logging unsorted) [] ⟨.subdomainsOnly, true⟩ ⟨200, 0⟩
  have hfirst : IsEligible ⟨.includeRoot, true⟩ ⟨200, 0⟩ unsorted (Rule.draft "*.ads.com" .block)
      "ads.com" := by
    refine ⟨by decide, by decide +kernel, by decide +kernel, by decide, rfl, by decide +kernel, ?_⟩
    simp only [← Name.isAbove_iff_exists_head]
    decide +kernel
  refine ⟨hne, (hwrite hne).trans (by decide +kernel), (hbatch _).mpr ?_, ?_, ?_⟩
  · -- the wildcard before it has run out
    refine ⟨unsorted.take 1, _, unsorted.drop 2, _, rfl, hfirst, fun v hv heligible => ?_, rfl⟩
    rw [List.mem_singleton.mp hv] at heligible
    exact absurd heligible.live (by decide)
  · exact hbalance (by decide)
  · exact (hidle (congrArg Plan.batch (hnothing rfl))).trans (by decide +kernel)

/-- A live wildcard over nothing that a pass lists but does not look at, since wildcards are about
subdomains only. -/
theorem bareStar_not_examined : ∃ written outcome,
    pass (Keeper.logging unsorted) [] ⟨.subdomainsOnly, true⟩ ⟨200, 0⟩ = .ok (written, outcome) ∧
      outcome.examined ≠ outcome.skippedExisting + outcome.skippedAllowed + written.length +
        unsorted.countP (isBareStar ⟨200, 0⟩) :=
  ⟨[], ⟨0, 0, 0, 0⟩, by decide +kernel, by decide +kernel⟩

end Coverage

end DnsFilter
