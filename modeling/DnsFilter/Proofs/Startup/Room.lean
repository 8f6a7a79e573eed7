import DnsFilter.Proofs.Coverage.Capacity
import DnsFilter.Proofs.Startup.Seeded

/-! Whether starting from a valid configuration succeeds. Validity sees to it that the listed patterns
fit into the store, and the limit is asked nothing more until the first coverage pass brings in the
roots. Both numbers are told from the configuration alone, and starting succeeds exactly if their sum is
within the limit. -/

namespace DnsFilter

namespace Config

variable {c : Config} {now t : Instant}

/-- Whether `root` or a name below it is allowed by a pattern that is no wildcard. -/
def allowsWithin (c : Config) (root : String) : Bool :=
  (c.rules.allow.map Name.normalize).any fun p =>
    (Name.afterStar? p.toList).isNone && (p == root || Name.isAbove root.toList p.toList)

/-- The names that are not listed themselves but have a wildcard over them that is, where the policy
covers these and no explicit allow spares them. -/
def roots (c : Config) : Finset String :=
  if c.policy.mode = .subdomainsOnly then ∅
  else ((c.listed.filterMap Name.rootOfWildcard?).filter fun root =>
    !c.listed.contains root && !(c.policy.respectAllowlist && c.allowsWithin root)).toFinset

/-- A limit that is set has room for the listed patterns and the roots. -/
def HasRoom (c : Config) : Prop :=
  ∀ limit, c.rules.maxRules = some limit → c.listed.toFinset.card + c.roots.card ≤ limit

theorem mem_roots_iff {root : String} : root ∈ c.roots ↔
    c.policy.mode ≠ .subdomainsOnly ∧ root ≠ "" ∧ Name.wildcardOver root.toList ∈ c.listed ∧
      root ∉ c.listed ∧ ¬ (c.policy.respectAllowlist = true ∧ c.allowsWithin root = true) := by
  unfold roots
  split
  · rename_i hmode
    simp [hmode]
  · rename_i hmode
    have hover : root ∈ c.listed.filterMap Name.rootOfWildcard? ↔
        root ≠ "" ∧ Name.wildcardOver root.toList ∈ c.listed := by
      simp only [List.mem_filterMap, Name.rootOfWildcard?_eq_some_iff]
      constructor
      · rintro ⟨_, hmem, hne, rfl⟩
        exact ⟨hne, hmem⟩
      · rintro ⟨hne, hmem⟩
        exact ⟨_, hmem, hne, rfl⟩
    have hfree : (!c.listed.contains root && !(c.policy.respectAllowlist && c.allowsWithin root)) =
        true ↔ root ∉ c.listed ∧
          ¬ (c.policy.respectAllowlist = true ∧ c.allowsWithin root = true) := by
      rw [Bool.and_eq_true, Bool.not_eq_true', Bool.not_eq_true', ← Bool.not_eq_true,
        ← Bool.not_eq_true, List.contains_iff_mem, Bool.and_eq_true]
    rw [List.mem_toFinset, List.mem_filter, hover, hfree, and_iff_right hmode, and_assoc]

/-! ### The seeded store -/

theorem mem_listed_iff (now : Instant) {domain : String} :
    domain ∈ c.listed ↔ ∃ r ∈ (c.seeded now).rules, r.domain = domain := by
  rw [← Store.mem_domains, domains_seeded, List.mem_toFinset]

theorem kind_stored_eq_exact_iff {p : String} {action : Action} :
    (c.stored now action p).kind = .exact ↔
      (Name.afterStar? (Name.normalize p).toList).isNone = true := by
  simp only [stored, drafted, Keeper.claimed, Rule.draft]
  cases Name.afterStar? (Name.normalize p).toList <;> simp

theorem ValidRules.isExpired_eq_false (h : ValidRules c.rules) {r : Rule}
    (hr : r ∈ (c.seeded now).rules) : r.isExpired t = false := by
  rcases h.mem_seeded_iff.mp hr with ⟨p, -, rfl⟩ | ⟨p, -, rfl⟩
  all_goals rfl

theorem ValidRules.allowedWithin_iff (h : ValidRules c.rules) (now t : Instant) {root : String} :
    (c.seeded now).AllowedWithin root t ↔ c.allowsWithin root = true := by
  simp only [allowsWithin, List.any_eq_true, List.mem_map, Bool.and_eq_true, Bool.or_eq_true,
    beq_iff_eq]
  constructor
  · rintro ⟨a, ha, haction, hkind, -, hdomain⟩
    rcases h.mem_seeded_iff.mp ha with ⟨p, -, rfl⟩ | ⟨p, hp, rfl⟩
    · cases haction
    · exact ⟨_, ⟨p, hp, rfl⟩, kind_stored_eq_exact_iff.mp hkind, hdomain⟩
  · rintro ⟨_, ⟨p, hp, rfl⟩, hstar, hdomain⟩
    have hmem : c.stored now .allow p ∈ (c.seeded now).rules :=
      h.mem_seeded_iff.mpr (.inr ⟨p, hp, rfl⟩)
    exact ⟨_, hmem, rfl, kind_stored_eq_exact_iff.mpr hstar, h.isExpired_eq_false hmem, hdomain⟩

/-- What is due in the seeded store can be told from the configuration. -/
theorem ValidRules.dueRoots_seeded (h : ValidRules c.rules) :
    (c.seeded now).dueRoots c.policy t = c.roots := by
  have hsound := (h.reachable_seeded now).sound
  ext root
  rw [Coverage.mem_dueRoots_iff hsound, mem_roots_iff, ← h.allowedWithin_iff now t]
  refine and_congr_right fun _ => ?_
  constructor
  · rintro ⟨w, hdue⟩
    refine ⟨?_, ?_, ?_, hdue.not_spared⟩
    · rintro rfl
      exact Rule.root_ne_nil (hsound.accepted w hdue.mem) hdue.domain_eq rfl
    · exact (mem_listed_iff now).mpr ⟨w, hdue.mem, hdue.domain_eq⟩
    · rw [mem_listed_iff now]
      rintro ⟨r, hr, hroot⟩
      exact hdue.missing r hr hroot
  · rintro ⟨-, hover, hunlisted, hspared⟩
    obtain ⟨w, hw, hdomain⟩ := (mem_listed_iff now).mp hover
    refine ⟨w, hw, hdomain, h.isExpired_eq_false hw, ?_, hspared⟩
    intro r hr hroot
    exact hunlisted ((mem_listed_iff now).mpr ⟨r, hr, hroot⟩)

theorem ValidRules.size_and_dueRoots (h : ValidRules c.rules) :
    (c.seeded now).size + ((c.seeded now).dueRoots c.policy t).card =
      c.listed.toFinset.card + c.roots.card := by
  rw [size_seeded, h.dueRoots_seeded]

end Config

/-! ### Starting -/

namespace Services

open Config

variable {α : Type} {c : Config}

theorem ofConfig_eq_map (h : ValidRules c.rules) (now : Instant) :
    (ofConfig c now : Except Fault (Services α)) =
      (Coverage.pass Store.keeper (c.seeded now) c.policy now).map fun answer =>
        { rules := answer.1, policy := c.policy, cache := .empty c.cacheLimits, stats := .empty } := by
  rw [ofConfig, h.seeds_eq_ok]
  simp only [bind, Except.bind, h.reload_seeds now]
  cases Coverage.pass Store.keeper (c.seeded now) c.policy now <;> rfl

/-- From a valid configuration seeding is never refused. The pass that follows, whatever the order in
which it finds the rules, and with it the start as a whole succeed exactly if the limit has room for the
listed patterns and the roots; for want of room is the only refusal there is. -/
theorem ofConfig_isOk_iff_hasRoom (c : Config) (hvalid : c.fault? = none) (now : Instant) :
    (∃ seeds seeded, c.seeds = .ok seeds ∧
      Store.keeper.reload (Store.empty c.rules.maxRules) .user seeds now =
        .ok (seeded, seeds.length) ∧
      ∀ order : Listing,
        (∃ answer, Coverage.pass order.keeper seeded c.policy now = .ok answer) ↔ c.HasRoom) ∧
    ((∃ services, (ofConfig c now : Except Fault (Services α)) = .ok services) ↔ c.HasRoom) ∧
    ∀ cause, (ofConfig c now : Except Fault (Services α)) = .error cause →
      ∃ limit, c.rules.maxRules = some limit ∧
        cause = .capacity (c.listed.toFinset.card + c.roots.card) limit := by
  have hrules := validRules_of_fault? hvalid
  have hsound := (hrules.reachable_seeded now).sound
  have hpass (order : Listing) :
      (∃ answer, Coverage.pass order.keeper (c.seeded now) c.policy now = .ok answer) ↔
        c.HasRoom := by
    rw [Coverage.pass_isOk_iff order hsound, hrules.size_and_dueRoots]
    rfl
  refine ⟨⟨c.drafts, c.seeded now, hrules.seeds_eq_ok, hrules.reload_seeds now, hpass⟩, ?_, ?_⟩
  · rw [ofConfig_eq_map hrules, ← hpass .asStored]
    show _ ↔ ∃ answer, Coverage.pass Store.keeper (c.seeded now) c.policy now = .ok answer
    cases Coverage.pass Store.keeper (c.seeded now) c.policy now <;> simp [Except.map]
  · intro cause hcause
    rw [ofConfig_eq_map hrules] at hcause
    cases hrefused : Coverage.pass Store.keeper (c.seeded now) c.policy now with
    | ok answer =>
        rw [hrefused] at hcause
        cases hcause
    | error refusal =>
        rw [hrefused] at hcause
        cases hcause
        obtain ⟨limit, hlimit, -, hcapacity⟩ :=
          (Coverage.pass_eq_error_iff .asStored hsound c.policy now).mp hrefused
        rw [hrules.size_and_dueRoots] at hcapacity
        exact ⟨limit, hlimit, hcapacity⟩

/-- Five patterns of four spellings, three of them wildcards; one of the roots is spared. -/
def sampleConfig (limit : Nat) : Config :=
  { Config.standard with
    policy := ⟨.smart, true⟩
    rules := { RuleSettings.standard with
      block := ["*.Ads.com.", "*.ads.com", "*.shop.com"]
      allow := ["www.shop.com", "*.org"]
      maxRules := some limit } }

theorem ofConfig_isOk_sample : (sampleConfig 6).fault? = none ∧ (sampleConfig 6).HasRoom ∧
    ∃ services, (ofConfig (sampleConfig 6) ⟨200, 0⟩ : Except Fault (Services Nat)) = .ok services := by
  have hvalid : (sampleConfig 6).fault? = none := by decide +kernel
  have hroom : (sampleConfig 6).HasRoom := by
    intro limit hlimit
    obtain rfl : 6 = limit := Option.some.inj hlimit
    decide +kernel
  exact ⟨hvalid, hroom, (ofConfig_isOk_iff_hasRoom (sampleConfig 6) hvalid ⟨200, 0⟩).2.1.mpr hroom⟩

/-- As many places as patterns make the configuration valid, but the roots find no room. -/
theorem ofConfig_refuses_valid : (sampleConfig 5).fault? = none ∧
    (ofConfig (sampleConfig 5) ⟨200, 0⟩ : Except Fault (Services Nat)) =
      .error (.capacity 6 5) := by
  decide +kernel

end Services

end DnsFilter
