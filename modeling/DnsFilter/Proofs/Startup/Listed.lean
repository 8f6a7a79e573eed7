import DnsFilter.Proofs.Coverage.Checks
import DnsFilter.Proofs.Startup.Room

/-! The store that a valid configuration starts with, its roots covered. Every listed pattern has its rule
there under its normal spelling, whichever way it is written and however often. The pass that covers roots
only adds rules where there are none, so that no pattern loses its rule to a root; and what it adds stands
for a listed wildcard. So a listed name is answered for as it is listed, at all times. -/

namespace DnsFilter

namespace Config

/-- Whether the store holds the user's rule for a pattern. -/
def Holds (c : Config) (s : Store) (action : Action) (pattern : String) : Prop :=
  ∃ r, s.ruleFor (Name.normalize pattern) = some r ∧ r.action = action ∧ r.source = .user ∧
    r.priority = c.rules.defaultPriority

/-- Whether a check of `typed` gives `action`, at all times. -/
def Answers (s : Store) (typed : String) (action : Action) : Prop :=
  ∀ now, ∃ decision, s.view.check typed now = .ok decision ∧ decision.action = action

/-- Whether the store is one to start with: it has a rule for each listed pattern, and all others are for
the roots of listed wildcards. -/
structure IsStart (c : Config) (s : Store) : Prop where
  allowed : ∀ p ∈ c.rules.allow, c.Holds s .allow p
  blocked : ∀ p ∈ c.rules.block, c.Holds s .block p
  others : ∀ r ∈ s.rules, (∀ p ∈ c.rules.allow ++ c.rules.block, Name.normalize p ≠ r.domain) →
    r.autoGenerated = true ∧ r.source = .system ∧ r.kind = .exact ∧
      ∃ p ∈ c.rules.allow ++ c.rules.block,
        Name.rootOfWildcard? (Name.normalize p) = some r.domain
  answers_allow : ∀ p ∈ c.rules.allow, ¬ Name.star <+: (Name.normalize p).toList →
    Answers s p .allow
  answers_block : ∀ p ∈ c.rules.block, ¬ Name.star <+: (Name.normalize p).toList →
    Answers s p .block

variable {c : Config} {order : Listing} {s : Store} {seededAt coveredAt now : Instant}
  {outcome : Coverage.Outcome} {action : Action} {p : String} {r : Rule}

theorem map_eq_ok_iff {ε α β : Type} {x : Except ε α} {f : α → β} {b : β} :
    x.map f = .ok b ↔ ∃ a, x = .ok a ∧ f a = b := by
  cases x <;> simp [Except.map]

theorem ValidRules.start_eq_map (h : ValidRules c.rules) : c.start order seededAt coveredAt =
    (Coverage.pass order.keeper (c.seeded seededAt) c.policy coveredAt).map (·.1) := by
  rw [start, h.seeds_eq_ok]
  simp only [bind, Except.bind, h.reload_seeds seededAt]
  cases Coverage.pass order.keeper (c.seeded seededAt) c.policy coveredAt <;> rfl

/-! ### Listed patterns -/

/-- The pass leaves the rule of a pattern where it is. -/
theorem ValidRules.mem_of_stored (h : ValidRules c.rules)
    (hpass : Coverage.pass order.keeper (c.seeded seededAt) c.policy coveredAt = .ok (s, outcome))
    (hstored : c.stored seededAt action p ∈ (c.seeded seededAt).rules) :
    c.stored seededAt action p ∈ s.rules :=
  Coverage.mem_pass_of_mem (h.reachable_seeded seededAt).sound hpass hstored

theorem ValidRules.holds_of_stored (h : ValidRules c.rules)
    (hpass : Coverage.pass order.keeper (c.seeded seededAt) c.policy coveredAt = .ok (s, outcome))
    (hstored : c.stored seededAt action p ∈ (c.seeded seededAt).rules) : c.Holds s action p := by
  have hsound := (Coverage.reachable_of_pass (h.reachable_seeded seededAt) hpass).sound
  exact ⟨_, hsound.ruleFor_eq_some_iff.mpr ⟨h.mem_of_stored hpass hstored, rfl⟩, rfl, rfl, rfl⟩

/-- No listed rule runs out, and one that is not a wildcard is a rule for a name. -/
theorem ValidRules.answers_of_stored (h : ValidRules c.rules)
    (hpass : Coverage.pass order.keeper (c.seeded seededAt) c.policy coveredAt = .ok (s, outcome))
    (hstored : c.stored seededAt action p ∈ (c.seeded seededAt).rules)
    (hstar : ¬ Name.star <+: (Name.normalize p).toList) : Answers s p action := by
  intro now
  have hsound := (Coverage.reachable_of_pass (h.reachable_seeded seededAt) hpass).sound
  have hmem := h.mem_of_stored hpass hstored
  have hkind : (c.stored seededAt action p).kind = .exact := by
    rw [kind_stored_eq_exact_iff, Option.isNone_iff_eq_none]
    by_contra hrest
    obtain ⟨rest, hrest⟩ := Option.ne_none_iff_exists'.mp hrest
    exact hstar ⟨rest, (Name.afterStar?_eq_some_iff.mp hrest).symm⟩
  have hdomain : (c.stored seededAt action p).domain = Name.normalize p := rfl
  have hquery : Name.queryFault? (Name.normalize p) = none := by
    rw [← hdomain]
    exact Rule.queryFault?_of_exact (hsound.accepted _ hmem) hkind
  obtain ⟨decision, hcheck, -, haction⟩ :=
    hsound.check_of_exact hquery hmem hdomain (h.isExpired_eq_false hstored)
  exact ⟨decision, hcheck, haction⟩

/-! ### Rules that are not listed -/

theorem ValidRules.exists_pattern (h : ValidRules c.rules) (hr : r ∈ (c.seeded now).rules) :
    ∃ p ∈ c.rules.allow ++ c.rules.block, Name.normalize p = r.domain := by
  rcases h.mem_seeded_iff.mp hr with ⟨p, hp, rfl⟩ | ⟨p, hp, rfl⟩
  · exact ⟨p, List.mem_append_right _ hp, rfl⟩
  · exact ⟨p, List.mem_append_left _ hp, rfl⟩

/-- What the pass has added stands for a listed wildcard. -/
theorem ValidRules.root_of_unlisted (h : ValidRules c.rules)
    (hpass : Coverage.pass order.keeper (c.seeded seededAt) c.policy coveredAt = .ok (s, outcome))
    (hr : r ∈ s.rules)
    (hunlisted : ∀ p ∈ c.rules.allow ++ c.rules.block, Name.normalize p ≠ r.domain) :
    r.autoGenerated = true ∧ r.source = .system ∧ r.kind = .exact ∧
      ∃ p ∈ c.rules.allow ++ c.rules.block,
        Name.rootOfWildcard? (Name.normalize p) = some r.domain := by
  have hseeded := h.reachable_seeded seededAt
  have hnew : r ∉ (c.seeded seededAt).rules := by
    intro hold
    obtain ⟨p, hp, hdomain⟩ := h.exists_pattern hold
    exact hunlisted p hp hdomain
  obtain ⟨w, root, hdue, rfl⟩ := Coverage.isDue_of_new hseeded hpass hr hnew
  obtain ⟨p, hp, hdomain⟩ := h.exists_pattern hdue.mem
  refine ⟨rfl, rfl, rfl, p, hp, Name.rootOfWildcard?_eq_some_iff.mpr ⟨?_, ?_⟩⟩
  · rintro rfl
    exact Rule.root_ne_nil (hseeded.sound.accepted w hdue.mem) hdue.domain_eq rfl
  · rw [hdomain, hdue.domain_eq]
    rfl

/-! ### The start -/

theorem ValidRules.isStart (h : ValidRules c.rules)
    (hpass : Coverage.pass order.keeper (c.seeded seededAt) c.policy coveredAt =
      .ok (s, outcome)) : c.IsStart s := by
  have hallow (p : String) (hp : p ∈ c.rules.allow) :
      c.stored seededAt .allow p ∈ (c.seeded seededAt).rules :=
    h.mem_seeded_iff.mpr (.inr ⟨p, hp, rfl⟩)
  have hblock (p : String) (hp : p ∈ c.rules.block) :
      c.stored seededAt .block p ∈ (c.seeded seededAt).rules :=
    h.mem_seeded_iff.mpr (.inl ⟨p, hp, rfl⟩)
  exact
    { allowed := fun p hp => h.holds_of_stored hpass (hallow p hp)
      blocked := fun p hp => h.holds_of_stored hpass (hblock p hp)
      others := fun r hr => h.root_of_unlisted hpass hr
      answers_allow := fun p hp => h.answers_of_stored hpass (hallow p hp)
      answers_block := fun p hp => h.answers_of_stored hpass (hblock p hp) }

/-- Wherever starting from a valid configuration succeeds, in whatever order the rules are listed and
however long it takes, the store holds for each pattern to allow a rule that allows, and for each pattern
to block one that blocks, the user's and with the standard priority; every other rule is a generated one
for the root of a listed wildcard. A listed name, as it is written in the configuration, is allowed or
blocked as its list says, at all times. -/
theorem start_holds_listed {α : Type} (c : Config) (hvalid : c.fault? = none) :
    (∀ now services, (Services.ofConfig c now : Except Fault (Services α)) = .ok services →
        c.IsStart services.rules) ∧
      ∀ order seededAt coveredAt s, c.start order seededAt coveredAt = .ok s → c.IsStart s := by
  have hrules := validRules_of_fault? hvalid
  constructor
  · intro now services hservices
    rw [Services.ofConfig_eq_map hrules, map_eq_ok_iff] at hservices
    obtain ⟨answer, hpass, rfl⟩ := hservices
    change Coverage.pass Listing.asStored.keeper _ _ _ = _ at hpass
    exact hrules.isStart hpass
  · intro order seededAt coveredAt s hs
    rw [hrules.start_eq_map, map_eq_ok_iff] at hs
    obtain ⟨answer, hpass, rfl⟩ := hs
    exact hrules.isStart hpass

/-- The root of the wildcard to allow is to block itself, and two of the spellings are of one pattern. -/
def contested : Config :=
  { Config.standard with
    policy := ⟨.includeRoot, true⟩
    rules := { RuleSettings.standard with
      block := ["Ads.com."]
      allow := ["*.Ads.com", "*.ads.com.", "*.org"] } }

theorem start_holds_listed_sample : contested.fault? = none ∧
    ∃ services, (Services.ofConfig contested ⟨200, 0⟩ : Except Fault (Services Nat)) = .ok services ∧
      services.rules.size = 4 ∧ contested.Holds services.rules .allow "*.Ads.com" ∧
      Answers services.rules "Ads.com." .block := by
  have hvalid : contested.fault? = none := by decide +kernel
  have hsize : (Services.ofConfig contested ⟨200, 0⟩ : Except Fault (Services Nat)).map
      (·.rules.size) = .ok 4 := by decide +kernel
  obtain ⟨services, hservices, hsize⟩ := map_eq_ok_iff.mp hsize
  have hstart := (start_holds_listed contested hvalid).1 _ services hservices
  refine ⟨hvalid, services, hservices, hsize, hstart.allowed _ (by decide), ?_⟩
  exact hstart.answers_block _ (by decide) (by decide +kernel)

end Config

end DnsFilter
