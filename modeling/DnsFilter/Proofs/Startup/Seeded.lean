import DnsFilter.Proofs.Store.Calls
import DnsFilter.Proofs.Store.Domains
import DnsFilter.Startup

/-! The store that a valid configuration starts with, before any root is covered. Validity is about the
patterns as they are written, the store about their normal spelling: patterns that share a spelling
share a rule, and as no spelling is both allowed and blocked, each pattern has the rule of its list. -/

namespace DnsFilter.Config

variable {c : Config} {now : Instant}

/-! ### Valid settings about rules -/

theorem patternFault?_eq_none_iff {patterns : List String} :
    patternFault? patterns = none ↔ ∀ p ∈ patterns, (Rule.draft p .allow).fault? = none := by
  simp only [patternFault?, List.findSome?_eq_none_iff, Option.map_eq_none_iff]

theorem listedTwice?_eq_none_iff {rules : RuleSettings} :
    listedTwice? rules = none ↔
      ∀ p ∈ rules.block, ∀ q ∈ rules.allow, Name.normalize q ≠ Name.normalize p := by
  simp [listedTwice?]

/-- The settings about rules are valid. -/
structure ValidRules (rules : RuleSettings) : Prop where
  accepted : ∀ p ∈ rules.allow ++ rules.block, (Rule.draft p .allow).fault? = none
  disjoint : ∀ p ∈ rules.block, ∀ q ∈ rules.allow, Name.normalize q ≠ Name.normalize p
  fits : ∀ limit, rules.maxRules = some limit → rules.allow.length + rules.block.length ≤ limit

theorem ruleFault?_eq_none_iff {rules : RuleSettings} :
    ruleFault? rules = none ↔ ValidRules rules := by
  have hparts : ValidRules rules ↔ patternFault? (rules.allow ++ rules.block) = none ∧
      listedTwice? rules = none ∧
      ∀ limit, rules.maxRules = some limit →
        rules.allow.length + rules.block.length ≤ limit := by
    rw [patternFault?_eq_none_iff, listedTwice?_eq_none_iff]
    exact ⟨fun h => ⟨h.accepted, h.disjoint, h.fits⟩, fun h => ⟨h.1, h.2.1, h.2.2⟩⟩
  rw [hparts, ruleFault?]
  cases patternFault? (rules.allow ++ rules.block) with
  | some cause => simp
  | none =>
      cases listedTwice? rules with
      | some pattern => simp
      | none => cases rules.maxRules <;> simp

theorem validRules_of_fault? (h : c.fault? = none) : ValidRules c.rules := by
  unfold fault? at h
  split at h
  · cases h
  split at h
  · cases h
  split at h
  · cases h
  split at h
  · cases h
  split at h
  · cases h
  exact ruleFault?_eq_none_iff.mp h

/-! ### The rules of the configuration -/

/-- The rule that a pattern becomes. -/
def drafted (c : Config) (action : Action) (pattern : String) : Rule :=
  { Rule.draft pattern action with priority := c.rules.defaultPriority }

def drafts (c : Config) : List Rule :=
  c.rules.block.map (c.drafted .block) ++ c.rules.allow.map (c.drafted .allow)

/-- Whether a store accepts the rule for a pattern does not depend on what the rule asks for. -/
theorem fault?_draft (p : String) (action : Action) :
    (Rule.draft p action).fault? = (Rule.draft p .allow).fault? :=
  Rule.fault?_congr rfl rfl rfl

theorem seed_eq_ok {p : String} (h : (Rule.draft p .allow).fault? = none) (action : Action) :
    c.seed action p = .ok (c.drafted action p) := by
  rw [seed, Rule.ofPattern, fault?_draft, h]
  rfl

theorem mapM_eq_ok {α β ε : Type} {f : α → Except ε β} {g : α → β} {l : List α}
    (h : ∀ a ∈ l, f a = .ok (g a)) : l.mapM f = .ok (l.map g) := by
  induction l with
  | nil => rfl
  | cons a rest ih =>
      have hrest : rest.mapM f = .ok (rest.map g) := ih fun b hb => h b (List.mem_cons_of_mem a hb)
      rw [List.mapM_cons, h a List.mem_cons_self, hrest]
      rfl

theorem ValidRules.seeds_eq_ok (h : ValidRules c.rules) : c.seeds = .ok c.drafts := by
  have hblock : c.rules.block.mapM (c.seed .block) = .ok (c.rules.block.map (c.drafted .block)) :=
    mapM_eq_ok fun p hp => seed_eq_ok (h.accepted p (List.mem_append_right _ hp)) .block
  have hallow : c.rules.allow.mapM (c.seed .allow) = .ok (c.rules.allow.map (c.drafted .allow)) :=
    mapM_eq_ok fun p hp => seed_eq_ok (h.accepted p (List.mem_append_left _ hp)) .allow
  rw [seeds, hblock, hallow]
  rfl

/-! ### The store that they go into -/

/-- The rule of a pattern as it is stored. -/
def stored (c : Config) (now : Instant) (action : Action) (pattern : String) : Rule :=
  Keeper.claimed .user now (c.drafted action pattern)

theorem fault?_stored (p : String) (action : Action) :
    (c.stored now action p).fault? = (Rule.draft p .allow).fault? := by
  apply Rule.fault?_congr
  all_goals simp only [stored, drafted, Keeper.claimed, Rule.draft]

theorem stored_congr {p q : String} (h : Name.normalize p = Name.normalize q) (action : Action) :
    c.stored now action p = c.stored now action q := by
  rw [stored, stored, drafted, drafted, Rule.draft_congr h]

theorem mem_claimed_drafts_iff {r : Rule} : r ∈ c.drafts.map (Keeper.claimed .user now) ↔
    (∃ p ∈ c.rules.block, c.stored now .block p = r) ∨
      ∃ p ∈ c.rules.allow, c.stored now .allow p = r := by
  simp only [List.mem_map, drafts, List.mem_append, stored]
  constructor
  · rintro ⟨_, ⟨p, hp, rfl⟩ | ⟨p, hp, rfl⟩, rfl⟩
    · exact .inl ⟨p, hp, rfl⟩
    · exact .inr ⟨p, hp, rfl⟩
  · rintro (⟨p, hp, rfl⟩ | ⟨p, hp, rfl⟩)
    · exact ⟨_, .inl ⟨p, hp, rfl⟩, rfl⟩
    · exact ⟨_, .inr ⟨p, hp, rfl⟩, rfl⟩

/-- The store with the rules of the configuration and nothing else. -/
def seeded (c : Config) (now : Instant) : Store :=
  ⟨(c.drafts.map (Keeper.claimed .user now)).foldl Store.place [], c.rules.maxRules⟩

theorem seeded_rules :
    (c.seeded now).rules = (c.drafts.map (Keeper.claimed .user now)).foldl Store.place [] := rfl

/-- The patterns in their normal spelling. -/
def listed (c : Config) : List String := (c.rules.block ++ c.rules.allow).map Name.normalize

theorem map_domain_claimed_drafts (now : Instant) :
    (c.drafts.map (Keeper.claimed .user now)).map (·.domain) = c.listed := by
  simp [drafts, listed, Keeper.claimed, drafted, Rule.draft, Function.comp_def]

theorem domains_seeded : Store.domains (c.seeded now).rules = c.listed.toFinset := by
  have hbatch : Store.domains (c.drafts.map (Keeper.claimed .user now)) = c.listed.toFinset := by
    rw [Store.domains, map_domain_claimed_drafts]
  rw [seeded, Store.domains_foldl Store.map_domain_place, hbatch]
  exact Finset.empty_union _

theorem size_seeded : (c.seeded now).size = c.listed.toFinset.card := by
  have hdistinct : ((c.seeded now).rules.map (·.domain)).Nodup :=
    Store.foldl_distinct Store.map_domain_place _ List.nodup_nil
  rw [Store.size, ← Store.card_domains hdistinct, domains_seeded]

/-- Seeding is never refused: of the patterns each is accepted, and there are not too many. -/
theorem ValidRules.reload_seeds (h : ValidRules c.rules) (now : Instant) :
    Store.keeper.reload (Store.empty c.rules.maxRules) .user c.drafts now =
      .ok (c.seeded now, c.drafts.length) := by
  have haccepted : Store.batchFault? (c.drafts.map (Keeper.claimed .user now)) = none := by
    rw [Store.batchFault?_eq_none_iff]
    intro r hr
    rcases mem_claimed_drafts_iff.mp hr with ⟨p, hp, rfl⟩ | ⟨p, hp, rfl⟩
    · rw [fault?_stored]
      exact h.accepted p (List.mem_append_right _ hp)
    · rw [fault?_stored]
      exact h.accepted p (List.mem_append_left _ hp)
  have hown : (c.drafts.map (Keeper.claimed .user now)).find? (fun r => r.source != .user) = none := by
    simp [Keeper.claimed]
  have hfits : (Store.empty c.rules.maxRules).settle (c.seeded now).rules = .ok (c.seeded now) := by
    refine Store.settle_eq_ok_iff.mpr ⟨fun limit hlimit => ?_, rfl⟩
    calc
      (c.seeded now).rules.length = c.listed.toFinset.card := size_seeded
      _ ≤ c.listed.length := List.toFinset_card_le _
      _ = c.rules.allow.length + c.rules.block.length := by
        rw [listed, List.length_map, List.length_append, Nat.add_comm]
      _ ≤ limit := h.fits limit hlimit
  have hreplace : (Store.empty c.rules.maxRules).replaceSource .user
      (c.drafts.map (Keeper.claimed .user now)) = .ok (c.seeded now, c.drafts.length) := by
    have hkept : (Store.empty c.rules.maxRules).rules.filter (fun r => r.source != .user) = [] := rfl
    simp only [Store.replaceSource, haccepted, hown, hkept]
    rw [← seeded_rules, hfits, List.length_map]
    rfl
  simp only [Keeper.reload, haccepted]
  exact hreplace

theorem ValidRules.reachable_seeded (h : ValidRules c.rules) (now : Instant) :
    (c.seeded now).Reachable :=
  .write _ (.empty c.rules.maxRules)
    (PolicedStore.write_of_reload (by rw [h.reload_seeds now, Except.map]))

/-- Every pattern has its rule in the store, and there are no others. -/
theorem ValidRules.mem_seeded_iff (h : ValidRules c.rules) {r : Rule} : r ∈ (c.seeded now).rules ↔
    (∃ p ∈ c.rules.block, c.stored now .block p = r) ∨
      ∃ p ∈ c.rules.allow, c.stored now .allow p = r := by
  have hnew {q : Rule} (hq : q ∈ (c.seeded now).rules) :
      q ∈ c.drafts.map (Keeper.claimed .user now) :=
    (Store.mem_foldl (fun _ _ _ => Store.mem_place) _ hq).resolve_right List.not_mem_nil
  constructor
  · intro hr
    exact mem_claimed_drafts_iff.mp (hnew hr)
  · intro hr
    have hdomain : r.domain ∈ Store.domains (c.seeded now).rules := by
      rw [domains_seeded, ← map_domain_claimed_drafts now, List.mem_toFinset]
      exact List.mem_map_of_mem (mem_claimed_drafts_iff.mpr hr)
    obtain ⟨q, hq, hqr⟩ := Store.mem_domains.mp hdomain
    -- the rule that is there is for a pattern of the same spelling, hence of the same list
    obtain rfl : q = r := by
      rcases mem_claimed_drafts_iff.mp (hnew hq) with ⟨p, hp, rfl⟩ | ⟨p, hp, rfl⟩ <;>
        rcases hr with ⟨p', hp', rfl⟩ | ⟨p', hp', rfl⟩
      · exact stored_congr hqr .block
      · exact absurd hqr.symm (h.disjoint p hp p' hp')
      · exact absurd hqr (h.disjoint p' hp' p hp)
      · exact stored_congr hqr .allow
    exact hq

end DnsFilter.Config
