import DnsFilter.Config.Basic
import DnsFilter.Jobs

/-! Starting from a configuration: its rules go into an empty store, and one coverage pass completes
them. -/

namespace DnsFilter

namespace Config

/-- The user's rule for a pattern of the configuration. -/
def seed (c : Config) (action : Action) (pattern : String) : Except Fault Rule := do
  let r ← Rule.ofPattern pattern action
  return { r with priority := c.rules.defaultPriority }

/-- The rules of the configuration. Those that allow come last, so that they stand where a pattern
is listed in both ways. -/
def seeds (c : Config) : Except Fault (List Rule) := do
  let block ← c.rules.block.mapM (c.seed .block)
  let allow ← c.rules.allow.mapM (c.seed .allow)
  return block ++ allow

def cacheLimits (c : Config) : CacheLimits := ⟨c.cache.maxEntries, c.cache.maxTtl⟩

/-- The background jobs with their intervals. -/
def schedule (c : Config) : List (Job × Nat) :=
  [(.coverage, c.jobs.coverageInterval), (.sweep, c.cache.sweepInterval),
   (.expiry, c.rules.expiryInterval), (.retention c.jobs.retentionDays, c.jobs.statsInterval)]

/-- The store to start with, where its rules may be listed in any order and seeding and covering may
happen at different times. -/
def start (c : Config) (order : Listing) (seededAt coveredAt : Instant) : Except Fault Store := do
  let seeds ← c.seeds
  let (seeded, _) ← Store.keeper.reload (Store.empty c.rules.maxRules) .user seeds seededAt
  let (rules, _) ← Coverage.pass order.keeper seeded c.policy coveredAt
  return rules

end Config

/-- The services at the start. Any refusal on the way is final. -/
def Services.ofConfig {α : Type} (c : Config) (now : Instant) : Except Fault (Services α) := do
  let seeds ← c.seeds
  let (seeded, _) ← Store.keeper.reload (Store.empty c.rules.maxRules) .user seeds now
  let (rules, _) ← Coverage.pass Store.keeper seeded c.policy now
  return { rules, policy := c.policy, cache := .empty c.cacheLimits, stats := .empty }

end DnsFilter
