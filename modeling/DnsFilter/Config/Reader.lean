import DnsFilter.Config.Basic
import DnsFilter.Toml.Outline

/-! Reading a configuration. Each group of settings is a table of the document, in which a setting
is looked up by its name; a group may also be written as an array, which gives its settings in
order. Settings that are not given have their standard values, and names that mean nothing are
passed over. -/

namespace DnsFilter

open Toml (Text Value Part)

namespace Config

/-! ### Looking up settings -/

/-- Finds a setting of a group by its name, or by its position. -/
abbrev Lookup := Text → Nat → Option Value

/-- The settings of a group, unless what has its name is no group. A date says nothing of them. -/
def lookup? : Option Part → Option Lookup
  | none | some (.value .date) => some fun _ _ => none
  | some (.table settings) => some fun name _ => settings name
  | some (.value (.array items)) => some fun _ position => items[position]?
  | some (.value _) => none

/-- A setting, which has the value `preset` where nothing is given. -/
def setting? {α : Type} (look : Lookup) (name : String) (position : Nat)
    (read? : Value → Option α) (preset : α) : Option α :=
  match look name.toList position with
  | some v => read? v
  | none => some preset

/-! ### Values of settings -/

/-- A whole number up to `bound`. -/
def natural? (bound : Nat) : Value → Option Nat
  | .integer n => if 0 ≤ n ∧ n ≤ bound then some n.toNat else none
  | _ => none

def max32 : Nat := 0xffffffff

def max64 : Nat := 0xffffffffffffffff

def priority? : Value → Option Priority
  | .integer n => if Priority.least ≤ n ∧ n ≤ Priority.greatest then some n else none
  | _ => none

def mode? : Value → Option WildcardMode
  | .integer n => WildcardMode.ofNumber? n
  | _ => none

def boolean? : Value → Option Bool
  | .boolean b => some b
  | _ => none

def text? : Value → Option String
  | .string s => some (String.ofList s)
  | _ => none

def texts? : Value → Option (List String)
  | .array items => items.mapM text?
  | _ => none

/-! ### Groups -/

def policyOf? (look : Lookup) : Option WildcardPolicy := do
  let mode ← setting? look "mode" 0 mode? WildcardPolicy.standard.mode
  let respectAllowlist ←
    setting? look "respect_allowlist_precedence" 1 boolean? WildcardPolicy.standard.respectAllowlist
  return { mode, respectAllowlist }

def cacheOf? (look : Lookup) : Option CacheSettings := do
  let preset := CacheSettings.standard
  let maxEntries ← setting? look "max_entries" 0 (natural? max64) preset.maxEntries
  let maxTtl ← setting? look "max_ttl" 1 (natural? max32) preset.maxTtl
  let sweepInterval ← setting? look "sweep_interval" 2 (natural? max64) preset.sweepInterval
  let shardAmount ← setting? look "shard_amount" 3 (natural? max64) preset.shardAmount
  return { maxEntries, maxTtl, sweepInterval, shardAmount }

def rulesOf? (look : Lookup) : Option RuleSettings := do
  let preset := RuleSettings.standard
  let allow ← setting? look "allow" 0 texts? preset.allow
  let block ← setting? look "block" 1 texts? preset.block
  let defaultPriority ← setting? look "default_priority" 2 priority? preset.defaultPriority
  let maxRules ←
    setting? look "max_rules" 3 (fun v => (natural? max64 v).map some) preset.maxRules
  let expiryInterval ←
    setting? look "expiry_check_interval" 4 (natural? max64) preset.expiryInterval
  return { allow, block, defaultPriority, maxRules, expiryInterval }

def jobsOf? (look : Lookup) : Option JobSettings := do
  let preset := JobSettings.standard
  let coverageInterval ←
    setting? look "enhancement_interval" 0 (natural? max64) preset.coverageInterval
  let statsInterval ← setting? look "query_stats_interval" 1 (natural? max64) preset.statsInterval
  let retentionDays ←
    setting? look "query_stats_retention_days" 2 (natural? max32) preset.retentionDays
  return { coverageInterval, statsInterval, retentionDays }

def loggingOf? (look : Lookup) : Option LogSettings := do
  let level ← setting? look "level" 0 text? LogSettings.standard.level
  let json ← setting? look "json" 1 boolean? LogSettings.standard.json
  return { level, json }

/-! ### The whole configuration -/

/-- How many settings each group has. -/
def shape : Toml.Shape :=
  [("wildcard".toList, 2), ("cache".toList, 4), ("rules".toList, 5), ("jobs".toList, 3),
    ("logging".toList, 2)]

def ofRoot? (root : Toml.Root) : Option Config := do
  let policy ← policyOf? (← lookup? (root "wildcard".toList))
  let cache ← cacheOf? (← lookup? (root "cache".toList))
  let rules ← rulesOf? (← lookup? (root "rules".toList))
  let jobs ← jobsOf? (← lookup? (root "jobs".toList))
  let logging ← loggingOf? (← lookup? (root "logging".toList))
  return { policy, cache, rules, jobs, logging }

/-- The configuration a text stands for. -/
def ofText? (s : Text) (F : Toml.Format := .standard) : Option Config :=
  (F.read? shape s).bind ofRoot?

end Config

end DnsFilter
