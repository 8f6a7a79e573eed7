import DnsFilter.Config.Basic
import DnsFilter.Toml.Outline

/-! Writing a configuration: every setting is given, group by group, but for the limit on rules, which is
left out where there is none. -/

namespace DnsFilter

open Toml (Text Setting)

namespace Config

/-! ### Settings -/

def natural (name : String) (n : Nat) : Text × Setting := (name.toList, .integer n)

def integer (name : String) (n : Int) : Text × Setting := (name.toList, .integer n)

def boolean (name : String) (b : Bool) : Text × Setting := (name.toList, .boolean b)

def string (name s : String) : Text × Setting := (name.toList, .text s.toList)

def strings (name : String) (items : List String) : Text × Setting :=
  (name.toList, .texts (items.map String.toList))

/-! ### Groups -/

def policySettings (p : WildcardPolicy) : List (Text × Setting) :=
  [integer "mode" p.mode.number, boolean "respect_allowlist_precedence" p.respectAllowlist]

def cacheSettings (c : CacheSettings) : List (Text × Setting) :=
  [natural "max_entries" c.maxEntries, natural "max_ttl" c.maxTtl,
   natural "sweep_interval" c.sweepInterval, natural "shard_amount" c.shardAmount]

def ruleSettings (r : RuleSettings) : List (Text × Setting) :=
  [strings "allow" r.allow, strings "block" r.block, integer "default_priority" r.defaultPriority] ++
    r.maxRules.toList.map (natural "max_rules") ++
    [natural "expiry_check_interval" r.expiryInterval]

def jobSettings (j : JobSettings) : List (Text × Setting) :=
  [natural "enhancement_interval" j.coverageInterval, natural "query_stats_interval" j.statsInterval,
   natural "query_stats_retention_days" j.retentionDays]

def logSettings (l : LogSettings) : List (Text × Setting) :=
  [string "level" l.level, boolean "json" l.json]

/-! ### The whole configuration -/

def groups (c : Config) : Toml.Groups :=
  [("wildcard".toList, policySettings c.policy), ("cache".toList, cacheSettings c.cache),
   ("rules".toList, ruleSettings c.rules), ("jobs".toList, jobSettings c.jobs),
   ("logging".toList, logSettings c.logging)]

/-- The text of a configuration. -/
def text (c : Config) (F : Toml.Format := .standard) : Text := F.write c.groups

end Config

end DnsFilter
