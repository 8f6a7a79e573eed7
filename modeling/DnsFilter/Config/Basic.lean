import DnsFilter.Rule.Basic
import DnsFilter.WildcardPolicy

/-! The configuration: its settings with their standard values, which settings are valid together,
and what can go wrong with it. Intervals are in seconds. -/

namespace DnsFilter

structure CacheSettings where
  maxEntries : Nat
  /-- The longest time to live of an answer, in seconds. -/
  maxTtl : Nat
  sweepInterval : Nat
  shardAmount : Nat
  deriving DecidableEq, Repr

def CacheSettings.standard : CacheSettings := ⟨10000, 86400, 60, 16⟩

/-- Settings about rules. `allow` and `block` are the patterns of the rules that are there from the
start. -/
structure RuleSettings where
  allow : List String
  block : List String
  defaultPriority : Priority
  maxRules : Option Nat
  expiryInterval : Nat
  deriving DecidableEq, Repr

def RuleSettings.standard : RuleSettings := ⟨[], [], 0, none, 300⟩

structure JobSettings where
  coverageInterval : Nat
  statsInterval : Nat
  /-- How many days a query counter is kept after its last query. -/
  retentionDays : Nat
  deriving DecidableEq, Repr

def JobSettings.standard : JobSettings := ⟨300, 3600, 7⟩

structure LogSettings where
  level : String
  json : Bool
  deriving DecidableEq, Repr

def LogSettings.standard : LogSettings := ⟨"info", false⟩

structure Config where
  policy : WildcardPolicy
  cache : CacheSettings
  rules : RuleSettings
  jobs : JobSettings
  logging : LogSettings
  deriving DecidableEq, Repr

/-- Why settings are not valid. -/
inductive SettingFault where
  | noEntries
  | noTtl
  | oddShards
  | noInterval
  | noRetention
  | badPattern (pattern : String) (cause : Fault)
  | listedTwice (pattern : String)
  | tooManyRules (configured limit : Nat)
  deriving DecidableEq, Repr

def SettingFault.message : SettingFault → String
  | .noEntries => "cache.max_entries must be greater than 0"
  | .noTtl => "cache.max_ttl must be greater than 0"
  | .oddShards => "cache.shard_amount must be a power of two"
  | .noInterval => "Job intervals must be greater than 0"
  | .noRetention => "jobs.query_stats_retention_days must be greater than 0"
  | .badPattern pattern cause => "Invalid rule pattern '" ++ pattern ++ "': " ++ cause.message
  | .listedTwice pattern =>
      "Pattern '" ++ pattern ++ "' is listed in both rules.allow and rules.block"
  | .tooManyRules configured limit =>
      toString configured ++ " configured rules exceed rules.max_rules (" ++ toString limit ++ ")"

/-- Why there is no configuration to work with, or it could not be saved. -/
inductive ConfigFault where
  | unreadable (path reason : String)
  | unwritable (path reason : String)
  | malformed
  | invalid (cause : SettingFault)
  deriving DecidableEq, Repr

def ConfigFault.message : ConfigFault → String
  | .unreadable path reason => "Failed to read config file " ++ path ++ ": " ++ reason
  | .unwritable path reason => "Failed to write config file " ++ path ++ ": " ++ reason
  | .malformed => "Failed to parse config"
  | .invalid cause => "Configuration validation error: " ++ cause.message

/-- A fault of the configuration as a refused operation. -/
def ConfigFault.toFault (f : ConfigFault) : Fault := .config f.message

namespace Config

def standard : Config :=
  ⟨.standard, .standard, .standard, .standard, .standard⟩

def isPowerOfTwo (n : Nat) : Bool := n != 0 && Nat.pow 2 n.log2 == n

/-- The first fault among patterns. -/
def patternFault? (patterns : List String) : Option SettingFault :=
  patterns.findSome? fun p => (Rule.draft p .allow).fault?.map (.badPattern p)

/-- The first pattern to block that is also one to allow, in their normal spelling. -/
def listedTwice? (rules : RuleSettings) : Option String :=
  let allowed := rules.allow.map Name.normalize
  rules.block.find? fun p => allowed.contains (Name.normalize p)

/-- Why the settings about rules are not valid, apart from the interval. -/
def ruleFault? (rules : RuleSettings) : Option SettingFault :=
  let configured := rules.allow.length + rules.block.length
  match patternFault? (rules.allow ++ rules.block), listedTwice? rules, rules.maxRules with
  | some cause, _, _ => some cause
  | none, some pattern, _ => some (.listedTwice pattern)
  | none, none, some limit =>
      if limit < configured then some (.tooManyRules configured limit) else none
  | none, none, none => none

/-- Why the configuration is not valid, or `none` if it is. -/
def fault? (c : Config) : Option SettingFault :=
  if c.cache.maxEntries = 0 then some .noEntries
  else if c.cache.maxTtl = 0 then some .noTtl
  else if !isPowerOfTwo c.cache.shardAmount then some .oddShards
  else if c.cache.sweepInterval = 0 ∨ c.jobs.coverageInterval = 0 ∨
      c.rules.expiryInterval = 0 ∨ c.jobs.statsInterval = 0 then some .noInterval
  else if c.jobs.retentionDays = 0 then some .noRetention
  else ruleFault? c.rules

end Config

/-- Settings that are given for one run and go before those of the configuration. -/
structure Overrides where
  logLevel : Option String
  mode : Option WildcardMode
  maxEntries : Option Nat
  deriving DecidableEq, Repr

def Overrides.none : Overrides := ⟨.none, .none, .none⟩

def Config.override (c : Config) (o : Overrides) : Config :=
  { c with
    policy := { c.policy with mode := o.mode.getD c.policy.mode }
    cache := { c.cache with maxEntries := o.maxEntries.getD c.cache.maxEntries }
    logging := { c.logging with level := o.logLevel.getD c.logging.level } }

end DnsFilter
