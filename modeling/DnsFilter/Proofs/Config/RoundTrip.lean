import DnsFilter.Config.Files
import DnsFilter.Proofs.Files.Writing
import DnsFilter.Proofs.Toml.Writing

/-! A configuration that is saved is loaded again, by any library that reads what it writes. Every setting
is written in a form that is read back, whatever strings, numbers and lists the settings are. -/

namespace DnsFilter.Config

open Toml (Text Value Setting)

variable {F : Toml.Format}

/-! ### Settings that are read -/

/-- Numbers no greater than a configuration can hold. -/
structure InRange (c : Config) : Prop where
  maxEntries : c.cache.maxEntries ≤ max64
  maxTtl : c.cache.maxTtl ≤ max32
  sweepInterval : c.cache.sweepInterval ≤ max64
  shardAmount : c.cache.shardAmount ≤ max64
  defaultPriority : Priority.least ≤ c.rules.defaultPriority ∧
    c.rules.defaultPriority ≤ Priority.greatest
  maxRules : ∀ n ∈ c.rules.maxRules, n ≤ max64
  expiryInterval : c.rules.expiryInterval ≤ max64
  coverageInterval : c.jobs.coverageInterval ≤ max64
  statsInterval : c.jobs.statsInterval ≤ max64
  retentionDays : c.jobs.retentionDays ≤ max32

/-- What holds of the preset and of all that is read holds of a setting. -/
theorem of_setting? {α : Type} {P : α → Prop} {look : Lookup} {name : String} {position : Nat}
    {read? : Value → Option α} {preset a : α} (h : setting? look name position read? preset = some a)
    (hpreset : P preset) (hread : ∀ v a, read? v = some a → P a) : P a := by
  rw [setting?] at h
  split at h
  · exact hread _ a h
  · obtain rfl := Option.some.inj h
    exact hpreset

theorem natural?_integer {bound n : Nat} (h : n ≤ bound) :
    natural? bound (.integer n) = some n := by
  have hn : (0 : Int) ≤ n ∧ (n : Int) ≤ bound := ⟨Int.natCast_nonneg n, Int.ofNat_le.mpr h⟩
  rw [natural?, if_pos hn, Int.toNat_natCast]

theorem le_of_natural? {bound n : Nat} {v : Value} (h : natural? bound v = some n) : n ≤ bound := by
  cases v with
  | integer m =>
      rw [natural?] at h
      split at h
      next hm =>
        obtain rfl := Option.some.inj h
        omega
      next => cases h
  | string | boolean | float | date | array | table => cases h

/-- A setting that is a whole number is within the bound it is read under. -/
theorem le_of_setting? {look : Lookup} {name : String} {position bound preset n : Nat}
    (h : setting? look name position (natural? bound) preset = some n) (hpreset : preset ≤ bound) :
    n ≤ bound :=
  of_setting? (P := (· ≤ bound)) h hpreset fun _ _ => le_of_natural?

theorem inRange_cacheOf? {look : Lookup} {c : CacheSettings} (h : cacheOf? look = some c) :
    c.maxEntries ≤ max64 ∧ c.maxTtl ≤ max32 ∧ c.sweepInterval ≤ max64 ∧ c.shardAmount ≤ max64 := by
  simp only [cacheOf?, Option.bind_eq_bind, Option.bind_eq_some_iff] at h
  obtain ⟨maxEntries, hentries, maxTtl, httl, sweepInterval, hsweep, shardAmount, hshard, h⟩ := h
  obtain rfl := Option.some.inj h
  exact ⟨le_of_setting? hentries (by decide), le_of_setting? httl (by decide),
    le_of_setting? hsweep (by decide), le_of_setting? hshard (by decide)⟩

theorem inRange_rulesOf? {look : Lookup} {r : RuleSettings} (h : rulesOf? look = some r) :
    (Priority.least ≤ r.defaultPriority ∧ r.defaultPriority ≤ Priority.greatest) ∧
      (∀ n ∈ r.maxRules, n ≤ max64) ∧ r.expiryInterval ≤ max64 := by
  simp only [rulesOf?, Option.bind_eq_bind, Option.bind_eq_some_iff] at h
  obtain ⟨allow, -, block, -, priority, hpriority, maxRules, hmax, expiry, hexpiry, h⟩ := h
  obtain rfl := Option.some.inj h
  refine ⟨of_setting? (P := fun p => Priority.least ≤ p ∧ p ≤ Priority.greatest) hpriority
      (by decide) fun v a hv => ?_,
    of_setting? (P := fun m => ∀ n ∈ m, n ≤ max64) hmax (by simp [RuleSettings.standard])
      fun v a hv => ?_,
    le_of_setting? hexpiry (by decide)⟩
  · cases v with
    | integer n =>
        rw [priority?] at hv
        split at hv
        next hn => exact Option.some.inj hv ▸ hn
        next => cases hv
    | string | boolean | float | date | array | table => cases hv
  · obtain ⟨n, hn, rfl⟩ := Option.map_eq_some_iff.mp hv
    simpa using le_of_natural? hn

theorem inRange_jobsOf? {look : Lookup} {j : JobSettings} (h : jobsOf? look = some j) :
    j.coverageInterval ≤ max64 ∧ j.statsInterval ≤ max64 ∧ j.retentionDays ≤ max32 := by
  simp only [jobsOf?, Option.bind_eq_bind, Option.bind_eq_some_iff] at h
  obtain ⟨coverage, hcoverage, stats, hstats, days, hdays, h⟩ := h
  obtain rfl := Option.some.inj h
  exact ⟨le_of_setting? hcoverage (by decide), le_of_setting? hstats (by decide),
    le_of_setting? hdays (by decide)⟩

theorem inRange_of_ofText? {s : Text} {c : Config} (h : ofText? s F = some c) : c.InRange := by
  obtain ⟨root, -, h⟩ := Option.bind_eq_some_iff.1 h
  simp only [ofRoot?, Option.bind_eq_bind, Option.bind_eq_some_iff] at h
  obtain ⟨_, -, _, -, _, -, cache, hcache, _, -, rules, hrules, _, -, jobs, hjobs, _, -, _, -, h⟩ := h
  obtain rfl := Option.some.inj h
  obtain ⟨hentries, httl, hsweep, hshard⟩ := inRange_cacheOf? hcache
  obtain ⟨hpriority, hmax, hexpiry⟩ := inRange_rulesOf? hrules
  obtain ⟨hcoverage, hstats, hdays⟩ := inRange_jobsOf? hjobs
  exact ⟨hentries, httl, hsweep, hshard, hpriority, hmax, hexpiry, hcoverage, hstats, hdays⟩

/-! ### The groups that are written -/

/-- The settings that a group gives. -/
def lookupOf (settings : List (Text × Setting)) : Lookup :=
  fun name _ => (settings.lookup name).map Setting.value

theorem policyOf?_lookupOf (p : WildcardPolicy) :
    policyOf? (lookupOf (policySettings p)) = some p := by
  obtain ⟨mode, respect⟩ := p
  cases mode <;> rfl

theorem cacheOf?_lookupOf {c : Config} (h : c.InRange) :
    cacheOf? (lookupOf (cacheSettings c.cache)) = some c.cache := by
  calc
    _ = (do
      let maxEntries ← natural? max64 (.integer c.cache.maxEntries)
      let maxTtl ← natural? max32 (.integer c.cache.maxTtl)
      let sweepInterval ← natural? max64 (.integer c.cache.sweepInterval)
      let shardAmount ← natural? max64 (.integer c.cache.shardAmount)
      return { maxEntries, maxTtl, sweepInterval, shardAmount }) := rfl
    _ = some c.cache := by
      simp [natural?_integer, h.maxEntries, h.maxTtl, h.sweepInterval, h.shardAmount]

theorem texts?_strings (items : List String) :
    texts? (strings "" items).2.value = some items := by
  show (((items.map String.toList).map Value.string).mapM text?) = some items
  rw [List.map_map]
  induction items with
  | nil => rfl
  | cons s items ih =>
      rw [List.map_cons, List.mapM_cons, ih]
      simp [text?]

theorem expiryInterval_lookupOf {c : Config} (h : c.InRange) :
    setting? (lookupOf (ruleSettings c.rules)) "expiry_check_interval" 4 (natural? max64)
      RuleSettings.standard.expiryInterval = some c.rules.expiryInterval := by
  have hexpiry := h.expiryInterval
  obtain ⟨policy, cache, ⟨allow, block, priority, maxRules, expiry⟩, jobs, logging⟩ := c
  calc
    _ = natural? max64 (.integer expiry) := by cases maxRules <;> rfl
    _ = some expiry := natural?_integer hexpiry

/-- The limit on rules is left out exactly where there is none, which is what its absence means. -/
theorem maxRules_lookupOf {c : Config} (h : c.InRange) :
    setting? (lookupOf (ruleSettings c.rules)) "max_rules" 3
      (fun v => (natural? max64 v).map some) none = some c.rules.maxRules := by
  have hmax := h.maxRules
  obtain ⟨policy, cache, ⟨allow, block, priority, maxRules, expiry⟩, jobs, logging⟩ := c
  cases maxRules with
  | none => rfl
  | some n =>
      calc
        _ = (natural? max64 (.integer n)).map some := rfl
        _ = some (some n) := by rw [natural?_integer (by simpa using hmax)]; rfl

theorem rulesOf?_lookupOf {c : Config} (h : c.InRange) :
    rulesOf? (lookupOf (ruleSettings c.rules)) = some c.rules := by
  calc
    _ = (do
      let allow ← texts? (strings "" c.rules.allow).2.value
      let block ← texts? (strings "" c.rules.block).2.value
      let defaultPriority ← priority? (.integer c.rules.defaultPriority)
      let maxRules ← setting? (lookupOf (ruleSettings c.rules)) "max_rules" 3
        (fun v => (natural? max64 v).map some) none
      let expiryInterval ← setting? (lookupOf (ruleSettings c.rules)) "expiry_check_interval" 4
        (natural? max64) RuleSettings.standard.expiryInterval
      return { allow, block, defaultPriority, maxRules, expiryInterval }) := rfl
    _ = some c.rules := by
      simp [texts?_strings, priority?, h.defaultPriority, maxRules_lookupOf h,
        expiryInterval_lookupOf h]

theorem jobsOf?_lookupOf {c : Config} (h : c.InRange) :
    jobsOf? (lookupOf (jobSettings c.jobs)) = some c.jobs := by
  calc
    _ = (do
      let coverageInterval ← natural? max64 (.integer c.jobs.coverageInterval)
      let statsInterval ← natural? max64 (.integer c.jobs.statsInterval)
      let retentionDays ← natural? max32 (.integer c.jobs.retentionDays)
      return { coverageInterval, statsInterval, retentionDays }) := rfl
    _ = some c.jobs := by
      simp [natural?_integer, h.coverageInterval, h.statsInterval, h.retentionDays]

theorem loggingOf?_lookupOf (l : LogSettings) :
    loggingOf? (lookupOf (logSettings l)) = some l := by
  calc
    _ = (do
      let level ← text? (.string l.level.toList)
      let json ← boolean? (.boolean l.json)
      return { level, json }) := rfl
    _ = some l := by simp [text?, boolean?]

/-- The groups of a configuration say what it is. -/
theorem ofRoot?_groups {c : Config} (h : c.InRange) : ofRoot? c.groups.root = some c := by
  calc
    _ = (do
      let policy ← policyOf? (lookupOf (policySettings c.policy))
      let cache ← cacheOf? (lookupOf (cacheSettings c.cache))
      let rules ← rulesOf? (lookupOf (ruleSettings c.rules))
      let jobs ← jobsOf? (lookupOf (jobSettings c.jobs))
      let logging ← loggingOf? (lookupOf (logSettings c.logging))
      return { policy, cache, rules, jobs, logging }) := rfl
    _ = some c := by
      rw [policyOf?_lookupOf, cacheOf?_lookupOf h, rulesOf?_lookupOf h, jobsOf?_lookupOf h,
        loggingOf?_lookupOf]
      rfl

theorem isWithin_natural {n bound : Nat} (h : n ≤ bound) (hbound : bound ≤ max64) :
    (Value.integer n).isWithin (-0x8000000000000000) 0xffffffffffffffff := by
  have hn : (n : Int) ≤ (max64 : Int) := Int.ofNat_le.mpr (h.trans hbound)
  simp only [Value.isWithin, decide_eq_true_eq, max64] at hn ⊢
  omega

theorem isWithin_strings (items : List String) :
    (strings "" items).2.value.isWithin (-0x8000000000000000) 0xffffffffffffffff := by
  show Value.isWithin _ _ (.array ((items.map String.toList).map .string))
  rw [Value.isWithin]
  induction items with
  | nil => rfl
  | cons s items ih => simpa [Toml.areWithin, Value.isWithin] using ih

theorem wellFormed_groups {c : Config} (h : c.InRange) : c.groups.WellFormed where
  names := by
    rw [show c.groups.map (·.1) = ["wildcard", "cache", "rules", "jobs", "logging"].map String.toList
      from rfl]
    decide
  settings := by
    simp only [groups, List.forall_mem_cons, List.not_mem_nil, false_implies, implies_true, and_true]
    refine ⟨?_, ?_, ?_, ?_, ?_⟩
    · exact (by decide : Toml.AreNames (["mode", "respect_allowlist_precedence"].map String.toList))
    · exact (by decide : Toml.AreNames
        (["max_entries", "max_ttl", "sweep_interval", "shard_amount"].map String.toList))
    · obtain ⟨policy, cache, ⟨allow, block, priority, maxRules, expiry⟩, jobs, logging⟩ := c
      cases maxRules with
      | none =>
          exact (by decide : Toml.AreNames
            (["allow", "block", "default_priority", "expiry_check_interval"].map String.toList))
      | some n =>
          exact (by decide : Toml.AreNames (["allow", "block", "default_priority", "max_rules",
            "expiry_check_interval"].map String.toList))
    · exact (by decide : Toml.AreNames (["enhancement_interval", "query_stats_interval",
        "query_stats_retention_days"].map String.toList))
    · exact (by decide : Toml.AreNames (["level", "json"].map String.toList))
  numbers := by
    have hmode : (Value.integer c.policy.mode.number).isWithin (-0x8000000000000000)
        0xffffffffffffffff := by cases c.policy.mode <;> decide
    have hpriority : (Value.integer c.rules.defaultPriority).isWithin (-0x8000000000000000)
        0xffffffffffffffff := by
      obtain ⟨hleast, hgreatest⟩ := h.defaultPriority
      rw [Value.isWithin, decide_eq_true_eq]
      exact ⟨Int.le_trans (by decide) hleast, Int.le_trans hgreatest (by decide)⟩
    have hsmall : max32 ≤ max64 := by decide
    simp only [groups, policySettings, cacheSettings, ruleSettings, jobSettings, logSettings,
      List.forall_mem_append, List.forall_mem_cons, List.forall_mem_map, List.not_mem_nil,
      false_implies, implies_true, and_true]
    exact ⟨⟨hmode, rfl⟩,
      ⟨isWithin_natural h.maxEntries le_rfl, isWithin_natural h.maxTtl hsmall,
        isWithin_natural h.sweepInterval le_rfl, isWithin_natural h.shardAmount le_rfl⟩,
      ⟨⟨⟨isWithin_strings _, isWithin_strings _, hpriority⟩,
        fun n hn => isWithin_natural (h.maxRules n (Option.mem_toList.1 hn)) le_rfl⟩,
        isWithin_natural h.expiryInterval le_rfl⟩,
      ⟨isWithin_natural h.coverageInterval le_rfl, isWithin_natural h.statsInterval le_rfl,
        isWithin_natural h.retentionDays hsmall⟩, rfl, rfl⟩

/-! ### Saving and loading -/

theorem ofText?_text (hF : F.Lawful) {s : Text} {c : Config} (h : ofText? s F = some c) :
    ofText? (c.text F) F = some c := by
  have hrange := inRange_of_ofText? h
  rw [ofText?, text, hF shape (wellFormed_groups hrange), Option.bind_some, ofRoot?_groups hrange]

/-- A configuration that was read from a text is read back, the same in every setting, from the text
that is written for it; where that text can be written to a file, it is saved and loaded again. Of the
library this asks only that it reads what it writes of groups of settings. -/
theorem saved_is_loaded (hF : F.Lawful) (s : Text) (c : Config) (h : ofText? s F = some c) :
    ofText? (c.text F) F = some c ∧
    ∀ (base : List String) (path : String) (t t' : FileTree),
      t.write base path (String.ofList (c.text F)) = .ok t' →
        (save (FileTree.access base) path c F).run t = (.ok (), t') ∧
        (loadFrom (FileTree.access base) path F).run t' = (.ok c, t') := by
  refine ⟨ofText?_text hF h, fun base path t t' hwrite => ⟨?_, ?_⟩⟩
  · simp [save, FileTree.access, hwrite]
    rfl
  · simp [loadFrom, FileTree.access, FileTree.read_write hwrite, ofText?_text hF h]
    rfl

/-- A text with a rule that has quotes, a backslash, a line end, a control character and a character
beyond ASCII in it, with an empty rule, and with the greatest limit there can be. -/
def sampleText : Text :=
  "[rules]\nallow = [\"\\\"''' \\\\\\n\\u0001é\", '']\nmax_rules = 18446744073709551615\n".toList

def sampleConfig : Config :=
  { standard with
    rules := { RuleSettings.standard with
      allow := ["\"''' \\\n\x01é", ""]
      maxRules := some max64 } }

theorem saved_is_loaded_sample :
    Toml.Format.standard.Lawful ∧ ofText? sampleText = some sampleConfig ∧
    ofText? sampleConfig.text = some sampleConfig ∧
    ∃ t, (save (FileTree.access []) "c" sampleConfig).run ⟨[]⟩ = (.ok (), t) ∧
      (loadFrom (FileTree.access []) "c").run t = (.ok sampleConfig, t) := by
  have hread : ofText? sampleText = some sampleConfig := by decide +kernel
  have hwrite : (⟨[]⟩ : FileTree).write [] "c" (String.ofList sampleConfig.text) =
      .ok ⟨[(["c"], .text (String.ofList sampleConfig.text))]⟩ := by
    rw [FileTree.write, Path.parse_letter]
    rfl
  obtain ⟨htext, hfile⟩ :=
    saved_is_loaded Toml.Format.lawful_standard sampleText sampleConfig hread
  exact ⟨Toml.Format.lawful_standard, hread, htext, _, hfile [] "c" _ _ hwrite⟩

end DnsFilter.Config
