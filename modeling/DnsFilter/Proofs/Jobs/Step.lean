import DnsFilter.Jobs
import DnsFilter.Proofs.Cache.Sound
import DnsFilter.Proofs.Coverage.Roots
import DnsFilter.Proofs.Stats.Retention
import DnsFilter.Proofs.Store.Refusal

/-! One pass of a background job. A pass changes one part of the services at most. It takes from it just
what it is there to drop, and only coverage adds to it: rules for roots that are due. A pass that is
refused changes nothing, and its job goes on. -/

namespace DnsFilter

variable {α : Type}

/-- A coverage pass, refused or not, keeps every rule and brings in none but those for roots that are
due. -/
theorem Coverage.mem_passOrKeep {rules : Store} (hs : rules.Reachable) (order : Listing)
    (policy : WildcardPolicy) (now : Instant) {q : Rule} :
    (q ∈ rules.rules → q ∈ (passOrKeep order.keeper rules policy now).rules) ∧
      (q ∈ (passOrKeep order.keeper rules policy now).rules → q ∈ rules.rules ∨
        ∃ w root, rules.IsDue policy now w root ∧ q = rootRule w root now) := by
  unfold passOrKeep
  cases hpass : pass order.keeper rules policy now with
  | error cause => exact ⟨id, .inl⟩
  | ok answer =>
      obtain ⟨next, outcome⟩ := answer
      show (q ∈ rules.rules → q ∈ next.rules) ∧ (q ∈ next.rules → _)
      by_cases hmode : policy.mode = .subdomainsOnly
      · rw [next_eq_of_subdomainsOnly hpass hmode]
        exact ⟨id, .inl⟩
      · have hmem := mem_pass_iff (q := q) hs hpass hmode
        exact ⟨fun hq => hmem.mpr (.inl hq), hmem.mp⟩

namespace Services

variable {s : Services α} {p : Pass}

/-! ### What one pass changes -/

/-- What a pass does to the services, part by part. -/
theorem after_eq (s : Services α) (p : Pass) : s.after p =
    { rules := match p.job with
        | .coverage => Coverage.passOrKeep p.order.keeper s.rules s.policy p.now
        | .expiry => (s.rules.removeExpired p.now).1
        | .sweep | .retention _ => s.rules
      policy := s.policy
      cache := match p.job with
        | .sweep => (s.cache.sweep p.cacheClock).1
        | .coverage | .expiry | .retention _ => s.cache
      stats := match p.job with
        | .retention days => ((s.stats.retain? days p.now).map (·.1)).getD s.stats
        | .coverage | .sweep | .expiry => s.stats } := by
  obtain ⟨job, order, clock, cacheClock⟩ := p
  cases job with
  | coverage => rfl
  | sweep => rfl
  | expiry => rfl
  | retention days =>
      simp only [after, Pass.run?, Job.pass?, reduceCtorEq, if_false]
      cases s.stats.retain? days _ <;> rfl

theorem policy_after (s : Services α) (p : Pass) : (s.after p).policy = s.policy := by
  rw [after_eq]

theorem reachable_after (hs : s.rules.Reachable) (p : Pass) : (s.after p).rules.Reachable := by
  rw [after_eq]
  cases p.job with
  | coverage =>
      rcases PolicedStore.passOrKeep_cases p.order s.rules s.policy p.now with hsame | ⟨w, hw⟩
      · exact hsame.symm ▸ hs
      · exact .write w hs hw
  | expiry =>
      refine .write (.removeExpired p.now) hs ?_
      rw [Store.write, hs.sound.tryRemoveExpired_eq, hs.sound.removeExpired_eq, Except.map]
  | sweep => exact hs
  | retention days => exact hs

theorem mem_after (hs : s.rules.Reachable) {r : Rule} (hr : r ∈ s.rules.rules)
    (hkept : p.dropsRule r = false) : r ∈ (s.after p).rules.rules := by
  unfold Pass.dropsRule at hkept
  rw [after_eq]
  cases hjob : p.job with
  | coverage => exact (Coverage.mem_passOrKeep hs p.order s.policy p.now).1 hr
  | expiry =>
      rw [hjob, beq_self_eq_true, Bool.true_and] at hkept
      show r ∈ (s.rules.removeExpired p.now).1.rules
      rw [hs.sound.removeExpired_eq]
      exact List.mem_filter.mpr ⟨hr, by rw [hkept]; rfl⟩
  | sweep => exact hr
  | retention days => exact hr

theorem notMem_after (hs : s.rules.Reachable) {r : Rule} (hdropped : p.dropsRule r = true) :
    r ∉ (s.after p).rules.rules := by
  obtain ⟨hjob, hexpired⟩ := Bool.and_eq_true_iff.mp hdropped
  rw [after_eq, beq_iff_eq.mp hjob]
  show r ∉ (s.rules.removeExpired p.now).1.rules
  rw [hs.sound.removeExpired_eq]
  intro hr
  have hlive := (List.mem_filter.mp hr).2
  rw [hexpired] at hlive
  cases hlive

theorem mem_of_mem_after (hs : s.rules.Reachable) {q : Rule} (hq : q ∈ (s.after p).rules.rules) :
    q ∈ s.rules.rules ∨ p.job = .coverage ∧
      ∃ w root, s.rules.IsDue s.policy p.now w root ∧ q = Coverage.rootRule w root p.now := by
  rw [after_eq] at hq
  revert hq
  cases p.job with
  | coverage =>
      intro hq
      rcases (Coverage.mem_passOrKeep hs p.order s.policy p.now).2 hq with hold | hnew
      · exact .inl hold
      · exact .inr ⟨rfl, hnew⟩
  | expiry =>
      show q ∈ (s.rules.removeExpired p.now).1.rules → _
      rw [hs.sound.removeExpired_eq]
      exact fun hq => .inl (List.mem_of_mem_filter hq)
  | sweep => exact .inl
  | retention days => exact .inl

theorem entries_after (s : Services α) (p : Pass) : (s.after p).cache.entries =
    s.cache.entries.filter fun entry => !p.dropsEntry entry.2 := by
  unfold Pass.dropsEntry
  rw [after_eq]
  cases p.job with
  | sweep => exact Cache.compact_entries _
  | coverage => exact (List.filter_true _).symm
  | expiry => exact (List.filter_true _).symm
  | retention days => exact (List.filter_true _).symm

theorem counters_after (s : Services α) (p : Pass) : (s.after p).stats.counters =
    s.stats.counters.filter fun c => !p.dropsCounter c := by
  unfold Pass.dropsCounter
  rw [after_eq]
  cases p.job with
  | retention days =>
      simp only [QueryStats.retain?]
      split_ifs with hearly
      · have hstart : ¬ Calendar.start ≤ p.now.daysBefore days := by
          rwa [Instant.not_le]
        simp [hstart]
      · have hstart : Calendar.start ≤ p.now.daysBefore days := by
          rwa [← Instant.not_le, not_not] at hearly
        simp only [Option.map_some, Option.getD_some, QueryStats.removeOlder_eq, hstart,
          decide_true, Bool.true_and]
  | coverage => exact (List.filter_true _).symm
  | sweep => exact (List.filter_true _).symm
  | expiry => exact (List.filter_true _).symm

/-- A coverage pass that is refused is made, and might as well not have been. -/
theorem run?_of_refused (hjob : p.job = .coverage) {cause : Fault}
    (hrefused : Coverage.pass p.order.keeper s.rules s.policy p.now = .error cause) :
    p.run? s = some s := by
  rw [Pass.run?, if_pos hjob, Coverage.passOrKeep, hrefused]

/-- The jobs that drop no counters are never ended by a pass. -/
theorem mem_tick (now : Instant) (cacheNow second : Nat) {handles : List JobHandle}
    (s : Services α) {h : JobHandle} (hh : h ∈ handles) (hjob : ∀ days, h.job ≠ .retention days) :
    h ∈ (JobRun.tick now cacheNow second handles s).1 := by
  induction handles generalizing s with
  | nil => exact hh
  | cons g rest ih =>
      have hrest (t : Services α) : h ∈ rest → h ∈ (JobRun.tick now cacheNow second rest t).1 :=
        fun hrest => ih t hrest
      rw [JobRun.tick]
      split
      · split
        · exact List.mem_cons.mpr ((List.mem_cons.mp hh).imp_right (hrest _))
        · rename_i hnone
          rcases List.mem_cons.mp hh with rfl | hh
          · cases hkind : h.job with
            | coverage => simp [hkind, Job.pass?] at hnone
            | sweep => simp [hkind, Job.pass?] at hnone
            | expiry => simp [hkind, Job.pass?] at hnone
            | retention days => exact absurd hkind (hjob days)
          · exact List.mem_cons_of_mem _ (hrest _ hh)
      · exact List.mem_cons.mpr ((List.mem_cons.mp hh).imp_right (hrest _))

end Services

end DnsFilter
