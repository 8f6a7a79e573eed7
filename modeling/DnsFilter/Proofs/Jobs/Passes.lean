import DnsFilter.Proofs.Jobs.Step
import Mathlib.Data.List.Induction

/-! Passes of the background jobs, one after the other, in any order and any number. Rules are the one
part of the state that two jobs change, coverage and expiry, and neither undoes what the other did. What
no pass would take away at the last time of a sequence none has taken away before, since the clocks do
not go back. -/

namespace DnsFilter

variable {α : Type}

/-- What is found in a list is found in what is left of it exactly if it is left. -/
theorem find?_filter_iff {β : Type} {l : List β} {wanted keep : β → Bool} {b : β}
    (h : l.find? wanted = some b) : (l.filter keep).find? wanted = some b ↔ keep b = true := by
  constructor
  · intro hleft
    exact (List.mem_filter.mp (List.mem_of_find?_eq_some hleft)).2
  · intro hkeep
    obtain ⟨hwanted, front, back, rfl, hfront⟩ := List.find?_eq_some_iff_append.mp h
    rw [List.filter_append, List.filter_cons_of_pos hkeep]
    refine List.find?_eq_some_iff_append.mpr ⟨hwanted, _, _, rfl, ?_⟩
    intro a ha
    exact hfront a (List.mem_of_mem_filter ha)

namespace Services

variable {s : Services α} {p : Pass} {passes : List Pass}

/-! ### Any number of passes -/

theorem reachable_passes (hs : s.rules.Reachable) (passes : List Pass) :
    (passes.foldl after s).rules.Reachable :=
  List.foldlRecOn (motive := fun t : Services α => t.rules.Reachable) passes after hs
    fun _ ht p _ => reachable_after ht p

theorem policy_passes (s : Services α) (passes : List Pass) :
    (passes.foldl after s).policy = s.policy :=
  List.foldlRecOn (motive := fun t : Services α => t.policy = s.policy) passes after rfl
    fun t ht p _ => (policy_after t p).trans ht

/-- A rule that no pass drops is kept by all. -/
theorem mem_passes (hs : s.rules.Reachable) {r : Rule} (hr : r ∈ s.rules.rules)
    (hkept : ∀ p ∈ passes, p.dropsRule r = false) : r ∈ (passes.foldl after s).rules.rules := by
  have hboth : (passes.foldl after s).rules.Reachable ∧ r ∈ (passes.foldl after s).rules.rules :=
    List.foldlRecOn (motive := fun t : Services α => t.rules.Reachable ∧ r ∈ t.rules.rules)
      passes after ⟨hs, hr⟩
      fun _ ht p hp => ⟨reachable_after ht.1 p, mem_after ht.1 ht.2 (hkept p hp)⟩
  exact hboth.2

/-- What every pass filters is filtered by all of them. -/
theorem filter_passes {β : Type} (part : Services α → List β) {drops : Pass → β → Bool}
    (hstep : ∀ s p, part (s.after p) = (part s).filter fun b => !drops p b) (s : Services α)
    (passes : List Pass) :
    part (passes.foldl after s) = (part s).filter fun b => passes.all fun p => !drops p b := by
  induction passes generalizing s with
  | nil => exact (List.filter_true _).symm
  | cons p rest ih =>
      rw [List.foldl_cons, ih, hstep, List.filter_filter]
      apply List.filter_congr
      intro b _
      rw [List.all_cons, Bool.and_comm]

theorem peek_passes_iff {key : Cache.Key} {e : Cache.Entry α} (he : s.cache.peek key = some e) :
    (passes.foldl after s).cache.peek key = some e ↔ ∀ p ∈ passes, p.dropsEntry e = false := by
  obtain ⟨⟨k, d⟩, hfound, rfl⟩ := Option.map_eq_some_iff.mp he
  rw [Cache.peek, Cache.find?, filter_passes (fun t => t.cache.entries) entries_after]
  constructor
  · intro hleft
    obtain ⟨entry, hentry, hstored⟩ := Option.map_eq_some_iff.mp hleft
    have hkept := (List.mem_filter.mp (List.mem_of_find?_eq_some hentry)).2
    rw [hstored] at hkept
    simpa using hkept
  · intro hkept
    rw [(find?_filter_iff hfound).mpr (by simpa using hkept), Option.map_some]

theorem counter?_passes_iff {domain : String} {c : QueryCounter}
    (hc : s.stats.counter? domain = some c) :
    (passes.foldl after s).stats.counter? domain = some c ↔
      ∀ p ∈ passes, p.dropsCounter c = false := by
  rw [QueryStats.counter?, filter_passes (fun t => t.stats.counters) counters_after,
    find?_filter_iff hc]
  simp

/-- A rule that was not there before stems from one of the coverage passes. -/
theorem mem_of_mem_passes (hs : s.rules.Reachable) (passes : List Pass) {q : Rule}
    (hq : q ∈ (passes.foldl after s).rules.rules) :
    q ∈ s.rules.rules ∨ ∃ earlier p later, passes = earlier ++ p :: later ∧ p.job = .coverage ∧
      ∃ w root, (earlier.foldl after s).rules.IsDue s.policy p.now w root ∧
        q = Coverage.rootRule w root p.now := by
  -- from the end: the last pass has brought the rule in, or found it there
  induction passes using List.reverseRecOn with
  | nil => exact .inl hq
  | append_singleton passes p ih =>
      rw [List.foldl_append, List.foldl_cons, List.foldl_nil] at hq
      rcases mem_of_mem_after (reachable_passes hs passes) hq with hold | ⟨hjob, hnew⟩
      · rcases ih hold with hstored | ⟨earlier, p', later, rfl, horigin⟩
        · exact .inl hstored
        · exact .inr ⟨earlier, p', later ++ [p], by simp, horigin⟩
      · rw [policy_passes] at hnew
        exact .inr ⟨passes, p, [], rfl, hjob, hnew⟩

/-! ### Clocks that do not go back -/

theorem before_last (hordered : passes.Pairwise Pass.Before) (hp : p ∈ passes) {last : Pass}
    (hlast : last ∈ passes.getLast?) : p.Before last := by
  obtain ⟨front, rfl⟩ := List.getLast?_eq_some_iff.mp hlast
  rcases List.mem_append.mp hp with hfront | hself
  · exact (List.pairwise_append.mp hordered).2.2 p hfront last List.mem_cons_self
  · rw [List.mem_singleton.mp hself]
    exact ⟨Int.le_refl _, Nat.le_refl _⟩

/-- What holds of the last pass holds of all, if it holds of every pass that is before one of which it
holds. -/
theorem forall_of_last {P : Pass → Prop} (hordered : passes.Pairwise Pass.Before)
    (hlast : ∀ p ∈ passes.getLast?, P p) (hback : ∀ p last, Pass.Before p last → P last → P p) :
    ∀ p ∈ passes, P p := by
  intro p hp
  cases hfound : passes.getLast? with
  | none =>
      rw [List.getLast?_eq_none_iff.mp hfound] at hp
      exact absurd hp List.not_mem_nil
  | some last => exact hback p last (before_last hordered hp hfound) (hlast last hfound)

theorem dropsRule_eq_false_of_last (hordered : passes.Pairwise Pass.Before) {r : Rule}
    (hlast : ∀ p ∈ passes.getLast?, r.isExpired p.now = false) :
    ∀ p ∈ passes, p.dropsRule r = false := by
  have hlive : ∀ p ∈ passes, r.isExpired p.now = false := by
    refine forall_of_last hordered hlast ?_
    intro p last hbefore
    exact Rule.isExpired_eq_false_of_le (Instant.ofNanos_le_ofNanos_iff.mpr hbefore.1)
  intro p hp
  rw [Pass.dropsRule, hlive p hp, Bool.and_false]

theorem dropsEntry_eq_false_of_last (hordered : passes.Pairwise Pass.Before) {e : Cache.Entry α}
    (hlast : ∀ p ∈ passes.getLast?, e.isExpired p.cacheClock = false) :
    ∀ p ∈ passes, p.dropsEntry e = false := by
  have hlive : ∀ p ∈ passes, e.isExpired p.cacheClock = false := by
    refine forall_of_last hordered hlast ?_
    intro p last hbefore hlive
    rw [← Bool.not_eq_true] at hlive ⊢
    exact mt (Cache.isExpired_mono hbefore.2) hlive
  intro p hp
  rw [Pass.dropsEntry, hlive p hp, Bool.and_false]

/-- The cutoffs of earlier passes are earlier, and keeping more days makes them earlier still. -/
theorem dropsCounter_eq_false_of_last (hordered : passes.Pairwise Pass.Before) {c : QueryCounter} {days : Nat}
    (hdays : ∀ p ∈ passes, ∀ n, p.job = .retention n → days ≤ n)
    (hlast : ∀ p ∈ (passes.filter (·.isRetention)).getLast?,
      Instant.ofNanos (p.clock - days * Instant.nanosPerDay) ≤ c.lastQueried) :
    ∀ p ∈ passes, p.dropsCounter c = false := by
  have hwindow := forall_of_last (hordered.filter _) hlast fun p last hbefore =>
    Instant.le_trans (Instant.ofNanos_le_ofNanos_iff.mpr (Int.sub_le_sub_right hbefore.1 _))
  intro p hp
  unfold Pass.dropsCounter
  cases hjob : p.job with
  | retention n =>
      have hmore : p.clock - n * Instant.nanosPerDay ≤ p.clock - days * Instant.nanosPerDay :=
        Int.sub_le_sub_left (mod_cast Nat.mul_le_mul_right _ (hdays p hp n hjob)) _
      have hretention : p ∈ passes.filter (·.isRetention) :=
        List.mem_filter.mpr ⟨hp, by rw [Pass.isRetention, hjob]⟩
      have hrecent : p.now.daysBefore n ≤ c.lastQueried := by
        rw [Pass.now, Instant.daysBefore_ofNanos]
        exact Instant.le_trans (Instant.ofNanos_le_ofNanos_iff.mpr hmore) (hwindow p hretention)
      have hkept : ¬ c.lastQueried < p.now.daysBefore n := by
        rwa [← Instant.not_le, not_not]
      simp [hkept]
  | coverage => rfl
  | sweep => rfl
  | expiry => rfl

/-- A rule is kept exactly if no pass drops it: one that is dropped has run out, and so has the wildcard
for which a coverage pass might have made it again. -/
theorem mem_passes_iff (hs : s.rules.Reachable) (hordered : passes.Pairwise Pass.Before) {r : Rule}
    (hr : r ∈ s.rules.rules) :
    r ∈ (passes.foldl after s).rules.rules ↔ ∀ p ∈ passes, p.dropsRule r = false := by
  refine ⟨?_, mem_passes hs hr⟩
  intro hlast p hp
  by_contra hdropped
  rw [Bool.not_eq_false] at hdropped
  obtain ⟨earlier, later, rfl⟩ := List.append_of_mem hp
  rw [List.foldl_append, List.foldl_cons] at hlast
  rcases mem_of_mem_passes (reachable_after (reachable_passes hs earlier) p) later hlast with
    hstored | ⟨front, q, back, rfl, -, w, root, hdue, rfl⟩
  · exact notMem_after (reachable_passes hs earlier) hdropped hstored
  · have hbefore : p.Before q :=
      (List.pairwise_cons.mp (List.pairwise_append.mp hordered).2.1).1 q
        (List.mem_append_right _ List.mem_cons_self)
    have hlive : w.isExpired p.now = false :=
      Rule.isExpired_eq_false_of_le (Instant.ofNanos_le_ofNanos_iff.mpr hbefore.1) hdue.live
    have hexpired : w.isExpired p.now = true := (Bool.and_eq_true_iff.mp hdropped).2
    rw [hlive] at hexpired
    cases hexpired

/-- Whatever passes the background jobs make, at times that do not go back, a rule, an entry of the cache
and a counter stay as they are exactly if no pass is there to drop them. So a rule and an entry stay that
are unexpired at the last pass, and a counter whose last query is within some days before the last
retention pass, where no retention pass keeps fewer days than that. A rule that is new is the one that a
coverage pass has added for the root of a wildcard which was stored and live then. A coverage pass that
is refused is as if it had not been, and it ends no job. -/
theorem passes_keep_live (s : Services α) (hs : s.rules.Reachable) (passes : List Pass)
    (hordered : passes.Pairwise Pass.Before) :
    let last := passes.foldl after s
    (∀ r ∈ s.rules.rules,
      (r ∈ last.rules.rules ↔ ∀ p ∈ passes, p.dropsRule r = false) ∧
      ((∀ p ∈ passes.getLast?, r.isExpired p.now = false) → r ∈ last.rules.rules)) ∧
    (∀ key e, s.cache.peek key = some e →
      (last.cache.peek key = some e ↔ ∀ p ∈ passes, p.dropsEntry e = false) ∧
      ((∀ p ∈ passes.getLast?, e.isExpired p.cacheClock = false) →
        last.cache.peek key = some e)) ∧
    (∀ domain c, s.stats.counter? domain = some c →
      (last.stats.counter? domain = some c ↔ ∀ p ∈ passes, p.dropsCounter c = false) ∧
      ∀ days : Nat, (∀ p ∈ passes, ∀ n, p.job = .retention n → days ≤ n) →
        (∀ p ∈ (passes.filter (·.isRetention)).getLast?,
          Instant.ofNanos (p.clock - days * Instant.nanosPerDay) ≤ c.lastQueried) →
        last.stats.counter? domain = some c) ∧
    (∀ q ∈ last.rules.rules, q ∉ s.rules.rules →
      ∃ earlier p later, passes = earlier ++ p :: later ∧ p.job = .coverage ∧
        ∃ w root, (earlier.foldl after s).rules.IsDue s.policy p.now w root ∧
          w.isWildcard = true ∧ q = Coverage.rootRule w root p.now) ∧
    ∀ earlier p later cause, passes = earlier ++ p :: later → p.job = .coverage →
      Coverage.pass p.order.keeper (earlier.foldl after s).rules s.policy p.now = .error cause →
      p.run? (earlier.foldl after s) = some (earlier.foldl after s) ∧
        last = (earlier ++ later).foldl after s ∧
        ∀ second handles, ∀ h ∈ handles, h.job = .coverage →
          h ∈ (JobRun.tick p.now p.cacheClock second handles (earlier.foldl after s)).1 := by
  refine ⟨?_, ?_, ?_, ?_, ?_⟩
  · intro r hr
    refine ⟨mem_passes_iff hs hordered hr, ?_⟩
    intro hlast
    exact mem_passes hs hr (dropsRule_eq_false_of_last hordered hlast)
  · intro key e he
    refine ⟨peek_passes_iff he, ?_⟩
    intro hlast
    exact (peek_passes_iff he).mpr (dropsEntry_eq_false_of_last hordered hlast)
  · intro domain c hc
    refine ⟨counter?_passes_iff hc, ?_⟩
    intro days hdays hlast
    exact (counter?_passes_iff hc).mpr (dropsCounter_eq_false_of_last hordered hdays hlast)
  · intro q hq hnew
    obtain ⟨earlier, p, later, hpasses, hjob, w, root, hdue, hroot⟩ :=
      (mem_of_mem_passes hs passes hq).resolve_left hnew
    have haccepted := (reachable_passes hs earlier).sound.accepted w hdue.mem
    have hwildcard := (Rule.isWildcard_iff haccepted).mpr ⟨root.toList, hdue.domain_eq⟩
    exact ⟨earlier, p, later, hpasses, hjob, w, root, hdue, hwildcard, hroot⟩
  · rintro earlier p later cause rfl hjob hrefused
    rw [← policy_passes s earlier] at hrefused
    have hrun := run?_of_refused hjob hrefused
    refine ⟨hrun, ?_, ?_⟩
    · rw [List.foldl_append, List.foldl_append, List.foldl_cons]
      congr 1
      rw [after, hrun, Option.getD_some]
    · intro second handles h hh hcoverage
      refine mem_tick p.now p.cacheClock second _ hh ?_
      simp [hcoverage]

/-! ### A few passes -/

/-- A store without room for the root of a wildcard, until two rules have run out. -/
def sampleStore : Store :=
  ⟨[{ Rule.draft "*.ads.com" .block with expiresAt := some ⟨900000, 0⟩ },
    Rule.draft "*.shop.com" .block, Rule.draft "www.shop.com" .allow,
    { Rule.draft "a.org" .block with expiresAt := some ⟨100, 0⟩ },
    { Rule.draft "b.org" .block with expiresAt := some ⟨100, 0⟩ }], some 5⟩

def sampleServices : Services Nat where
  rules := sampleStore
  policy := ⟨.smart, true⟩
  cache := ((Cache.empty ⟨10, 3600⟩).put 0 (.of "ads.com" .a) 1 60).put 0 (.of "b.org" .a) 2 5
  stats := QueryStats.sampleStats

/-- A pass on the tenth day of 1970, some seconds after its start. -/
def samplePass (job : Job) (seconds : Nat) : Pass :=
  ⟨job, .reversed, (777600 + seconds) * Instant.nanosPerSecond, seconds * 1000⟩

def samplePasses : List Pass :=
  [samplePass .coverage 0, samplePass .sweep 10, samplePass .expiry 20, samplePass .coverage 30,
    samplePass (.retention 3) 40]

theorem reachable_sampleStore : sampleStore.Reachable :=
  .write (.add sampleStore.rules) (.empty (some 5)) (by decide +kernel)

/-- The first pass is refused. The second coverage pass, after expiry has made room, adds a rule. -/
theorem passes_keep_live_sample : sampleServices.rules.Reachable ∧
    samplePasses.Pairwise Pass.Before ∧
    (∀ p ∈ samplePasses, ∀ n, p.job = .retention n → 3 ≤ n) ∧
    let last := samplePasses.foldl after sampleServices
    Rule.draft "*.shop.com" .block ∈ last.rules.rules ∧
    last.cache.peek (.of "ads.com" .a) = some ⟨1, 0, 60000, 60, 0⟩ ∧
    last.stats.counter? "new.com" = some ⟨"new.com", 1, ⟨604800, 0⟩⟩ ∧
    (∃ q ∈ last.rules.rules, q ∉ sampleServices.rules.rules ∧
      ∃ p ∈ samplePasses, p.job = .coverage ∧ ∃ w root, q = Coverage.rootRule w root p.now) ∧
    last = samplePasses.tail.foldl after sampleServices := by
  have hordered : samplePasses.Pairwise Pass.Before := by decide
  have hdays : ∀ p ∈ samplePasses, ∀ n, p.job = .retention n → 3 ≤ n := by
    simp [samplePasses, samplePass]
  obtain ⟨hrules, hentries, hcounters, hnew, hrefused⟩ :=
    passes_keep_live sampleServices reachable_sampleStore samplePasses hordered
  refine ⟨reachable_sampleStore, hordered, hdays, ?_, ?_, ?_, ?_, ?_⟩
  · exact (hrules _ (by decide +kernel)).2 (by decide +kernel)
  · exact (hentries _ _ (by decide +kernel)).2 (by decide +kernel)
  · exact (hcounters _ _ (by decide +kernel)).2 3 hdays (by decide +kernel)
  · obtain ⟨q, hq, hfresh⟩ : ∃ q ∈ (samplePasses.foldl after sampleServices).rules.rules,
        q ∉ sampleServices.rules.rules := by decide +kernel
    obtain ⟨earlier, p, later, hpasses, hjob, w, root, -, -, hroot⟩ := hnew q hq hfresh
    exact ⟨q, hq, hfresh, p, hpasses ▸ List.mem_append_right _ List.mem_cons_self, hjob, w, root,
      hroot⟩
  · exact (hrefused [] (samplePass .coverage 0) samplePasses.tail (.capacity 6 5) rfl rfl
      (by decide +kernel)).2.1

end Services

end DnsFilter
