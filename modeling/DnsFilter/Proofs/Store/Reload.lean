import DnsFilter.Proofs.Store.Calls

/-! Reloading the rules of one source, whether they say that they come from it or are taken to. A domain
has one rule whoever it comes from, so that a reload reaches beyond its source in one way: the rule of
another source for a domain that the batch names gives way to the batch. All other rules of other
sources stay, over any number of reloads. -/

namespace DnsFilter.Store

variable {s next : Store} {source : Source} {batch rules : List Rule} {r : Reload} {q : Rule}

/-! ### One reload -/

/-- A rule from before stays in a list exactly if no rule is put in over it. -/
theorem mem_foldl_place_iff_of_notMem (h : (rules.map (·.domain)).Nodup) (hq : q ∉ batch) :
    q ∈ batch.foldl place rules ↔ q ∈ rules ∧ ∀ p ∈ batch, p.domain ≠ q.domain := by
  rw [mem_iff_find?_key (foldl_distinct map_domain_place batch h), mem_iff_find?_key h, find?_foldl_place]
  cases hfind : batch.reverse.find? (·.domain == q.domain) with
  | none =>
      have hunnamed : ∀ p ∈ batch, p.domain ≠ q.domain := by
        intro p hp
        simpa using List.find?_eq_none.mp hfind p (List.mem_reverse.mpr hp)
      rw [Option.none_or, and_iff_left hunnamed]
  | some p =>
      have hp : p ∈ batch := List.mem_reverse.mp (List.mem_of_find?_eq_some hfind)
      have hdomain : p.domain = q.domain := by simpa using List.find?_some hfind
      rw [Option.some_or]
      constructor
      · intro hpq
        exact absurd (Option.some.inj hpq ▸ hp) hq
      · rintro ⟨-, hunnamed⟩
        exact absurd hdomain (hunnamed p hp)

theorem Reload.write_of_attempt (h : r.attempt source s = .ok next) :
    s.write (.replaceSource source (r.handed source)) = .ok next := by
  cases r with
  | stated batch => exact h
  | claimed batch now => exact PolicedStore.write_of_reload h

theorem source_eq_of_replaceSource (h : s.write (.replaceSource source batch) = .ok next) :
    ∀ p ∈ batch, p.source = source := by
  obtain ⟨-, hjudged⟩ := map_judged_eq_ok h
  cases hforeign : batch.find? fun p => p.source != source with
  | some p =>
      rw [hforeign] at hjudged
      cases hjudged
  | none => simpa using hforeign

theorem Reload.forall_mem_handed_iff {domain : String} :
    (∀ p ∈ r.handed source, p.domain ≠ domain) ↔ ∀ p ∈ r.batch, p.domain ≠ domain := by
  cases r with
  | stated batch => exact Iff.rfl
  | claimed batch now => simp [handed, Reload.batch, Keeper.claimed]

theorem Sound.mem_reload_iff (hs : s.Sound) (h : r.attempt source s = .ok next)
    (hq : q.source ≠ source) :
    q ∈ next.rules ↔ q ∈ s.rules ∧ ∀ p ∈ r.batch, p.domain ≠ q.domain := by
  have hwrite := Reload.write_of_attempt h
  have hnew : q ∉ r.handed source :=
    fun hmem => hq (source_eq_of_replaceSource hwrite q hmem)
  have hkept : q ∈ s.rules.filter (fun p => p.source != source) ↔ q ∈ s.rules := by
    rw [List.mem_filter, bne_iff_ne, and_iff_left hq]
  obtain ⟨-, rfl, -⟩ := write_eq_ok hwrite
  calc
    q ∈ (r.handed source).foldl place (s.rules.filter fun p => p.source != source)
      ↔ q ∈ s.rules.filter (fun p => p.source != source) ∧
          ∀ p ∈ r.handed source, p.domain ≠ q.domain :=
        mem_foldl_place_iff_of_notMem ((List.filter_sublist.map Rule.domain).nodup hs.distinct) hnew
    _ ↔ q ∈ s.rules ∧ ∀ p ∈ r.batch, p.domain ≠ q.domain := by
        rw [hkept, Reload.forall_mem_handed_iff]

/-- Where the batch names a domain, a rule of the source comes to stand. -/
theorem Sound.exists_of_mem_batch (hs : s.Sound) (h : r.attempt source s = .ok next) {p : Rule}
    (hp : p ∈ r.batch) : ∃ t ∈ next.rules, t.domain = p.domain ∧ t.source = source := by
  have hwrite := Reload.write_of_attempt h
  have hsource := source_eq_of_replaceSource hwrite
  obtain ⟨t, ht, hdomain⟩ : ∃ t ∈ r.handed source, t.domain = p.domain := by
    by_contra hnone
    push Not at hnone
    exact Reload.forall_mem_handed_iff.mp hnone p hp rfl
  have hsome : ((r.handed source).reverse.find? (·.domain == p.domain)).isSome = true :=
    List.find?_isSome.mpr ⟨t, List.mem_reverse.mpr ht, beq_iff_eq.mpr hdomain⟩
  obtain ⟨last, hlast⟩ := Option.isSome_iff_exists.mp hsome
  have hmem : last ∈ r.handed source :=
    List.mem_reverse.mp (List.mem_of_find?_eq_some hlast)
  have hfound : next.ruleFor p.domain = some last := by
    obtain ⟨-, rfl, -⟩ := write_eq_ok hwrite
    rw [ruleFor, Write.applyTo, find?_foldl_place, hlast, Option.some_or]
  obtain ⟨hstored, hlastDomain⟩ := (hs.write hwrite).ruleFor_eq_some_iff.mp hfound
  exact ⟨last, hstored, hlastDomain, hsource last hmem⟩

/-! ### Any number of reloads -/

theorem Reachable.reload (hs : s.Reachable) (h : r.attempt source s = .ok next) : next.Reachable :=
  .write _ hs (Reload.write_of_attempt h)

theorem reloaded_of_ok (h : r.attempt source s = .ok next) : reloaded source s r = next := by
  rw [reloaded, h, PolicedStore.orKeep]

theorem reloaded_of_error {cause : Fault} (h : r.attempt source s = .error cause) :
    reloaded source s r = s := by
  rw [reloaded, h, PolicedStore.orKeep]

theorem Reachable.mem_reloads_iff (hs : s.Reachable) (reloads : List Reload)
    (hq : q.source ≠ source) :
    q ∈ (reloads.foldl (reloaded source) s).rules ↔
      q ∈ s.rules ∧ ∀ r ∈ Reload.granted source s reloads, ∀ p ∈ r.batch, p.domain ≠ q.domain := by
  induction reloads generalizing s with
  | nil => simp [Reload.granted]
  | cons r rest ih =>
      rw [List.foldl_cons, Reload.granted]
      cases hattempt : r.attempt source s with
      | error cause => rw [reloaded_of_error hattempt, ih hs]
      | ok next =>
          rw [reloaded_of_ok hattempt, ih (hs.reload hattempt), hs.sound.mem_reload_iff hattempt hq,
            List.forall_mem_cons, and_assoc]

/-- A reload that is refused changes nothing. One that is not keeps of the rules of other sources just
those whose domain the batch does not name; a domain that it names has a rule of the reloaded source
afterwards. So the rules of other sources after any number of reloads are those from before whose
domain no granted reload has named. -/
theorem reload_keeps_unnamed (source : Source) (s : Store) (hs : s.Reachable) :
    (∀ r cause, Reload.attempt source s r = .error cause → reloaded source s r = s) ∧
      (∀ r next, Reload.attempt source s r = .ok next → reloaded source s r = next ∧
        (∀ q, q.source ≠ source →
          (q ∈ next.rules ↔ q ∈ s.rules ∧ ∀ p ∈ r.batch, p.domain ≠ q.domain)) ∧
        ∀ p ∈ r.batch, ∃ t ∈ next.rules, t.domain = p.domain ∧ t.source = source) ∧
      ∀ reloads q, q.source ≠ source →
        (q ∈ (reloads.foldl (reloaded source) s).rules ↔
          q ∈ s.rules ∧
            ∀ r ∈ Reload.granted source s reloads, ∀ p ∈ r.batch, p.domain ≠ q.domain) := by
  refine ⟨?_, ?_, ?_⟩
  · intro r cause hattempt
    exact reloaded_of_error hattempt
  · intro r next hattempt
    refine ⟨reloaded_of_ok hattempt, ?_, ?_⟩
    · intro q hq
      exact hs.sound.mem_reload_iff hattempt hq
    · intro p hp
      exact hs.sound.exists_of_mem_batch hattempt hp
  · intro reloads q hq
    exact hs.mem_reloads_iff reloads hq

/-- Two reloads of a source that has no rule yet: one that the limit refuses, and one that names a
domain of the user's. -/
def sampleReloads : List Reload :=
  [.claimed [Rule.draft "new.org" .allow] ⟨50, 0⟩, .claimed [Rule.draft "*.com" .block] ⟨60, 0⟩]

/-- The user's rule for the domain that was named is gone, the one for another is still there. -/
theorem reload_keeps_unnamed_sample : sample.Reachable ∧
    Reload.granted .remote sample sampleReloads =
      [.claimed [Rule.draft "*.com" .block] ⟨60, 0⟩] ∧
    Rule.draft "*.org" .block ∈ (sampleReloads.foldl (reloaded .remote) sample).rules ∧
    Rule.draft "*.com" .allow ∉ (sampleReloads.foldl (reloaded .remote) sample).rules := by
  have hgranted : Reload.granted .remote sample sampleReloads =
      [.claimed [Rule.draft "*.com" .block] ⟨60, 0⟩] := by decide +kernel
  obtain ⟨-, -, hreloads⟩ := reload_keeps_unnamed .remote sample reachable_sample
  refine ⟨reachable_sample, hgranted, ?_, ?_⟩
  · rw [hreloads sampleReloads _ (by decide +kernel), hgranted]
    decide +kernel
  · rw [hreloads sampleReloads _ (by decide +kernel), hgranted]
    decide +kernel

/-- A reload of one source, in either way, takes away a rule of another one. -/
theorem reload_displaces_other_source : sample.Reachable ∧
    (∃ q ∈ sample.rules, q.source ≠ .remote ∧
      q ∉ (reloaded .remote sample
        (.stated [{ Rule.draft "*.com" .block with source := .remote }])).rules) ∧
    ∃ q ∈ sample.rules, q.source ≠ .remote ∧
      q ∉ (reloaded .remote sample (.claimed [Rule.draft "*.com" .block] ⟨60, 0⟩)).rules :=
  ⟨reachable_sample, by decide +kernel, by decide +kernel⟩

end DnsFilter.Store
