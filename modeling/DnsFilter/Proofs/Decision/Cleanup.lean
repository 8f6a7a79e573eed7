import DnsFilter.Proofs.Decision.Verdict
import DnsFilter.Proofs.Name.Normal
import DnsFilter.Proofs.Store.Updates

/-! What checks see of a removal of the rules that have run out: nothing, at that time or later. A check
leaves out the expired rules among those that it has found, the removal takes them out of the store
before any search. Both go by the same rule of when a rule has run out, and what has run out stays so. A
search that asks for no time at all sees after the removal what a check saw at its time before. -/

namespace DnsFilter.Store

variable {s : Store} {name : String} {now t : Instant}

/-- Rules that are left out of the store are left out of what is found, and nothing else changes: the
order of what is found comes from the name. -/
theorem Sound.findMatches_filter (hs : s.Sound) (hname : Name.queryFault? name = none)
    (keep : Rule → Bool) :
    ({ s with rules := s.rules.filter keep } : Store).view.findMatches name =
      (s.view.findMatches name).filter keep := by
  have hleft (domain : String) :
      ({ s with rules := s.rules.filter keep } : Store).ruleFor domain =
        (s.ruleFor domain).filter keep :=
    find?_key_filter hs.distinct keep domain
  rw [findMatches_eq_filterMap _ hname, findMatches_eq_filterMap _ hname, List.filter_filterMap]
  exact List.filterMap_congr fun domain _ => hleft domain

theorem Sound.liveMatches_of_cleanup (hs : s.Sound) (hname : Name.queryFault? name = none)
    (hle : now ≤ t) :
    ({ s with rules := s.rules.filter fun r => !r.isExpired now } : Store).liveMatches name t =
      s.liveMatches name t := by
  rw [liveMatches, hs.findMatches_filter hname, List.filter_filter, liveMatches]
  refine List.filter_congr fun r _ => ?_
  cases hlive : r.isExpired t with
  | true => rfl
  | false =>
      rw [Rule.isExpired_eq_false_of_le hle hlive]
      rfl

theorem resolve_eq (view : RuleView) (name : String) :
    view.resolve name =
      match (Precedence.sort name (view.findMatches name)).head? with
      | some r => r.action
      | none => .unknown := by
  rw [RuleView.resolve]
  cases Precedence.sort name (view.findMatches name) <;> rfl

/-- Without a look at the time the cleaned store resolves as the store before it did at that time. -/
theorem Sound.resolve_of_cleanup (hs : s.Sound) (hname : Name.queryFault? name = none)
    (now : Instant) :
    ({ s with rules := s.rules.filter fun r => !r.isExpired now } : Store).view.resolve name =
      (Decision.of s.view name now).action := by
  rw [resolve_eq, hs.findMatches_filter hname]
  rfl

/-- Removing the rules that have run out by `now` is never refused, and no check at that time or later
tells the store after it from the store before it: every text gets the same refusal or the same decision.
Resolving a name that may be asked for, which pays no heed to expiry, gives on the cleaned store the
action that a check at `now` gives on the one before. -/
theorem cleanup_unseen_by_checks (s : Store) (hs : s.Reachable) (now : Instant) :
    ∃ next count, s.tryRemoveExpired now = .ok (next, count) ∧
      (∀ typed t, now ≤ t → next.view.check typed t = s.view.check typed t) ∧
      ∀ name, Name.queryFault? name = none →
        ∃ decision, s.view.check name now = .ok decision ∧
          next.view.resolve name = decision.action := by
  have hsound := hs.sound
  refine ⟨_, _, hsound.tryRemoveExpired_eq now, ?_, ?_⟩
  · intro typed t hle
    exact check_congr fun hname => hsound.liveMatches_of_cleanup hname hle
  · intro name hname
    have hnormal : Name.normalize name = name :=
      Name.normalize_eq_self (Name.queryFault?_eq_none_iff_patternFault?.mp hname).2
    have hcheck : s.view.check name now = .ok (Decision.of s.view name now) := by
      rw [check_of_queryFault? (by rwa [hnormal]), hnormal]
    exact ⟨_, hcheck, hsound.resolve_of_cleanup hname now⟩

/-- The rule for the name runs out at the very time of the removal; from then on the wildcards over it
decide, cleaned up or not. -/
theorem cleanup_unseen_by_checks_sample : sample.Reachable ∧
    (⟨100, 0⟩ : Instant) ≤ ⟨100, 0⟩ ∧ (⟨100, 0⟩ : Instant) ≤ ⟨250, 7⟩ ∧
    Name.queryFault? "mail.ads.com" = none ∧
    ∃ next count, sample.tryRemoveExpired ⟨100, 0⟩ = .ok (next, count) ∧
      next.view.check " Mail.Ads.com. " ⟨100, 0⟩ = sample.view.check " Mail.Ads.com. " ⟨100, 0⟩ ∧
      next.view.check "*.com" ⟨250, 7⟩ = sample.view.check "*.com" ⟨250, 7⟩ ∧
      ∃ decision, sample.view.check "mail.ads.com" ⟨100, 0⟩ = .ok decision ∧
        next.view.resolve "mail.ads.com" = decision.action := by
  have hnow : (⟨100, 0⟩ : Instant) ≤ ⟨100, 0⟩ := by decide
  have hlater : (⟨100, 0⟩ : Instant) ≤ ⟨250, 7⟩ := by decide
  have hname : Name.queryFault? "mail.ads.com" = none := by decide +kernel
  obtain ⟨next, count, hremoved, hcheck, hresolve⟩ :=
    cleanup_unseen_by_checks sample reachable_sample ⟨100, 0⟩
  exact ⟨reachable_sample, hnow, hlater, hname, next, count, hremoved, hcheck _ _ hnow,
    hcheck _ _ hlater, hresolve _ hname⟩

end DnsFilter.Store
