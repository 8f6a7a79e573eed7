import DnsFilter.Proofs.Rule.Discovery
import DnsFilter.Proofs.Store.Refusal

/-! What writes do to the store as a map from domains to rules. A write that is not refused changes what
is found for each domain by itself: what is found afterwards depends on what was found for that domain
before and on the write, and on no other rule of the store. Of several rules for one domain in a batch
the last one stands where rules are put in over what is there, and the first one where only missing ones
are added. What a write answers counts the batch, or the rules that have come or gone. -/

namespace DnsFilter.Store

variable {s next : Store} {batch rules : List Rule} {source : Source} {domain : String} {count : Nat}

/-- The first rule of a batch for a domain. -/
def firstFor (batch : List Rule) (domain : String) : Option Rule :=
  (batch.filter fun r => r.domain == domain).head?

/-- The last rule of a batch for a domain. -/
def lastFor (batch : List Rule) (domain : String) : Option Rule :=
  (batch.filter fun r => r.domain == domain).getLast?

/-- What a write leaves for a domain of the rule that was found for it. -/
def Write.found (domain : String) (old : Option Rule) : Write → Option Rule
  | .add batch => (lastFor batch domain).or old
  | .addMissing batch => old.or (firstFor batch domain)
  | .replaceSource source batch => (lastFor batch domain).or (old.filter (·.source != source))
  | .remove named => if domain = named then none else old
  | .removeSource source => old.filter (·.source != source)
  | .removeExpired now => old.filter (!·.isExpired now)

/-! ### What is found after a write -/

theorem lastFor_eq_find? (batch : List Rule) (domain : String) :
    lastFor batch domain = batch.reverse.find? (·.domain == domain) :=
  List.getLast?_filter

theorem firstFor_eq_find? (batch : List Rule) (domain : String) :
    firstFor batch domain = batch.find? (·.domain == domain) :=
  List.head?_filter

theorem filter_ruleFor_domain (s : Store) (domain named : String) :
    (s.ruleFor domain).filter (·.domain != named) =
      if domain = named then none else s.ruleFor domain := by
  cases hfound : s.ruleFor domain with
  | none => simp
  | some r =>
      obtain rfl := domain_of_ruleFor hfound
      by_cases hnamed : r.domain = named <;> simp [Option.filter, hnamed]

theorem Sound.ruleFor_write (hs : s.Sound) {w : Write} (h : s.write w = .ok next)
    (domain : String) : next.ruleFor domain = w.found domain (s.ruleFor domain) := by
  obtain ⟨-, rfl, -⟩ := write_eq_ok h
  cases w with
  | add batch =>
      rw [Write.found, lastFor_eq_find?]
      exact find?_foldl_place batch s.rules domain
  | addMissing batch =>
      rw [Write.found, firstFor_eq_find?]
      exact find?_foldl_placeMissing batch s.rules domain
  | replaceSource source batch =>
      have hkept := find?_key_filter hs.distinct (·.source != source) domain
      rw [Write.found, lastFor_eq_find?]
      exact (find?_foldl_place batch _ domain).trans (congrArg _ hkept)
  | remove named =>
      exact (find?_key_filter hs.distinct _ domain).trans (filter_ruleFor_domain s domain named)
  | removeSource source => exact find?_key_filter hs.distinct _ domain
  | removeExpired now => exact find?_key_filter hs.distinct _ domain

/-! ### What is answered -/

theorem eq_ok_of_claimed {claimed : Except Fault (Store × Nat)} {answer : Store × Nat}
    (h : (match batch.find? fun r => r.source != source with
      | some r => .error (.rule (.foreignSource r.domain r.source.text source.text))
      | none => claimed : Except Fault (Store × Nat)) = .ok answer) : claimed = .ok answer := by
  cases hforeign : batch.find? fun r => r.source != source with
  | some r =>
      rw [hforeign] at h
      cases h
  | none =>
      rw [hforeign] at h
      exact h

theorem count_of_add (h : s.add batch = .ok (next, count)) : count = batch.length :=
  count_of_settle (eq_ok_of_judged h)

theorem count_of_replaceSource (h : s.replaceSource source batch = .ok (next, count)) :
    count = batch.length :=
  count_of_settle (eq_ok_of_claimed (eq_ok_of_judged h))

/-- Removing the rule of a domain takes away one rule, or none where the domain has none. -/
theorem Sound.size_of_remove (hs : s.Sound) (named : String) :
    s.size = (s.rules.filter fun r => r.domain != named).length +
      (s.ruleFor named).isSome.toNat := by
  have hown : (s.rules.countP fun r => !(r.domain != named)) = (s.ruleFor named).isSome.toNat := by
    simp only [bne, Bool.not_not]
    rw [List.countP_eq_length_filter, ← hs.ruleFor_toList]
    cases s.ruleFor named <;> rfl
  rw [size_eq_add_countP s fun r => r.domain != named, hown]

/-! ### Every write -/

/-- A write of a store that can be reached acts on each domain by itself. Adding rules gives a domain the
last rule of the batch for it, and leaves it as it was where there is none; adding missing rules gives a
domain without a rule the first one of the batch for it. Replacing the rules of a source does what adding
does, but of the old rules the domain keeps only one from elsewhere. A removal is never refused and takes
away the rule for the domain that is named, the rules from the source, or those that have run out. What is
answered is the length of the batch for adding and replacing, and by how many rules the store has grown or
shrunk for all others, where a single removal says whether there was a rule to remove. -/
theorem write_updates_pointwise (s : Store) (hs : s.Reachable) :
    (∀ batch next count, s.add batch = .ok (next, count) →
        (∀ domain, next.ruleFor domain = (lastFor batch domain).or (s.ruleFor domain)) ∧
          count = batch.length) ∧
      (∀ batch next count, s.addMissing batch = .ok (next, count) →
        (∀ domain, next.ruleFor domain = (s.ruleFor domain).or (firstFor batch domain)) ∧
          next.size = s.size + count) ∧
      (∀ source batch next count, s.replaceSource source batch = .ok (next, count) →
        (∀ domain, next.ruleFor domain =
            (lastFor batch domain).or ((s.ruleFor domain).filter (·.source != source))) ∧
          count = batch.length) ∧
      (∀ named, ∃ next, s.tryRemove named = .ok (next, (s.ruleFor named).isSome) ∧
        (∀ domain, next.ruleFor domain = if domain = named then none else s.ruleFor domain) ∧
          s.size = next.size + (s.ruleFor named).isSome.toNat) ∧
      (∀ source, ∃ next count, s.tryRemoveSource source = .ok (next, count) ∧
        (∀ domain, next.ruleFor domain = (s.ruleFor domain).filter (·.source != source)) ∧
          s.size = next.size + count) ∧
      ∀ now, ∃ next count, s.tryRemoveExpired now = .ok (next, count) ∧
        (∀ domain, next.ruleFor domain = (s.ruleFor domain).filter (!·.isExpired now)) ∧
          s.size = next.size + count := by
  have hsound := hs.sound
  have hfound {w : Write} {next : Store} {α : Type} {attempt : Except Fault (Store × α)} {answer : α}
      (hw : s.write w = attempt.map Prod.fst) (h : attempt = .ok (next, answer)) (domain : String) :
      next.ruleFor domain = w.found domain (s.ruleFor domain) :=
    hsound.ruleFor_write (hw.trans (congrArg (Except.map Prod.fst) h)) domain
  refine ⟨?_, ?_, ?_, ?_, ?_, ?_⟩
  · intro batch next count h
    exact ⟨hfound (w := .add batch) rfl h, count_of_add h⟩
  · intro batch next count h
    exact ⟨hfound (w := .addMissing batch) rfl h, size_of_addMissing h⟩
  · intro source batch next count h
    exact ⟨hfound (w := .replaceSource source batch) rfl h, count_of_replaceSource h⟩
  · intro named
    have h := hsound.tryRemove_eq named
    exact ⟨_, h, hfound (w := .remove named) rfl h, hsound.size_of_remove named⟩
  · intro source
    have h : s.tryRemoveSource source = _ := hsound.keep_eq fun r => r.source != source
    exact ⟨_, _, h, hfound (w := .removeSource source) rfl h, size_eq_add_countP s _⟩
  · intro now
    have h := hsound.tryRemoveExpired_eq now
    have hsize := size_eq_add_countP s fun r => !r.isExpired now
    simp only [Bool.not_not] at hsize
    exact ⟨_, _, h, hfound (w := .removeExpired now) rfl h, hsize⟩

/-- The sample store with its rules, all of them the user's, replaced by the sample batch. -/
def replaced : Store := ⟨[Rule.draft "*.com" .block, Rule.draft "new.com" .allow], some 4⟩

/-- Of the two rules of the batch for one domain the last one stands, though the answer counts both; a
rule that the batch does not name is gone with its source. -/
theorem write_updates_pointwise_sample : sample.Reachable ∧
    sample.replaceSource .user sampleBatch = .ok (replaced, 3) ∧
    replaced.ruleFor "new.com" = some (Rule.draft "new.com" .allow) ∧
    replaced.ruleFor "*.org" = none ∧ 3 = sampleBatch.length ∧
    ∃ next count, sample.tryRemoveExpired ⟨100, 0⟩ = .ok (next, count) ∧
      next.ruleFor "mail.ads.com" = none ∧ sample.size = next.size + count := by
  obtain ⟨-, -, hreplace, -, -, hexpired⟩ := write_updates_pointwise sample reachable_sample
  have hreplaced : sample.replaceSource .user sampleBatch = .ok (replaced, 3) := by decide +kernel
  obtain ⟨hfound, hcount⟩ := hreplace .user sampleBatch replaced 3 hreplaced
  obtain ⟨next, count, hremoved, hleft, hsize⟩ := hexpired ⟨100, 0⟩
  refine ⟨reachable_sample, hreplaced, ?_, ?_, hcount, next, count, hremoved, ?_, hsize⟩
  · rw [hfound]
    decide +kernel
  · rw [hfound]
    decide +kernel
  · rw [hleft]
    decide +kernel

end DnsFilter.Store
