import DnsFilter.Proofs.Store.Calls
import DnsFilter.Proofs.Store.Domains

/-! When writes are refused. One that brings rules in is refused for the first of them that no store
accepts, and otherwise for its size: the number of domains that the store would come to have rules for.
One that only removes rules is judged as well, but what is left of a store that can be reached is always
within its limit. -/

namespace DnsFilter.Store

variable {s : Store} {batch kept : List Rule} {source : Source} {cause : Fault}

/-- The first rule of the batch that no store accepts is refused for `cause`. -/
def IsFirstFault (batch : List Rule) (cause : Fault) : Prop :=
  ∃ before r after, batch = before ++ r :: after ∧ (∀ q ∈ before, q.fault? = none) ∧
    r.fault? = some cause

/-- The first rule of the batch that is not from `source` is refused, and `cause` says so. -/
def IsFirstForeign (source : Source) (batch : List Rule) (cause : Fault) : Prop :=
  ∃ before r after, batch = before ++ r :: after ∧ (∀ q ∈ before, q.source = source) ∧
    r.source ≠ source ∧ cause = .rule (.foreignSource r.domain r.source.text source.text)

/-- Rules for so many domains are more than the limit, and that is what `cause` says. -/
def IsOver (s : Store) (domains : Finset String) (cause : Fault) : Prop :=
  ∃ limit, s.limit = some limit ∧ limit < domains.card ∧ cause = .capacity domains.card limit

/-! ### Writes that bring rules in -/

theorem batchFault?_eq_some_iff : batchFault? batch = some cause ↔ IsFirstFault batch cause := by
  rw [batchFault?, List.findSome?_eq_some_iff]
  constructor
  · rintro ⟨before, r, after, hsplit, hfault, hbefore⟩
    exact ⟨before, r, after, hsplit, hbefore, hfault⟩
  · rintro ⟨before, r, after, hsplit, hbefore, hfault⟩
    exact ⟨before, r, after, hsplit, hfault, hbefore⟩

theorem judged_eq_error_iff {judged : Except Fault (Store × Nat)} :
    (match batchFault? batch with
      | some fault => .error fault
      | none => judged : Except Fault (Store × Nat)) = .error cause ↔
      IsFirstFault batch cause ∨ (∀ r ∈ batch, r.fault? = none) ∧ judged = .error cause := by
  rw [← batchFault?_eq_some_iff, ← batchFault?_eq_none_iff]
  cases batchFault? batch <;> simp

theorem bind_settle_eq_error_iff {rules : List Rule} {count : Store → Nat} :
    (do let next ← s.settle rules
        return (next, count next) : Except Fault (Store × Nat)) = .error cause ↔
      s.settle rules = .error cause := by
  cases s.settle rules <;> simp [bind, Except.bind, pure, Except.pure]

/-- A batch is judged by the domains that there are after it, each of them counted once. -/
theorem settle_foldl_eq_error_iff {put : List Rule → Rule → List Rule}
    (hdomains : ∀ rules r, (put rules r).map (·.domain) =
      if r.domain ∈ rules.map (·.domain) then rules.map (·.domain)
      else rules.map (·.domain) ++ [r.domain])
    (hkept : (kept.map (·.domain)).Nodup) :
    s.settle (batch.foldl put kept) = .error cause ↔
      s.IsOver (domains kept ∪ domains batch) cause := by
  rw [settle_eq_error_iff, length_foldl hdomains batch hkept, IsOver]

theorem Sound.add_eq_error_iff (hs : s.Sound) : s.add batch = .error cause ↔
    IsFirstFault batch cause ∨
      (∀ r ∈ batch, r.fault? = none) ∧ s.IsOver (domains s.rules ∪ domains batch) cause := by
  refine judged_eq_error_iff.trans ?_
  rw [bind_settle_eq_error_iff, settle_foldl_eq_error_iff map_domain_place hs.distinct]

theorem Sound.addMissing_eq_error_iff (hs : s.Sound) : s.addMissing batch = .error cause ↔
    IsFirstFault batch cause ∨
      (∀ r ∈ batch, r.fault? = none) ∧ s.IsOver (domains s.rules ∪ domains batch) cause := by
  rw [addMissing_eq]
  refine judged_eq_error_iff.trans ?_
  rw [bind_settle_eq_error_iff, settle_foldl_eq_error_iff map_domain_placeMissing hs.distinct]

theorem isFirstForeign_iff_find? : IsFirstForeign source batch cause ↔
    ∃ r, (batch.find? fun r => r.source != source) = some r ∧
      cause = .rule (.foreignSource r.domain r.source.text source.text) := by
  simp only [IsFirstForeign, List.find?_eq_some_iff_append, bne_iff_ne, Bool.not_eq_true',
    bne_eq_false_iff_eq]
  constructor
  · rintro ⟨before, r, after, hsplit, hbefore, hsource, hcause⟩
    exact ⟨r, ⟨hsource, before, after, hsplit, hbefore⟩, hcause⟩
  · rintro ⟨r, ⟨hsource, before, after, hsplit, hbefore⟩, hcause⟩
    exact ⟨before, r, after, hsplit, hbefore, hsource, hcause⟩

theorem claimed_eq_error_iff {claimed : Except Fault (Store × Nat)} :
    (match batch.find? fun r => r.source != source with
      | some r => .error (.rule (.foreignSource r.domain r.source.text source.text))
      | none => claimed : Except Fault (Store × Nat)) = .error cause ↔
      IsFirstForeign source batch cause ∨
        (∀ r ∈ batch, r.source = source) ∧ claimed = .error cause := by
  have hown : (batch.find? fun r => r.source != source) = none ↔ ∀ r ∈ batch, r.source = source := by
    simp
  rw [isFirstForeign_iff_find?, ← hown]
  cases batch.find? fun r => r.source != source <;> simp [eq_comm]

theorem Sound.replaceSource_eq_error_iff (hs : s.Sound) :
    s.replaceSource source batch = .error cause ↔
      IsFirstFault batch cause ∨ (∀ r ∈ batch, r.fault? = none) ∧
        (IsFirstForeign source batch cause ∨ (∀ r ∈ batch, r.source = source) ∧
          s.IsOver (domains (s.rules.filter fun r => r.source != source) ∪ domains batch)
            cause) := by
  have hkept : ((s.rules.filter fun r => r.source != source).map (·.domain)).Nodup :=
    (List.filter_sublist.map Rule.domain).nodup hs.distinct
  refine judged_eq_error_iff.trans (or_congr_right (and_congr_right fun _ => ?_))
  refine claimed_eq_error_iff.trans (or_congr_right (and_congr_right fun _ => ?_))
  rw [bind_settle_eq_error_iff, settle_foldl_eq_error_iff map_domain_place hkept]

/-! ### Writes that only remove rules -/

/-- The rules of a store are those that are kept and those that are not. -/
theorem size_eq_add_countP (s : Store) (p : Rule → Bool) :
    s.size = (s.rules.filter p).length + s.rules.countP fun r => !p r := by
  rw [size, List.length_eq_countP_add_countP p, List.countP_eq_length_filter]
  exact congrArg _ (List.countP_congr fun r _ => by simp)

/-- What is left of the rules of a sound store is within its limit. -/
theorem Sound.keep_eq (hs : s.Sound) (p : Rule → Bool) :
    s.keep p = .ok ({ s with rules := s.rules.filter p }, s.rules.countP fun r => !p r) := by
  have hsettle : s.settle (s.rules.filter p) = .ok { s with rules := s.rules.filter p } := by
    refine settle_eq_ok_iff.mpr ⟨fun limit hlimit => ?_, rfl⟩
    exact Nat.le_trans (List.length_filter_le p s.rules) (hs.bounded limit hlimit)
  have hcount : s.size - (s.rules.filter p).length = s.rules.countP fun r => !p r := by
    rw [size_eq_add_countP s p, Nat.add_sub_cancel_left]
  rw [keep, hsettle]
  exact congrArg (fun count => Except.ok (_, count)) hcount

theorem Sound.tryRemove_eq (hs : s.Sound) (domain : String) :
    s.tryRemove domain = .ok ({ s with rules := s.rules.filter fun r => r.domain != domain },
      (s.ruleFor domain).isSome) := by
  unfold tryRemove
  split
  · rename_i hstored
    obtain ⟨r, hr⟩ := Option.isSome_iff_exists.mp hstored
    have hcount : (s.rules.countP fun r => !(r.domain != domain)) ≠ 0 := by
      rw [Ne, List.countP_eq_zero]
      intro hnone
      exact hnone r (List.mem_of_find?_eq_some hr) (by simpa using domain_of_ruleFor hr)
    rw [hs.keep_eq, Except.map, hstored, bne_iff_ne.mpr hcount]
  · rename_i hmissing
    rw [filter_of_missing hmissing, Bool.eq_false_of_not_eq_true hmissing]

theorem Sound.tryRemoveExpired_eq (hs : s.Sound) (now : Instant) :
    s.tryRemoveExpired now = .ok ({ s with rules := s.rules.filter fun r => !r.isExpired now },
      s.rules.countP fun r => r.isExpired now) := by
  unfold tryRemoveExpired
  split
  · simp only [hs.keep_eq, Bool.not_not]
  · rename_i hlive
    rw [filter_of_unexpired hlive, List.countP_eq_zero.mpr]
    simpa using hlive

theorem Sound.removeExpired_eq (hs : s.Sound) (now : Instant) :
    (s.removeExpired now).1 = { s with rules := s.rules.filter fun r => !r.isExpired now } := by
  rw [removeExpired, hs.tryRemoveExpired_eq, Except.toOption, Option.getD_some]

/-! ### Every write -/

theorem after_of_refused {w : Write} (h : s.write w = .error cause) (policy : WildcardPolicy) :
    PolicedStore.after ⟨s, policy⟩ (.write w) = ⟨s, policy⟩ := by
  rw [PolicedStore.after, h, PolicedStore.orKeep]

/-- A write that is refused leaves the store as it is. Adding rules is refused exactly for the first rule
of the batch that no store accepts, and for the number of domains that there would be rules for, if it
is over the limit: a domain that is already there counts once with those of the batch, and so does one
that is in the batch twice. When the rules of a source are replaced, a rule from elsewhere is a reason as
well, and the domains of the rules replaced do not count. Removing rules is never refused. -/
theorem write_refused_iff (s : Store) (hs : s.Reachable) :
    (∀ w cause policy, s.write w = .error cause →
        PolicedStore.after ⟨s, policy⟩ (.write w) = ⟨s, policy⟩) ∧
      (∀ batch cause, s.add batch = .error cause ↔
        IsFirstFault batch cause ∨
          (∀ r ∈ batch, r.fault? = none) ∧ s.IsOver (domains s.rules ∪ domains batch) cause) ∧
      (∀ batch cause, s.addMissing batch = .error cause ↔
        IsFirstFault batch cause ∨
          (∀ r ∈ batch, r.fault? = none) ∧ s.IsOver (domains s.rules ∪ domains batch) cause) ∧
      (∀ source batch cause, s.replaceSource source batch = .error cause ↔
        IsFirstFault batch cause ∨ (∀ r ∈ batch, r.fault? = none) ∧
          (IsFirstForeign source batch cause ∨ (∀ r ∈ batch, r.source = source) ∧
            s.IsOver (domains (s.rules.filter fun r => r.source != source) ∪ domains batch)
              cause)) ∧
      (∀ domain, s.tryRemove domain =
        .ok ({ s with rules := s.rules.filter fun r => r.domain != domain },
          (s.ruleFor domain).isSome)) ∧
      (∀ source, s.tryRemoveSource source =
        .ok ({ s with rules := s.rules.filter fun r => r.source != source },
          s.rules.countP fun r => r.source == source)) ∧
      ∀ now, s.tryRemoveExpired now =
        .ok ({ s with rules := s.rules.filter fun r => !r.isExpired now },
          s.rules.countP fun r => r.isExpired now) := by
  have hsound := hs.sound
  refine ⟨fun _ _ policy h => after_of_refused h policy, fun _ _ => hsound.add_eq_error_iff,
    fun _ _ => hsound.addMissing_eq_error_iff, fun _ _ _ => hsound.replaceSource_eq_error_iff,
    hsound.tryRemove_eq, fun source => ?_, hsound.tryRemoveExpired_eq⟩
  rw [tryRemoveSource, hsound.keep_eq]
  simp only [bne, Bool.not_not]

/-- A rule in the place of one of the sample store, and two for one domain that is new there. -/
def sampleBatch : List Rule :=
  [Rule.draft "*.com" .block, Rule.draft "new.com" .block, Rule.draft "new.com" .allow]

/-- Two faults, the first of them behind a rule that a store accepts. -/
def faultyBatch : List Rule :=
  [Rule.draft "new.com" .block, Rule.draft "a..b" .block, Rule.draft "" .block]

/-- The sample store is full. A new domain fits in when the other rules of its source make way. -/
theorem write_refused_iff_sample : sample.Reachable ∧
    sample.add sampleBatch = .error (.capacity 5 4) ∧
    PolicedStore.after ⟨sample, ⟨.smart, true⟩⟩ (.write (.add sampleBatch)) =
      ⟨sample, ⟨.smart, true⟩⟩ ∧
    sample.addMissing faultyBatch = .error (.name (.badLabel "a..b")) ∧
    (∀ cause, sample.replaceSource .user sampleBatch ≠ .error cause) ∧
    (sample.tryRemoveExpired ⟨100, 0⟩).map (·.2) = .ok 1 := by
  obtain ⟨hkept, hadd, hmissing, hreplace, -, -, hexpired⟩ := write_refused_iff sample reachable_sample
  have haccepted : ∀ r ∈ sampleBatch, r.fault? = none := by decide +kernel
  have hfull : sample.add sampleBatch = .error (.capacity 5 4) :=
    (hadd _ _).mpr (.inr ⟨haccepted, 4, rfl, by decide +kernel, by decide +kernel⟩)
  refine ⟨reachable_sample, hfull, hkept _ (.capacity 5 4) _ ?_, (hmissing _ _).mpr (.inl ?_),
    ?_, ?_⟩
  · rw [write, hfull, Except.map]
  · exact ⟨faultyBatch.take 1, _, faultyBatch.drop 2, rfl, by decide +kernel, by decide +kernel⟩
  · intro cause hrefused
    have hown : ∀ r ∈ sampleBatch, r.source = .user := by decide
    rcases (hreplace _ _ _).mp hrefused with hfault | ⟨-, hforeign | ⟨-, hover⟩⟩
    · obtain ⟨before, r, after, hsplit, -, hfault⟩ := hfault
      rw [haccepted r (by simp [hsplit])] at hfault
      cases hfault
    · obtain ⟨before, r, after, hsplit, -, hforeign, -⟩ := hforeign
      exact hforeign (hown r (by simp [hsplit]))
    -- of the rules that are there none is left beside the batch
    · obtain ⟨limit, hlimit, hover, -⟩ := hover
      cases hlimit
      exact absurd hover (by decide +kernel)
  · rw [hexpired]
    decide +kernel

end DnsFilter.Store
