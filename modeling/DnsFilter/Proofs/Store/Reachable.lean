import DnsFilter.Proofs.Lookup
import DnsFilter.Store

/-! The writes of the rule store and the states they lead to. Every write that is not refused turns
the list of rules into another one, `Write.applyTo`, and keeps three things: no domain has two rules,
every rule is one that a store accepts, and a limit that is set is not passed. Every state that can
be reached from an empty store has them. -/

namespace DnsFilter.Store

/-- The states that writes lead to from an empty store; a refused write leads nowhere. -/
inductive Reachable : Store → Prop
  | empty (limit : Option Nat) : Reachable (empty limit)
  | write {s next : Store} (w : Write) :
      Reachable s → s.write w = .ok next → Reachable next

/-! ### Adding what is missing -/

theorem settle_eq_ok_iff {s next : Store} {rules : List Rule} :
    s.settle rules = .ok next ↔
      (∀ limit, s.limit = some limit → rules.length ≤ limit) ∧ next = { s with rules := rules } := by
  unfold settle
  cases hlimit : s.limit with
  | none => simp [eq_comm]
  | some limit =>
      by_cases hfull : limit < rules.length
      · have hover : ¬ rules.length ≤ limit := Nat.not_le.mpr hfull
        simp [hfull, hover]
      · have hwithin : rules.length ≤ limit := Nat.le_of_not_lt hfull
        simp [hfull, hwithin, eq_comm]

/-- Puts a rule at the end, unless its domain has one. -/
def placeMissing (rules : List Rule) (r : Rule) : List Rule :=
  if rules.any fun q => q.domain == r.domain then rules else rules ++ [r]

theorem fst_countMissing (p : List Rule × Nat) (r : Rule) :
    (countMissing p r).1 = placeMissing p.1 r := by
  rw [countMissing, placeMissing]
  split <;> rfl

/-- A rule is counted exactly if the list grows by it. -/
theorem snd_countMissing (p : List Rule × Nat) (r : Rule) :
    (countMissing p r).2 + p.1.length = p.2 + (countMissing p r).1.length := by
  rw [countMissing]
  split
  · rfl
  · rw [List.length_append, List.length_singleton]
    omega

theorem fst_foldl_countMissing (batch : List Rule) (p : List Rule × Nat) :
    (batch.foldl countMissing p).1 = batch.foldl placeMissing p.1 := by
  induction batch generalizing p with
  | nil => rfl
  | cons r rest ih => rw [List.foldl_cons, ih, fst_countMissing, List.foldl_cons]

theorem snd_foldl_countMissing (batch : List Rule) (p : List Rule × Nat) :
    (batch.foldl countMissing p).2 + p.1.length = p.2 + (batch.foldl placeMissing p.1).length := by
  induction batch generalizing p with
  | nil => rfl
  | cons r rest ih =>
      have hstep := snd_countMissing p r
      have hrest := ih (countMissing p r)
      rw [fst_countMissing] at hstep hrest
      rw [List.foldl_cons, List.foldl_cons]
      omega

/-- What is counted on the way is by how many rules the store has grown in the end. -/
theorem addMissing_eq (s : Store) (batch : List Rule) : s.addMissing batch =
    match batchFault? batch with
    | some cause => .error cause
    | none => do
        let next ← s.settle (batch.foldl placeMissing s.rules)
        return (next, next.size - s.size) := by
  have hrules : (batch.foldl countMissing (s.rules, 0)).1 = batch.foldl placeMissing s.rules :=
    fst_foldl_countMissing batch (s.rules, 0)
  have hcount : (batch.foldl countMissing (s.rules, 0)).2 + s.rules.length =
      0 + (batch.foldl placeMissing s.rules).length := snd_foldl_countMissing batch (s.rules, 0)
  rw [addMissing]
  cases batchFault? batch with
  | some cause => rfl
  | none =>
      simp only [hrules]
      cases hsettle : s.settle (batch.foldl placeMissing s.rules) with
      | error cause => rfl
      | ok next =>
          obtain ⟨-, rfl⟩ := settle_eq_ok_iff.mp hsettle
          have hgrown : (batch.foldl countMissing (s.rules, 0)).2 =
              (batch.foldl placeMissing s.rules).length - s.size := by
            rw [size]
            omega
          rw [hgrown]
          rfl

/-! ### What a write does -/

/-- The rules that a write brings in. -/
def Write.batch : Write → List Rule
  | .add batch => batch
  | .addMissing batch => batch
  | .replaceSource _ batch => batch
  | .remove _ => []
  | .removeSource _ => []
  | .removeExpired _ => []

/-- What a write makes of a list of rules. -/
def Write.applyTo (rules : List Rule) : Write → List Rule
  | .add batch => batch.foldl place rules
  | .addMissing batch => batch.foldl placeMissing rules
  | .replaceSource source batch => batch.foldl place (rules.filter fun r => r.source != source)
  | .remove domain => rules.filter fun r => r.domain != domain
  | .removeSource source => rules.filter fun r => r.source != source
  | .removeExpired now => rules.filter fun r => !r.isExpired now

theorem batchFault?_eq_none_iff {batch : List Rule} :
    batchFault? batch = none ↔ ∀ r ∈ batch, r.fault? = none :=
  List.findSome?_eq_none_iff

theorem settle_eq_error_iff {s : Store} {rules : List Rule} {cause : Fault} :
    s.settle rules = .error cause ↔
      ∃ limit, s.limit = some limit ∧ limit < rules.length ∧
        cause = .capacity rules.length limit := by
  unfold settle
  cases hlimit : s.limit with
  | none => simp
  | some limit =>
      by_cases hfull : limit < rules.length
      · simp [hfull, eq_comm]
      · simp [hfull]

/-- The common form of the writes that bring rules in: the batch is judged, then the new list. -/
theorem map_bind_settle_eq_ok {s next : Store} {rules : List Rule} {count : Store → Nat}
    (h : Except.map (·.1) (do
      let settled ← s.settle rules
      return (settled, count settled) : Except Fault (Store × Nat)) = .ok next) :
    (∀ limit, s.limit = some limit → rules.length ≤ limit) ∧ next = { s with rules := rules } := by
  cases hsettle : s.settle rules with
  | error cause =>
      rw [hsettle] at h
      cases h
  | ok settled =>
      rw [hsettle] at h
      cases h
      exact settle_eq_ok_iff.mp hsettle

/-- The common form of the writes that are refused for a rule in their batch. -/
theorem map_judged_eq_ok {batch : List Rule} {judged : Except Fault (Store × Nat)} {next : Store}
    (h : Except.map (·.1) (match batchFault? batch with
      | some cause => .error cause
      | none => judged) = .ok next) :
    (∀ r ∈ batch, r.fault? = none) ∧ Except.map (·.1) judged = .ok next := by
  cases hfault : batchFault? batch with
  | some cause =>
      rw [hfault] at h
      cases h
  | none =>
      rw [hfault] at h
      exact ⟨batchFault?_eq_none_iff.mp hfault, h⟩

theorem eq_ok_of_judged {batch : List Rule} {judged : Except Fault (Store × Nat)}
    {answer : Store × Nat} (h : (match batchFault? batch with
      | some cause => .error cause
      | none => judged : Except Fault (Store × Nat)) = .ok answer) : judged = .ok answer := by
  cases hfault : batchFault? batch with
  | some cause =>
      rw [hfault] at h
      cases h
  | none =>
      rw [hfault] at h
      exact h

/-- What is answered is told from the store that there is afterwards. -/
theorem count_of_settle {s next : Store} {rules : List Rule} {count : Store → Nat} {n : Nat}
    (h : (do let settled ← s.settle rules
             return (settled, count settled) : Except Fault (Store × Nat)) = .ok (next, n)) :
    n = count next := by
  cases hsettle : s.settle rules with
  | error cause =>
      rw [hsettle] at h
      cases h
  | ok settled =>
      rw [hsettle] at h
      cases h
      rfl

/-- The writes that only remove rules turn the list into its part that stays, be it written or not. -/
theorem map_keep_eq_ok {s next : Store} {p : Rule → Bool} (h : (s.keep p).map (·.1) = .ok next) :
    next = { s with rules := s.rules.filter p } :=
  (map_bind_settle_eq_ok h).2

theorem filter_of_missing {s : Store} {domain : String} (h : ¬ (s.ruleFor domain).isSome = true) :
    (s.rules.filter fun r => r.domain != domain) = s.rules := by
  rw [Option.not_isSome_iff_eq_none, ruleFor, List.find?_eq_none] at h
  refine List.filter_eq_self.mpr fun r hr => ?_
  rw [bne, Bool.not_eq_true', ← Bool.not_eq_true]
  exact h r hr

theorem filter_of_unexpired {s : Store} {now : Instant}
    (h : ¬ (s.rules.any fun r => r.isExpired now) = true) :
    (s.rules.filter fun r => !r.isExpired now) = s.rules := by
  rw [Bool.not_eq_true, List.any_eq_false] at h
  refine List.filter_eq_self.mpr fun r hr => ?_
  rw [Bool.not_eq_true', ← Bool.not_eq_true]
  exact h r hr

theorem rules_of_tryRemove {s next : Store} {domain : String}
    (h : (s.tryRemove domain).map (·.1) = .ok next) :
    next = { s with rules := s.rules.filter fun r => r.domain != domain } := by
  unfold tryRemove at h
  split at h
  · refine map_keep_eq_ok ?_
    cases hkeep : s.keep fun r => r.domain != domain with
    | error cause =>
        rw [hkeep] at h
        cases h
    | ok answer =>
        rw [hkeep] at h
        exact h
  · rename_i hmissing
    cases h
    rw [filter_of_missing hmissing]

theorem rules_of_tryRemoveExpired {s next : Store} {now : Instant}
    (h : (s.tryRemoveExpired now).map (·.1) = .ok next) :
    next = { s with rules := s.rules.filter fun r => !r.isExpired now } := by
  unfold tryRemoveExpired at h
  split at h
  · exact map_keep_eq_ok h
  · rename_i hlive
    cases h
    rw [filter_of_unexpired hlive]

theorem write_eq_ok {s next : Store} {w : Write} (h : s.write w = .ok next) :
    (∀ r ∈ w.batch, r.fault? = none) ∧ next = { s with rules := w.applyTo s.rules } ∧
      ((∀ limit, s.limit = some limit → s.size ≤ limit) →
        ∀ limit, next.limit = some limit → next.size ≤ limit) := by
  have hfilter (p : Rule → Bool) : (∀ limit, s.limit = some limit → s.size ≤ limit) →
      ∀ limit, s.limit = some limit → (s.rules.filter p).length ≤ limit :=
    fun hs limit hlimit => Nat.le_trans (List.length_filter_le p s.rules) (hs limit hlimit)
  cases w with
  | add batch =>
      obtain ⟨hbatch, hsettle⟩ := map_judged_eq_ok h
      obtain ⟨hlimit, rfl⟩ := map_bind_settle_eq_ok hsettle
      exact ⟨hbatch, rfl, fun _ => hlimit⟩
  | addMissing batch =>
      rw [write, addMissing_eq] at h
      obtain ⟨hbatch, hsettle⟩ := map_judged_eq_ok h
      obtain ⟨hlimit, rfl⟩ := map_bind_settle_eq_ok hsettle
      exact ⟨hbatch, rfl, fun _ => hlimit⟩
  | replaceSource source batch =>
      obtain ⟨hbatch, hjudged⟩ := map_judged_eq_ok h
      cases hforeign : batch.find? fun r => r.source != source with
      | some r =>
          rw [hforeign] at hjudged
          cases hjudged
      | none =>
          rw [hforeign] at hjudged
          obtain ⟨hlimit, rfl⟩ := map_bind_settle_eq_ok hjudged
          exact ⟨hbatch, rfl, fun _ => hlimit⟩
  | remove domain =>
      obtain rfl := rules_of_tryRemove h
      exact ⟨by simp [Write.batch], rfl, hfilter _⟩
  | removeSource source =>
      obtain rfl := map_keep_eq_ok h
      exact ⟨by simp [Write.batch], rfl, hfilter _⟩
  | removeExpired now =>
      obtain rfl := rules_of_tryRemoveExpired h
      exact ⟨by simp [Write.batch], rfl, hfilter _⟩

/-! ### What every write keeps -/

structure Sound (s : Store) : Prop where
  distinct : (s.rules.map (·.domain)).Nodup
  accepted : ∀ r ∈ s.rules, r.fault? = none
  bounded : ∀ limit, s.limit = some limit → s.size ≤ limit

theorem map_domain_place (rules : List Rule) (r : Rule) :
    (place rules r).map (·.domain) =
      if r.domain ∈ rules.map (·.domain) then rules.map (·.domain)
      else rules.map (·.domain) ++ [r.domain] :=
  map_upsert (fun _ _ => rfl) rules

theorem map_domain_placeMissing (rules : List Rule) (r : Rule) :
    (placeMissing rules r).map (·.domain) =
      if r.domain ∈ rules.map (·.domain) then rules.map (·.domain)
      else rules.map (·.domain) ++ [r.domain] := by
  have hmem : (rules.any fun q => q.domain == r.domain) = true ↔
      r.domain ∈ rules.map (·.domain) := by
    simp [List.any_eq_true]
  unfold placeMissing
  by_cases h : r.domain ∈ rules.map (·.domain)
  · rw [if_pos (hmem.mpr h), if_pos h]
  · rw [if_neg (mt hmem.mp h), if_neg h, List.map_append, List.map_singleton]

theorem mem_place {rules : List Rule} {r q : Rule} (h : q ∈ place rules r) : q = r ∨ q ∈ rules :=
  (of_mem_upsert h).symm

theorem mem_placeMissing {rules : List Rule} {r q : Rule} (h : q ∈ placeMissing rules r) :
    q = r ∨ q ∈ rules := by
  unfold placeMissing at h
  split at h
  · exact .inr h
  · rw [List.mem_append, List.mem_singleton] at h
    exact h.symm

/-- Whichever way single rules are put into a list, a batch keeps domains distinct and brings in
none but its own rules. -/
theorem foldl_distinct {put : List Rule → Rule → List Rule}
    (hdomains : ∀ rules r, (put rules r).map (·.domain) =
      if r.domain ∈ rules.map (·.domain) then rules.map (·.domain)
      else rules.map (·.domain) ++ [r.domain])
    (batch : List Rule) {rules : List Rule} (h : (rules.map (·.domain)).Nodup) :
    ((batch.foldl put rules).map (·.domain)).Nodup := by
  induction batch generalizing rules with
  | nil => exact h
  | cons r rest ih =>
      apply ih
      rw [hdomains]
      split
      · exact h
      · rename_i hnew
        rw [List.nodup_append]
        refine ⟨h, List.nodup_singleton _, ?_⟩
        rintro a ha b hb rfl
        rw [List.mem_singleton] at hb
        exact hnew (hb ▸ ha)

theorem mem_foldl {put : List Rule → Rule → List Rule}
    (hmem : ∀ rules r q, q ∈ put rules r → q = r ∨ q ∈ rules)
    (batch : List Rule) {rules : List Rule} {q : Rule} (h : q ∈ batch.foldl put rules) :
    q ∈ batch ∨ q ∈ rules := by
  induction batch generalizing rules with
  | nil => exact .inr h
  | cons r rest ih =>
      rcases ih h with hrest | hput
      · exact .inl (List.mem_cons_of_mem r hrest)
      · rcases hmem rules r q hput with rfl | hrules
        · exact .inl List.mem_cons_self
        · exact .inr hrules

theorem Write.applyTo_distinct (w : Write) {rules : List Rule}
    (h : (rules.map (·.domain)).Nodup) : ((w.applyTo rules).map (·.domain)).Nodup := by
  have hfilter (p : Rule → Bool) : ((rules.filter p).map (·.domain)).Nodup :=
    (List.filter_sublist.map Rule.domain).nodup h
  cases w with
  | add batch => exact foldl_distinct map_domain_place batch h
  | addMissing batch => exact foldl_distinct map_domain_placeMissing batch h
  | replaceSource source batch => exact foldl_distinct map_domain_place batch (hfilter _)
  | remove domain => exact hfilter _
  | removeSource source => exact hfilter _
  | removeExpired now => exact hfilter _

theorem Write.mem_applyTo (w : Write) {rules : List Rule} {r : Rule} (h : r ∈ w.applyTo rules) :
    r ∈ w.batch ∨ r ∈ rules := by
  cases w with
  | add batch => exact mem_foldl (fun _ _ _ => mem_place) batch h
  | addMissing batch => exact mem_foldl (fun _ _ _ => mem_placeMissing) batch h
  | replaceSource source batch =>
      exact (mem_foldl (fun _ _ _ => mem_place) batch h).imp_right List.mem_of_mem_filter
  | remove domain => exact .inr (List.mem_of_mem_filter h)
  | removeSource source => exact .inr (List.mem_of_mem_filter h)
  | removeExpired now => exact .inr (List.mem_of_mem_filter h)

theorem sound_empty (limit : Option Nat) : (empty limit).Sound :=
  ⟨List.nodup_nil, fun _ h => absurd h List.not_mem_nil, fun _ _ => Nat.zero_le _⟩

theorem Sound.write {s next : Store} {w : Write} (hs : s.Sound) (h : s.write w = .ok next) :
    next.Sound := by
  obtain ⟨hbatch, rfl, hbound⟩ := write_eq_ok h
  refine ⟨w.applyTo_distinct hs.distinct, fun r hr => ?_, hbound hs.bounded⟩
  rcases w.mem_applyTo hr with hnew | hold
  · exact hbatch r hnew
  · exact hs.accepted r hold

theorem Reachable.sound {s : Store} (h : s.Reachable) : s.Sound := by
  induction h with
  | empty limit => exact sound_empty limit
  | write w _ hw ih => exact ih.write hw

/-! ### Looking rules up -/

theorem domain_of_ruleFor {s : Store} {domain : String} {r : Rule}
    (h : s.ruleFor domain = some r) : r.domain = domain := by
  simpa using List.find?_some h

/-- Placing a rule changes what is found for its own domain only. -/
theorem find?_place (rules : List Rule) (r : Rule) (domain : String) :
    (place rules r).find? (·.domain == domain) =
      if r.domain = domain then some r else rules.find? (·.domain == domain) :=
  find?_upsert (fun _ _ => rfl) rules domain

theorem find?_placeMissing (rules : List Rule) (r : Rule) (domain : String) :
    (placeMissing rules r).find? (·.domain == domain) =
      (rules.find? (·.domain == domain)).or (if r.domain == domain then some r else none) := by
  unfold placeMissing
  split
  · rename_i h
    split
    · rename_i hd
      obtain ⟨q, hq, hqd⟩ := List.any_eq_true.mp h
      have : (rules.find? (·.domain == domain)).isSome := by
        rw [List.find?_isSome]
        exact ⟨q, hq, by simp_all⟩
      obtain ⟨x, hx⟩ := Option.isSome_iff_exists.mp this
      simp [hx]
    · simp
  · by_cases h : r.domain == domain <;> simp [List.find?_append, h]

/-- Of several rules that are put in where their domain is missing, the first one for it stays. -/
theorem find?_foldl_placeMissing (batch rules : List Rule) (domain : String) :
    (batch.foldl placeMissing rules).find? (·.domain == domain) =
      (rules.find? (·.domain == domain)).or (batch.find? (·.domain == domain)) := by
  induction batch generalizing rules with
  | nil => simp
  | cons r rest ih =>
      rw [List.foldl_cons, ih, find?_placeMissing, Option.or_assoc, List.find?_cons]
      cases r.domain == domain <;> simp

/-- Of several rules that are put in over what is there, the last one for a domain stays. -/
theorem find?_foldl_place (batch rules : List Rule) (domain : String) :
    (batch.foldl place rules).find? (·.domain == domain) =
      (batch.reverse.find? (·.domain == domain)).or (rules.find? (·.domain == domain)) := by
  induction batch generalizing rules with
  | nil => simp
  | cons r rest ih =>
      rw [List.foldl_cons, ih, find?_place, List.reverse_cons, List.find?_append, Option.or_assoc]
      by_cases hr : r.domain = domain <;> simp [hr]

theorem Sound.eq_of_domain_eq {s : Store} (hs : s.Sound) {r q : Rule} (hr : r ∈ s.rules)
    (hq : q ∈ s.rules) (h : r.domain = q.domain) : r = q :=
  List.inj_on_of_nodup_map hs.distinct hr hq h

theorem Sound.ruleFor_eq_some_iff {s : Store} (hs : s.Sound) {domain : String} {r : Rule} :
    s.ruleFor domain = some r ↔ r ∈ s.rules ∧ r.domain = domain :=
  find?_key_eq_some_iff hs.distinct

/-! ### A small store -/

/-- A rule for one name that runs out, two wildcards over it that disagree, and one elsewhere. -/
def sample : Store :=
  ⟨[Rule.draft "*.com" .allow,
    { Rule.draft "mail.ads.com" .block with expiresAt := some ⟨100, 0⟩ },
    Rule.draft "*.ads.com" .block, Rule.draft "*.org" .block], some 4⟩

theorem reachable_sample : sample.Reachable :=
  .write (.add sample.rules) (.empty (some 4)) (by decide +kernel)

end DnsFilter.Store
