import DnsFilter.Proofs.Coverage.Roots
import DnsFilter.Proofs.Store.Domains

/-! Room for the roots. The rules that a pass plans are rules that a store accepts, so that nothing but
the limit of the store can refuse them: a pass goes through exactly if the rules that are there and the
roots that are due fit into it together. -/

namespace DnsFilter

open Store

namespace Store

/-- The roots that a pass over the store is to cover. -/
def dueRoots (s : Store) (policy : WildcardPolicy) (now : Instant) : Finset String :=
  domains (Coverage.rootRules policy now s.rules)

end Store

namespace Coverage

variable {order : Listing} {s : Store} {policy : WildcardPolicy} {now : Instant}

/-! ### The rules that are planned -/

theorem rootOfWildcard?_eq_some_iff {w : Rule} (h : w.fault? = none) {root : String} :
    Name.rootOfWildcard? w.domain = some root ↔ w.domain = Name.wildcardOver root.toList := by
  rw [Name.rootOfWildcard?_eq_some_iff]
  refine and_iff_right_of_imp ?_
  rintro hdomain rfl
  exact Rule.root_ne_nil h hdomain rfl

/-- The rule for the root of an accepted wildcard is accepted: the root is a name, and what is said of
it in the comment is short enough. -/
theorem fault?_rootRule {w : Rule} {root : String} (h : w.fault? = none)
    (hdomain : w.domain = Name.wildcardOver root.toList) : (rootRule w root now).fault? = none := by
  have hpattern : Name.patternFault? w.domain = none := (Rule.fault?_eq_none_iff.mp h).1
  have hquery : Name.queryFault? root = none := Name.queryFault?_root (hdomain ▸ hpattern)
  have hstar : Name.afterStar? root.toList = none := (Name.queryFault?_eq_none_iff.mp hquery).1
  refine Rule.fault?_eq_none_iff.mpr ⟨?_, ?_, ?_⟩
  · show Name.patternFault? root = none
    rwa [Name.queryFault?, hstar] at hquery
  · show Kind.exact = .wildcard ↔ (Name.afterStar? root.toList).isSome = true
    rw [hstar]
    simp
  · intro c hc
    obtain rfl : "Auto-generated root coverage for " ++ w.domain = c := Option.some.inj hc
    have hlength : w.domain.utf8ByteSize ≤ Name.maxBytes := Name.utf8ByteSize_le hpattern
    calc
      ("Auto-generated root coverage for " ++ w.domain).utf8ByteSize
        = 33 + w.domain.utf8ByteSize := String.utf8ByteSize_append
      _ ≤ 33 + Name.maxBytes := Nat.add_le_add_left hlength 33
      _ ≤ Rule.maxCommentBytes := by decide

/-- An accepted wildcard stands over a root, and the rule for it is accepted. -/
theorem exists_root {w : Rule} (h : w.fault? = none) (hkind : w.kind = .wildcard) (now : Instant) :
    ∃ root, Name.rootOfWildcard? w.domain = some root ∧ (rootRule w root now).fault? = none := by
  obtain ⟨parent, hparent⟩ := (Rule.isWildcard_iff h).mp (beq_iff_eq.mpr hkind)
  have hdomain : w.domain = Name.wildcardOver (String.ofList parent).toList := by
    rw [hparent, String.toList_ofList]
  exact ⟨_, (rootOfWildcard?_eq_some_iff h).mpr hdomain, fault?_rootRule h hdomain⟩

theorem mem_domains_rootRules_iff (order : Listing) (hs : s.Sound) {root : String} :
    root ∈ domains (rootRules policy now (order.list s.rules)) ↔
      policy.mode ≠ .subdomainsOnly ∧ ∃ w, s.IsDue policy now w root := by
  rw [mem_domains]
  by_cases hmode : policy.mode = .subdomainsOnly
  · rw [rootRules_of_subdomainsOnly hmode]
    simp [hmode]
  · rw [and_iff_right hmode]
    constructor
    · rintro ⟨q, hq, rfl⟩
      obtain ⟨w, root, hdue, rfl⟩ := (mem_rootRules_iff hs hmode).mp hq
      exact ⟨w, hdue⟩
    · rintro ⟨w, hdue⟩
      exact ⟨rootRule w root now, (mem_rootRules_iff hs hmode).mpr ⟨w, root, hdue, rfl⟩, rfl⟩

theorem mem_dueRoots_iff (hs : s.Sound) {root : String} :
    root ∈ s.dueRoots policy now ↔
      policy.mode ≠ .subdomainsOnly ∧ ∃ w, s.IsDue policy now w root :=
  mem_domains_rootRules_iff .asStored hs

theorem fault?_of_mem_batch (hs : s.Sound) {q : Rule}
    (hq : q ∈ (plan policy now (order.list s.rules)).batch) : q.fault? = none := by
  rw [batch_plan] at hq
  rcases mem_foldl (fun _ _ _ => mem_placeMissing) _ hq with hroot | hnil
  · by_cases hmode : policy.mode = .subdomainsOnly
    · rw [rootRules_of_subdomainsOnly hmode] at hroot
      exact absurd hroot List.not_mem_nil
    · obtain ⟨w, root, hdue, rfl⟩ := (mem_rootRules_iff hs hmode).mp hroot
      exact fault?_rootRule (hs.accepted w hdue.mem) hdue.domain_eq
  · exact absurd hnil List.not_mem_nil

/-- Whatever the order in which the rules are listed, the batch has a rule for each root that is due. -/
theorem domains_batch (order : Listing) (hs : s.Sound) :
    domains (plan policy now (order.list s.rules)).batch = s.dueRoots policy now := by
  rw [batch_plan, domains_foldl map_domain_placeMissing]
  ext root
  rw [mem_dueRoots_iff hs, Finset.mem_union, mem_domains_rootRules_iff order hs]
  simp [domains]

/-- A root that is due has no rule yet, so that each makes the store larger by one. -/
theorem length_placed (order : Listing) (hs : s.Sound) :
    ((plan policy now (order.list s.rules)).batch.foldl placeMissing s.rules).length =
      s.size + (s.dueRoots policy now).card := by
  have hdisjoint : Disjoint (domains s.rules) (s.dueRoots policy now) := by
    rw [Finset.disjoint_left]
    intro root hold hdue
    obtain ⟨r, hr, hdomain⟩ := mem_domains.mp hold
    obtain ⟨-, w, hw⟩ := (mem_dueRoots_iff hs).mp hdue
    exact hw.missing r hr hdomain
  calc
    _ = (domains s.rules ∪ s.dueRoots policy now).card := by
      rw [length_foldl map_domain_placeMissing _ hs.distinct, domains_batch order hs]
    _ = (domains s.rules).card + (s.dueRoots policy now).card :=
      Finset.card_union_of_disjoint hdisjoint
    _ = s.size + (s.dueRoots policy now).card := by
      rw [card_domains hs.distinct, size]

/-! ### Whether they fit -/

/-- A pass is the write of the planned rules, which only the limit can refuse. -/
theorem pass_eq_settle (order : Listing) (hs : s.Sound) (policy : WildcardPolicy) (now : Instant) :
    ∃ outcome : Store → Outcome, pass order.keeper s policy now =
      (s.settle ((plan policy now (order.list s.rules)).batch.foldl placeMissing s.rules)).map
        fun next => (next, outcome next) := by
  rw [pass_keeper]
  generalize hp : plan policy now (order.list s.rules) = p
  by_cases hempty : p.batch.isEmpty = true
  · have hsettle : s.settle s.rules = .ok s := settle_eq_ok_iff.mpr ⟨hs.bounded, rfl⟩
    rw [List.isEmpty_iff] at hempty
    refine ⟨fun _ => p.outcome 0, ?_⟩
    simp only [hempty, List.isEmpty_nil, if_true, List.foldl_nil, hsettle, Except.map]
  · have haccepted : batchFault? p.batch = none := by
      subst hp
      exact batchFault?_eq_none_iff.mpr fun q hq => fault?_of_mem_batch hs hq
    refine ⟨fun next => p.outcome (next.size - s.size), ?_⟩
    simp only [hempty, addMissing_eq, haccepted]
    cases s.settle (p.batch.foldl placeMissing s.rules) <;> rfl

theorem pass_isOk_iff (order : Listing) (hs : s.Sound) (policy : WildcardPolicy) (now : Instant) :
    (∃ answer, pass order.keeper s policy now = .ok answer) ↔
      ∀ limit, s.limit = some limit → s.size + (s.dueRoots policy now).card ≤ limit := by
  obtain ⟨outcome, hpass⟩ := pass_eq_settle order hs policy now
  rw [hpass, ← length_placed order hs]
  constructor
  · rintro ⟨answer, hanswer⟩
    cases hsettle : s.settle _ with
    | error cause =>
        rw [hsettle] at hanswer
        cases hanswer
    | ok next => exact (settle_eq_ok_iff.mp hsettle).1
  · intro hroom
    exact ⟨_, by rw [settle_eq_ok_iff.mpr ⟨hroom, rfl⟩, Except.map]⟩

theorem pass_eq_error_iff (order : Listing) (hs : s.Sound) (policy : WildcardPolicy) (now : Instant)
    {cause : Fault} :
    pass order.keeper s policy now = .error cause ↔
      ∃ limit, s.limit = some limit ∧ limit < s.size + (s.dueRoots policy now).card ∧
        cause = .capacity (s.size + (s.dueRoots policy now).card) limit := by
  obtain ⟨outcome, hpass⟩ := pass_eq_settle order hs policy now
  rw [hpass, ← length_placed order hs, ← settle_eq_error_iff]
  cases s.settle _ <;> simp [Except.map]

/-- A pass over a store that can be reached is refused exactly if a limit is set and the stored rules
and the roots that are due are together more than it; that number and the limit are then named, and
the store stays as it is. No rule that a pass plans is ever found fault with: an accepted wildcard
stands over a name, and the rule for that name, with the comment it is given, is accepted. -/
theorem pass_refused_iff_full (order : Listing) (s : Store) (hs : s.Reachable)
    (policy : WildcardPolicy) (now : Instant) :
    (∀ root, root ∈ s.dueRoots policy now ↔
        policy.mode ≠ .subdomainsOnly ∧ ∃ w, s.IsDue policy now w root) ∧
      (∀ cause, pass order.keeper s policy now = .error cause ↔
        ∃ limit, s.limit = some limit ∧ limit < s.size + (s.dueRoots policy now).card ∧
          cause = .capacity (s.size + (s.dueRoots policy now).card) limit) ∧
      (∀ cause, pass order.keeper s policy now = .error cause →
        passOrKeep order.keeper s policy now = s) ∧
      ∀ w : Rule, w.fault? = none → w.kind = .wildcard →
        ∃ root, Name.rootOfWildcard? w.domain = some root ∧
          (rootRule w root now).fault? = none := by
  refine ⟨fun root => mem_dueRoots_iff hs.sound, ?_, ?_, ?_⟩
  · intro cause
    exact pass_eq_error_iff order hs.sound policy now
  · intro cause hrefused
    rw [passOrKeep, hrefused]
  · intro w haccepted hkind
    exact exists_root haccepted hkind now

/-- The same rules in a store that they fill. -/
def filledUp : Store := { uncovered with limit := some 5 }

theorem pass_refused_iff_full_sample : filledUp.Reachable ∧
    (filledUp.dueRoots ⟨.smart, true⟩ ⟨200, 0⟩).card = 1 ∧
    pass Listing.reversed.keeper filledUp ⟨.smart, true⟩ ⟨200, 0⟩ = .error (.capacity 6 5) := by
  have hfull : filledUp.Reachable := .write (.add uncovered.rules) (.empty (some 5)) (by decide +kernel)
  have hcard : (filledUp.dueRoots ⟨.smart, true⟩ ⟨200, 0⟩).card = 1 := by decide +kernel
  obtain ⟨-, hrefused, -⟩ :=
    pass_refused_iff_full .reversed filledUp hfull ⟨.smart, true⟩ ⟨200, 0⟩
  refine ⟨hfull, hcard, (hrefused _).mpr ⟨5, rfl, ?_, ?_⟩⟩
  · rw [hcard]
    decide
  · rw [hcard]
    rfl

end Coverage

end DnsFilter
