import DnsFilter.Decision
import DnsFilter.Proofs.Precedence.Order
import DnsFilter.Proofs.Rule.Discovery

/-! What a check decides, said without sorting or searching. A live rule for the name itself decides
alone. Without one the live wildcards over the name decide: allowing wins over blocking, blocking over
not knowing, and of the wildcards with the winning action the one with the most labels is named. The
later criteria of precedence are never asked, because no two of these wildcards have the same number of
labels. -/

namespace DnsFilter

namespace Store

/-- The stored wildcards over names above `name` that have not expired. -/
def liveAbove (s : Store) (name : String) (now : Instant) : List Rule :=
  s.rules.filter fun r =>
    !r.isExpired now && r.below?.any fun parent => Name.isAbove parent name.toList

/-- What the rules ask for together: allowing if one of them allows, else blocking if one blocks. -/
def bestAction (rules : List Rule) : Action :=
  if rules.any fun r => r.action == .allow then .allow
  else if rules.any fun r => r.action == .block then .block
  else .unknown

/-- The live rules about a name, as they are found. -/
def liveMatches (s : Store) (name : String) (now : Instant) : List Rule :=
  (s.view.findMatches name).filter fun r => !r.isExpired now

variable {s : Store} {name : String} {now : Instant}

theorem Sound.mem_liveMatches_iff (hs : s.Sound) (hname : Name.queryFault? name = none) {r : Rule} :
    r ∈ s.liveMatches name now ↔ r ∈ s.rules ∧ r.isAbout name = true ∧ r.isExpired now = false := by
  rw [liveMatches, List.mem_filter, hs.mem_findMatches_iff hname, and_assoc, Bool.not_eq_true']

theorem Sound.mem_liveAbove_iff (hs : s.Sound) {r : Rule} :
    r ∈ s.liveAbove name now ↔ r ∈ s.rules ∧ r.isExpired now = false ∧
      ∃ parent, r.domain = Name.wildcardOver parent ∧ Name.isAbove parent name.toList = true := by
  rw [liveAbove, List.mem_filter]
  refine and_congr_right fun hr => ?_
  rw [Bool.and_eq_true, Bool.not_eq_true', Rule.below?_eq (hs.accepted r hr), Option.any_eq_true]
  simp only [Name.eq_wildcardOver_iff]

/-- What is found about a name beside the rule for the name itself are the wildcards over it. -/
theorem Sound.mem_liveMatches_iff_of_ne (hs : s.Sound) (hname : Name.queryFault? name = none)
    {r : Rule} (hne : r.domain ≠ name) : r ∈ s.liveMatches name now ↔ r ∈ s.liveAbove name now := by
  rw [hs.mem_liveMatches_iff hname, hs.mem_liveAbove_iff]
  refine and_congr_right fun hr => ?_
  rw [and_comm, Rule.isAbout_iff (hs.accepted r hr)]
  refine and_congr_right fun _ => ?_
  simp only [Name.isBelow_iff_mem_parents hname, Name.mem_parents_iff_isAbove]
  exact or_iff_right fun h => hne h.2

theorem Sound.domain_ne_of_mem_liveAbove (hs : s.Sound) (hname : Name.queryFault? name = none)
    {r : Rule} (hr : r ∈ s.liveAbove name now) : r.domain ≠ name := by
  obtain ⟨-, -, parent, hdomain, -⟩ := hs.mem_liveAbove_iff.mp hr
  rw [hdomain]
  exact (Name.ne_wildcardOver_of_queryFault? hname parent).symm

/-- A wildcard fixes the labels behind its `*`. -/
theorem Sound.specificity_of_mem_liveAbove (hs : s.Sound) {r : Rule}
    (hr : r ∈ s.liveAbove name now) : r.specificity = r.suffixLabels := by
  obtain ⟨hmem, -, parent, hdomain, -⟩ := hs.mem_liveAbove_iff.mp hr
  have haccepted := hs.accepted r hmem
  have hkind : r.kind = .wildcard :=
    beq_iff_eq.mp ((Rule.isWildcard_iff haccepted).mpr ⟨parent, hdomain⟩)
  have hlabels : Name.labels (Name.star ++ parent) = Name.labels ['*'] ++ Name.labels parent :=
    Name.labels_append_dot ['*'] parent
  rw [Rule.suffixLabels, Rule.below?_eq haccepted, Rule.specificity, hkind, hdomain,
    Name.afterStar?_wildcardOver, Name.toList_wildcardOver, hlabels]
  simp [Name.labels]

/-- Wildcards over one name that have the same number of labels are the same rule. -/
theorem Sound.eq_of_suffixLabels_eq (hs : s.Sound) {r q : Rule} (hr : r ∈ s.liveAbove name now)
    (hq : q ∈ s.liveAbove name now) (h : r.suffixLabels = q.suffixLabels) : r = q := by
  obtain ⟨hmemr, -, p, hdomainr, hp⟩ := hs.mem_liveAbove_iff.mp hr
  obtain ⟨hmemq, -, t, hdomainq, ht⟩ := hs.mem_liveAbove_iff.mp hq
  rw [Rule.suffixLabels, Rule.suffixLabels, Rule.below?_eq (hs.accepted r hmemr),
    Rule.below?_eq (hs.accepted q hmemq), hdomainr, hdomainq, Name.afterStar?_wildcardOver,
    Name.afterStar?_wildcardOver] at h
  obtain ⟨front, -, hfront⟩ := Name.isAbove_iff.mp hp
  obtain ⟨front', -, hfront'⟩ := Name.isAbove_iff.mp ht
  have hlabels : Name.labels p = Name.labels t :=
    (List.append_inj' (hfront.symm.trans hfront') h).2
  refine hs.eq_of_domain_eq hmemr hmemq ?_
  rw [hdomainr, hdomainq, Name.labels_injective hlabels]

theorem bestAction_eq {rules : List Rule} {w : Rule} (hw : w ∈ rules)
    (hleast : ∀ r ∈ rules, Precedence.actionRank w.action ≤ Precedence.actionRank r.action) :
    bestAction rules = w.action := by
  have hany (a : Action) : (rules.any fun r => r.action == a) = true ↔
      ∃ r ∈ rules, r.action = a := by
    simp [List.any_eq_true]
  have hnone (a : Action) (hlt : Precedence.actionRank a < Precedence.actionRank w.action) :
      ¬ ∃ r ∈ rules, r.action = a := by
    rintro ⟨r, hr, rfl⟩
    exact Nat.not_le_of_lt hlt (hleast r hr)
  unfold bestAction
  simp only [hany]
  cases haction : w.action with
  | allow => exact if_pos ⟨w, hw, haction⟩
  | block =>
      have hallow := hnone .allow (by rw [haction]; decide)
      rw [if_neg hallow, if_pos ⟨w, hw, haction⟩]
  | unknown =>
      have hallow := hnone .allow (by rw [haction]; decide)
      have hblock := hnone .block (by rw [haction]; decide)
      rw [if_neg hallow, if_neg hblock]

/-! ### The first of the sorted candidates -/

/-- The rule for the name itself goes first. -/
theorem Sound.head?_sort_of_exact (hs : s.Sound) (hname : Name.queryFault? name = none) {r : Rule}
    (hr : r ∈ s.rules) (hdomain : r.domain = name) (hlive : r.isExpired now = false) :
    (Precedence.sort name (s.liveMatches name now)).head? = some r := by
  have habout : r.isAbout name = true :=
    (isAbout_iff_mem_probes (hs.accepted r hr) hname).mpr (hdomain ▸ List.mem_cons_self)
  have hmem : r ∈ s.liveMatches name now := (hs.mem_liveMatches_iff hname).mpr ⟨hr, habout, hlive⟩
  cases hhead : (Precedence.sort name (s.liveMatches name now)).head? with
  | none =>
      rw [Precedence.head?_sort_eq_none_iff] at hhead
      rw [hhead] at hmem
      exact absurd hmem List.not_mem_nil
  | some w =>
      obtain ⟨hw, hfirst⟩ := Precedence.atMost_of_head?_sort hhead
      by_cases hrw : r = w
      · rw [hrw]
      · have hexact := Precedence.exact_of_atMost (hfirst r hmem hrw) hdomain
        have hwmem := ((hs.mem_liveMatches_iff hname).mp hw).1
        exact absurd (hs.eq_of_domain_eq hr hwmem (hdomain.trans hexact.symm)) hrw

/-- Without a live rule for the name itself a wildcard goes first: no other live one over the name
has a better action, and none with the same action has as many labels. -/
theorem Sound.of_head?_sort (hs : s.Sound) (hname : Name.queryFault? name = none)
    (hnone : ∀ r ∈ s.rules, r.domain = name → r.isExpired now = true) {w : Rule}
    (h : (Precedence.sort name (s.liveMatches name now)).head? = some w) :
    w ∈ s.liveAbove name now ∧
      (∀ r ∈ s.liveAbove name now,
        Precedence.actionRank w.action ≤ Precedence.actionRank r.action) ∧
      ∀ r ∈ s.liveAbove name now, r.action = w.action → r ≠ w →
        r.suffixLabels < w.suffixLabels := by
  obtain ⟨hw, hfirst⟩ := Precedence.atMost_of_head?_sort h
  have hwne : w.domain ≠ name := by
    intro hdomain
    obtain ⟨hmem, -, hlive⟩ := (hs.mem_liveMatches_iff hname).mp hw
    rw [hnone w hmem hdomain] at hlive
    cases hlive
  have hwabove := (hs.mem_liveMatches_iff_of_ne hname hwne).mp hw
  have hatMost : ∀ r ∈ s.liveAbove name now, r ≠ w →
      Precedence.atMost name w r = true ∧ (w.domain = name ↔ r.domain = name) := by
    intro r hr hne
    have hrne := hs.domain_ne_of_mem_liveAbove hname hr
    exact ⟨hfirst r ((hs.mem_liveMatches_iff_of_ne hname hrne).mpr hr) hne,
      iff_of_false hwne hrne⟩
  refine ⟨hwabove, fun r hr => ?_, fun r hr haction hne => ?_⟩
  · by_cases hrw : r = w
    · exact Nat.le_of_eq (by rw [hrw])
    · obtain ⟨hle, hexact⟩ := hatMost r hr hrw
      exact Precedence.actionRank_le_of_atMost hle hexact
  · obtain ⟨hle, hexact⟩ := hatMost r hr hne
    have hspecificity := Precedence.specificity_le_of_atMost hle hexact haction.symm
    rw [hs.specificity_of_mem_liveAbove hr, hs.specificity_of_mem_liveAbove hwabove]
      at hspecificity
    exact Nat.lt_of_le_of_ne hspecificity fun heq => hne (hs.eq_of_suffixLabels_eq hr hwabove heq)

theorem Sound.head?_sort_eq_none_iff (hs : s.Sound) (hname : Name.queryFault? name = none)
    (hnone : ∀ r ∈ s.rules, r.domain = name → r.isExpired now = true) :
    (Precedence.sort name (s.liveMatches name now)).head? = none ↔ s.liveAbove name now = [] := by
  rw [Precedence.head?_sort_eq_none_iff, List.eq_nil_iff_forall_not_mem,
    List.eq_nil_iff_forall_not_mem]
  constructor
  · intro h r hr
    have hne := hs.domain_ne_of_mem_liveAbove hname hr
    exact h r ((hs.mem_liveMatches_iff_of_ne hname hne).mpr hr)
  · intro h r hr
    obtain ⟨hmem, -, hlive⟩ := (hs.mem_liveMatches_iff hname).mp hr
    have hne : r.domain ≠ name := by
      intro hdomain
      rw [hnone r hmem hdomain] at hlive
      cases hlive
    exact h r ((hs.mem_liveMatches_iff_of_ne hname hne).mp hr)

theorem check_of_queryFault? {view : RuleView} {typed : String}
    (h : Name.queryFault? (Name.normalize typed) = none) :
    view.check typed now = .ok (Decision.of view (Name.normalize typed) now) := by
  simp only [RuleView.check, h]

/-- The rules found about a name that are live are all that a decision depends on. -/
theorem decision_congr {next : Store} (h : next.liveMatches name now = s.liveMatches name now) :
    Decision.of next.view name now = Decision.of s.view name now := by
  unfold liveMatches at h
  unfold Decision.of
  rw [h]

theorem check_congr {next : Store} {typed : String}
    (h : Name.queryFault? (Name.normalize typed) = none →
      next.liveMatches (Name.normalize typed) now = s.liveMatches (Name.normalize typed) now) :
    next.view.check typed now = s.view.check typed now := by
  cases hname : Name.queryFault? (Name.normalize typed) with
  | some cause => simp only [RuleView.check, hname]
  | none =>
      rw [check_of_queryFault? hname, check_of_queryFault? hname, decision_congr (h hname)]

theorem winner_of : (Decision.of s.view name now).winner =
    (Precedence.sort name (s.liveMatches name now)).head? := rfl

theorem action_of : (Decision.of s.view name now).action =
    match (Precedence.sort name (s.liveMatches name now)).head? with
    | some r => r.action
    | none => .unknown := rfl

/-- A live rule for the name that is asked for decides. -/
theorem Sound.check_of_exact (hs : s.Sound) {typed : String}
    (hname : Name.queryFault? (Name.normalize typed) = none) {r : Rule} (hr : r ∈ s.rules)
    (hdomain : r.domain = Name.normalize typed) (hlive : r.isExpired now = false) :
    ∃ decision, s.view.check typed now = .ok decision ∧ decision.winner = some r ∧
      decision.action = r.action := by
  refine ⟨_, check_of_queryFault? hname, ?_⟩
  rw [winner_of, action_of, hs.head?_sort_of_exact hname hr hdomain hlive]
  exact ⟨rfl, rfl⟩

/-- A check of a name that may be asked for succeeds. If a live rule is stored for the name, that rule
decides. Otherwise the best action among the live wildcards over the name is the verdict, and of those
with this action the one with the most labels is named; without any there is none to name. -/
theorem check_eq_verdict (s : Store) (hs : s.Reachable) (now : Instant) (typed : String)
    (hname : Name.queryFault? (Name.normalize typed) = none) :
    ∃ decision, s.view.check typed now = .ok decision ∧
      decision.domain = Name.normalize typed ∧
      (∀ r ∈ s.rules, r.domain = Name.normalize typed → r.isExpired now = false →
        decision.winner = some r ∧ decision.action = r.action) ∧
      ((∀ r ∈ s.rules, r.domain = Name.normalize typed → r.isExpired now = true) →
        decision.action = bestAction (s.liveAbove (Name.normalize typed) now) ∧
        (decision.winner = none ↔ s.liveAbove (Name.normalize typed) now = []) ∧
        ∀ w, decision.winner = some w ↔
          w ∈ s.liveAbove (Name.normalize typed) now ∧ w.action = decision.action ∧
            ∀ r ∈ s.liveAbove (Name.normalize typed) now, r.action = w.action → r ≠ w →
              r.suffixLabels < w.suffixLabels) := by
  have hsound := hs.sound
  refine ⟨Decision.of s.view (Name.normalize typed) now, check_of_queryFault? hname, rfl, ?_, ?_⟩
  · intro r hr hdomain hlive
    rw [action_of, winner_of, hsound.head?_sort_of_exact hname hr hdomain hlive]
    exact ⟨rfl, rfl⟩
  · intro hnone
    have hempty := hsound.head?_sort_eq_none_iff hname hnone
    rw [action_of, winner_of]
    cases hhead : (Precedence.sort (Name.normalize typed)
        (s.liveMatches (Name.normalize typed) now)).head? with
    | none =>
        have habove := hempty.mp hhead
        simp [habove, bestAction]
    | some w =>
        obtain ⟨hw, hleast, hlongest⟩ := hsound.of_head?_sort hname hnone hhead
        refine ⟨(bestAction_eq hw hleast).symm, ?_, fun w' => ?_⟩
        · rw [← hempty, hhead]
        · constructor
          · rintro h
            cases h
            exact ⟨hw, rfl, hlongest⟩
          · rintro ⟨hw', haction, hlongest'⟩
            by_cases heq : w = w'
            · rw [heq]
            · have hlt := hlongest' w hw haction.symm heq
              have hgt := hlongest w' hw' haction fun h => heq h.symm
              omega

/-- The rule for the name has run out, so that the wildcards over it decide, and allowing wins. -/
theorem check_sample : Store.sample.Reachable ∧
    Name.queryFault? (Name.normalize " Mail.Ads.com. ") = none ∧
    ∃ decision, sample.view.check " Mail.Ads.com. " ⟨100, 0⟩ = .ok decision ∧
      decision.action = .allow := by
  have hname : Name.queryFault? (Name.normalize " Mail.Ads.com. ") = none := by decide +kernel
  refine ⟨reachable_sample, hname, ?_⟩
  obtain ⟨decision, hcheck, -, -, habove⟩ :=
    check_eq_verdict sample reachable_sample ⟨100, 0⟩ " Mail.Ads.com. " hname
  have hexpired : ∀ r ∈ sample.rules, r.domain = Name.normalize " Mail.Ads.com. " →
      r.isExpired ⟨100, 0⟩ = true := by
    decide +kernel
  refine ⟨decision, hcheck, ?_⟩
  rw [(habove hexpired).1]
  decide +kernel

end Store

end DnsFilter
