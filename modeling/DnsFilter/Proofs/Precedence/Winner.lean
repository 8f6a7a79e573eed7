import DnsFilter.Proofs.Precedence.Order
import DnsFilter.Rule.Matching

/-! The rule that takes precedence among several. One pass over the candidates picks it, without putting
them in order, and picks the very rule that comes first when they are put in order: of several that
compare equal, the earliest. In which order the candidates are given makes no difference to anything
that precedence looks at. -/

namespace DnsFilter.Precedence

variable {query : String} {rules : List Rule} {w : Rule}

theorem atMost_of_atMost_eq_false {a b : Rule} (h : atMost query a b = false) :
    atMost query b a = true := by
  have htotal := @atMost_total query a b
  rwa [h, Bool.false_or] at htotal

/-! ### One pass over the candidates -/

theorem winner?_eq_none_iff : winner? query rules = none ↔ rules = [] := by
  cases rules with
  | nil => simp [winner?]
  | cons r rest =>
      rw [winner?]
      cases winner? query rest with
      | none => simp
      | some best =>
          dsimp only
          split <;> simp

theorem exists_winner? (query : String) (h : rules ≠ []) : ∃ w, winner? query rules = some w := by
  rw [← Option.ne_none_iff_exists']
  exact mt winner?_eq_none_iff.mp h

/-- The rules before the winner do not come up to it, and those behind it do not surpass it. -/
theorem split_of_winner? (h : winner? query rules = some w) :
    ∃ before after, rules = before ++ w :: after ∧
      (∀ r ∈ before, atMost query r w = false) ∧ ∀ r ∈ after, atMost query w r = true := by
  induction rules generalizing w with
  | nil => cases h
  | cons r rest ih =>
      rw [winner?] at h
      cases hrest : winner? query rest with
      | none =>
          rw [hrest] at h
          cases h
          obtain rfl := winner?_eq_none_iff.mp hrest
          exact ⟨[], [], rfl, by simp, by simp⟩
      | some best =>
          obtain ⟨before, after, hsplit, hbefore, hafter⟩ := ih hrest
          rw [hrest] at h
          cases hle : atMost query r best with
          | true =>
              simp only [hle, if_true, Option.some.injEq] at h
              subst h
              -- the new rule takes over, so that all others are behind it
              refine ⟨[], rest, rfl, by simp, fun q hq => ?_⟩
              rw [hsplit, List.mem_append, List.mem_cons] at hq
              rcases hq with hfront | rfl | hback
              · exact atMost_trans r best q hle (atMost_of_atMost_eq_false (hbefore q hfront))
              · exact hle
              · exact atMost_trans r best q hle (hafter q hback)
          | false =>
              simp only [hle, Bool.false_eq_true, if_false, Option.some.injEq] at h
              subst h
              exact ⟨r :: before, after, by rw [hsplit, List.cons_append],
                List.forall_mem_cons.mpr ⟨hle, hbefore⟩, hafter⟩

theorem mem_of_winner? (h : winner? query rules = some w) : w ∈ rules := by
  obtain ⟨before, after, rfl, -, -⟩ := split_of_winner? h
  exact List.mem_append_right before List.mem_cons_self

theorem atMost_of_winner? (h : winner? query rules = some w) :
    ∀ r ∈ rules, atMost query w r = true := by
  obtain ⟨before, after, rfl, hbefore, hafter⟩ := split_of_winner? h
  intro r hr
  rw [List.mem_append, List.mem_cons] at hr
  rcases hr with hfront | rfl | hback
  · exact atMost_of_atMost_eq_false (hbefore r hfront)
  · exact atMost_self query r
  · exact hafter r hback

/-! ### The candidates in order -/

theorem perm_sort (query : String) (rules : List Rule) : (sort query rules).Perm rules :=
  List.mergeSort_perm rules (atMost query)

/-- Rules that compare equal to `r` are sorted into the order in which they were given. -/
theorem filter_sort (query : String) (rules : List Rule) (r : Rule) :
    (sort query rules).filter (fun q => comparison query r q == .eq) =
      rules.filter fun q => comparison query r q == .eq := by
  have hequal : (rules.filter fun q => comparison query r q == .eq).Pairwise
      fun a b => atMost query a b = true := by
    refine List.pairwise_of_forall_mem_list fun a ha b hb => ?_
    rw [List.mem_filter, beq_iff_eq] at ha hb
    have hab : comparison query a b = .eq :=
      Std.TransCmp.eq_trans (Std.OrientedCmp.eq_comm.mp ha.2) hb.2
    rw [atMost, hab]
    rfl
  have hsublist : (rules.filter fun q => comparison query r q == .eq).Sublist (sort query rules) :=
    List.sublist_mergeSort atMost_trans atMost_total hequal List.filter_sublist
  have hfiltered := hsublist.filter fun q => comparison query r q == .eq
  rw [List.filter_filter] at hfiltered
  simp only [Bool.and_self] at hfiltered
  exact (hfiltered.eq_of_length ((perm_sort query rules).filter _).length_eq.symm).symm

/-- Both ways to find the rule that takes precedence lead to the same one, ties included. -/
theorem winner?_eq_head?_sort (query : String) (rules : List Rule) :
    winner? query rules = (sort query rules).head? := by
  induction rules with
  | nil => simp [winner?, sort]
  | cons r rest ih =>
      -- sorted in, the new rule stands before all rules that it may stand before
      obtain ⟨front, back, hsorted, hrest, hfront⟩ :=
        List.mergeSort_cons atMost_trans (@atMost_total query) r rest
      rw [← sort] at hsorted hrest
      rw [winner?, ih, hsorted, hrest]
      cases front with
      | nil =>
          cases back with
          | nil => rfl
          | cons best back =>
              have hpairwise := pairwise_sort query (r :: rest)
              rw [hsorted, List.nil_append, List.pairwise_cons] at hpairwise
              have hle : atMost query r best = true := hpairwise.1 best List.mem_cons_self
              simp only [List.nil_append, List.head?_cons, hle, if_true]
      | cons best front =>
          have hlt : atMost query r best = false := by
            simpa using hfront best List.mem_cons_self
          simp only [List.cons_append, List.head?_cons, hlt, Bool.false_eq_true, if_false]

/-! ### The candidates in another order -/

theorem agree_of_perm {other : List Rule} (hperm : other.Perm rules) {v : Rule}
    (hw : winner? query rules = some w) (hv : winner? query other = some v) : Agree w v := by
  have hwv := atMost_of_winner? hw v (hperm.mem_iff.mp (mem_of_winner? hv))
  have hvw := atMost_of_winner? hv w (hperm.mem_iff.mpr (mem_of_winner? hw))
  exact comparison_eq_eq_iff.mp (Std.OrientedCmp.isLE_antisymm hwv hvw)

theorem verdict_of_winner? (h : winner? query rules = some w) : verdict query rules = w.action := by
  rw [verdict, h]

/-- Among any candidates the one that takes precedence is picked as follows: none of them goes before
it, and none that was given before it compares equal to it. It is the first of them in order of
precedence. That order has the same candidates, each one before those it goes before, and those that
compare equal as they were given. Given in any other order, the candidates lead to the same action and
to a rule that agrees with this one in domain, kind, action, priority and source. -/
theorem winner_heads_sort (query : String) (rules : List Rule) (hne : rules ≠ []) :
    ∃ w, winner? query rules = some w ∧ verdict query rules = w.action ∧ w ∈ rules ∧
      (∀ r ∈ rules, comparison query r w ≠ .lt) ∧
      (∃ before after, rules = before ++ w :: after ∧
        ∀ r ∈ before, comparison query r w ≠ .eq) ∧
      (sort query rules).head? = some w ∧
      (sort query rules).Perm rules ∧
      ((sort query rules).Pairwise fun a b => comparison query a b ≠ .gt) ∧
      (∀ r, (sort query rules).filter (fun q => comparison query r q == .eq) =
        rules.filter fun q => comparison query r q == .eq) ∧
      ∀ other, other.Perm rules →
        verdict query other = w.action ∧ ∃ v, winner? query other = some v ∧ Agree w v := by
  obtain ⟨w, hw⟩ := exists_winner? query hne
  refine ⟨w, hw, verdict_of_winner? hw, mem_of_winner? hw, ?_, ?_, ?_, perm_sort query rules, ?_,
    filter_sort query rules, ?_⟩
  · intro r hr hless
    have hle : (comparison query w r).isLE = true := atMost_of_winner? hw r hr
    rw [Std.OrientedCmp.gt_iff_lt.mpr hless] at hle
    cases hle
  · obtain ⟨before, after, hsplit, hbefore, -⟩ := split_of_winner? hw
    refine ⟨before, after, hsplit, fun r hr hequal => ?_⟩
    have hnot : (comparison query r w).isLE = false := hbefore r hr
    rw [hequal] at hnot
    cases hnot
  · rw [← winner?_eq_head?_sort, hw]
  · exact (pairwise_sort query rules).imp Ordering.isLE_iff_ne_gt.mp
  · intro other hperm
    have hother : other ≠ [] := by
      rintro rfl
      exact hne hperm.nil_eq.symm
    obtain ⟨v, hv⟩ := exists_winner? query hother
    have hagree := agree_of_perm hperm hw hv
    exact ⟨(verdict_of_winner? hv).trans hagree.action.symm, v, hv, hagree⟩

/-- A block, and two allows over all of `com` that differ in their comment only. -/
def sampleCandidates : List Rule :=
  [Rule.draft "*.ads.com" .block,
    { Rule.draft "*.com" .allow with comment := some "first" },
    { Rule.draft "*.com" .allow with comment := some "second" }]

/-- Backwards the list leads to the other allow, which agrees with the first one. -/
theorem winner_heads_sort_sample : sampleCandidates ≠ [] ∧
    ∃ w, winner? "x.ads.com" sampleCandidates = some w ∧ w.comment = some "first" ∧
      (sort "x.ads.com" sampleCandidates).head? = some w ∧
      ∃ v, winner? "x.ads.com" sampleCandidates.reverse = some v ∧ v.comment = some "second" ∧
        Agree w v := by
  have hne : sampleCandidates ≠ [] := by decide
  obtain ⟨w, hw, -, -, -, -, hhead, -, -, -, hother⟩ :=
    winner_heads_sort "x.ads.com" sampleCandidates hne
  obtain ⟨-, v, hv, hagree⟩ := hother sampleCandidates.reverse (List.reverse_perm _)
  have hfirst : (winner? "x.ads.com" sampleCandidates).map (·.comment) = some (some "first") := by
    decide +kernel
  have hsecond : (winner? "x.ads.com" sampleCandidates.reverse).map (·.comment) =
      some (some "second") := by decide +kernel
  rw [hw, Option.map_some, Option.some.injEq] at hfirst
  rw [hv, Option.map_some, Option.some.injEq] at hsecond
  exact ⟨hne, w, hw, hfirst, hhead, v, hv, hsecond, hagree⟩

end DnsFilter.Precedence

namespace DnsFilter.RuleView

/-- What the rules found about a name ask for is the verdict over them, though they are sorted for it. -/
theorem resolve_eq_verdict (view : RuleView) (name : String) :
    view.resolve name = Precedence.verdict name (view.findMatches name) := by
  rw [resolve, Precedence.verdict, Precedence.winner?_eq_head?_sort]
  cases Precedence.sort name (view.findMatches name) <;> rfl

end DnsFilter.RuleView
