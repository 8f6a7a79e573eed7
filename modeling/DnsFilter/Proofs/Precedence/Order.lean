import DnsFilter.Precedence

/-! The criteria of precedence as orders. Each criterion compares one thing about two rules and is a
total preorder by itself; asked in turn, as many of them as there are, they are one again. So a list
in order of precedence starts with a rule that goes before all others, and what this says about the
first three criteria is read off here once. -/

namespace DnsFilter.Precedence

/-! ### Each criterion -/

instance (query : String) : Std.TransCmp (exactness query) :=
  inferInstanceAs (Std.TransCmp fun a b =>
    compareOn (fun r : Rule => (r.domain == query).toNat) b a)

instance (query : String) : Std.TransCmp (action query) :=
  inferInstanceAs (Std.TransCmp (compareOn fun r : Rule => actionRank r.action))

instance (query : String) : Std.TransCmp (specificity query) :=
  inferInstanceAs (Std.TransCmp fun a b => compareOn Rule.specificity b a)

instance (query : String) : Std.TransCmp (priority query) :=
  inferInstanceAs (Std.TransCmp fun a b => compareOn (fun r : Rule => (r.priority : Int)) b a)

instance (query : String) : Std.TransCmp (source query) :=
  inferInstanceAs (Std.TransCmp fun a b =>
    compareOn (fun r : Rule => (r.source == .user).toNat) b a)

instance (query : String) : Std.TransCmp (fallback query) :=
  inferInstanceAs (Std.TransCmp (compareLex (compareOn Rule.domain)
    (compareLex (compareOn fun r : Rule => kindRank r.kind)
      (compareOn fun r : Rule => sourceRank r.source))))

/-! ### The criteria in turn -/

/-- Asking criteria in turn gives a total preorder if each of them is one. -/
theorem transCmp_inTurn (query : String) (cs : List Criterion)
    (h : ∀ c ∈ cs, Std.TransCmp (c query)) :
    Std.TransCmp fun a b => cs.foldr (fun c rest => (c query a b).then rest) .eq := by
  induction cs with
  | nil =>
      exact inferInstanceAs (Std.TransCmp (compareOn fun _ : Rule => (0 : Nat)))
  | cons c rest ih =>
      have hc : Std.TransCmp (c query) := h c List.mem_cons_self
      have hrest := ih fun d hd => h d (List.mem_cons_of_mem c hd)
      exact inferInstanceAs (Std.TransCmp (compareLex (c query)
        fun a b => rest.foldr (fun c rest => (c query a b).then rest) .eq))

instance (query : String) : Std.TransCmp (comparison query) := by
  refine transCmp_inTurn query criteria fun c hc => ?_
  simp only [criteria, List.mem_cons, List.not_mem_nil, or_false] at hc
  rcases hc with rfl | rfl | rfl | rfl | rfl | rfl <;> infer_instance

theorem atMost_trans {query : String} (a b c : Rule) (hab : atMost query a b = true)
    (hbc : atMost query b c = true) : atMost query a c = true :=
  Std.TransCmp.isLE_trans hab hbc

theorem atMost_total {query : String} (a b : Rule) :
    (atMost query a b || atMost query b a) = true := by
  have hswap : comparison query b a = (comparison query a b).swap := Std.OrientedCmp.eq_swap
  unfold atMost
  rw [hswap]
  cases comparison query a b <;> rfl

theorem atMost_self (query : String) (r : Rule) : atMost query r r = true := by
  simpa using @atMost_total query r r

/-! ### Rules that no criterion tells apart -/

/-- Whether two rules agree in everything that precedence looks at. -/
structure Agree (a b : Rule) : Prop where
  domain : a.domain = b.domain
  kind : a.kind = b.kind
  action : a.action = b.action
  priority : a.priority = b.priority
  source : a.source = b.source

theorem actionRank_injective {a b : Action} (h : actionRank a = actionRank b) : a = b := by
  revert h
  cases a <;> cases b <;> decide

theorem kindRank_injective {a b : Kind} (h : kindRank a = kindRank b) : a = b := by
  revert h
  cases a <;> cases b <;> decide

theorem sourceRank_injective {a b : Source} (h : sourceRank a = sourceRank b) : a = b := by
  revert h
  cases a <;> cases b <;> decide

theorem compareText_eq_eq_iff {a b : String} : compareText a b = .eq ↔ a = b := by
  show compare a b = .eq ↔ a = b
  exact Std.compare_eq_iff_eq

/-- The fallback alone tells two rules apart that differ in domain, kind or source. -/
theorem fallback_eq_eq_iff {query : String} {a b : Rule} :
    fallback query a b = .eq ↔ a.domain = b.domain ∧ a.kind = b.kind ∧ a.source = b.source := by
  unfold fallback
  rw [Ordering.then_eq_eq, Ordering.then_eq_eq, compareText_eq_eq_iff, Nat.compare_eq_eq,
    Nat.compare_eq_eq]
  constructor
  · rintro ⟨hdomain, hkind, hsource⟩
    exact ⟨hdomain, kindRank_injective hkind, sourceRank_injective hsource⟩
  · rintro ⟨hdomain, hkind, hsource⟩
    exact ⟨hdomain, congrArg kindRank hkind, congrArg sourceRank hsource⟩

theorem inTurn_eq_eq_iff {query : String} {cs : List Criterion} {a b : Rule} :
    cs.foldr (fun c rest => (c query a b).then rest) .eq = .eq ↔
      ∀ c ∈ cs, c query a b = .eq := by
  induction cs with
  | nil => simp
  | cons c rest ih => rw [List.foldr_cons, Ordering.then_eq_eq, ih, List.forall_mem_cons]

/-- Action and priority have criteria of their own and the fallback speaks for domain, kind and
source; exactness, specificity and the user's source follow from these. -/
theorem comparison_eq_eq_iff {query : String} {a b : Rule} :
    comparison query a b = .eq ↔ Agree a b := by
  unfold comparison
  rw [inTurn_eq_eq_iff]
  constructor
  · intro hequal
    have haction : compare (actionRank a.action) (actionRank b.action) = .eq :=
      hequal action (by simp [criteria])
    have hpriority : compare b.priority a.priority = .eq := hequal priority (by simp [criteria])
    obtain ⟨hdomain, hkind, hsource⟩ :=
      fallback_eq_eq_iff.mp (hequal fallback (by simp [criteria]))
    exact ⟨hdomain, hkind, actionRank_injective (Nat.compare_eq_eq.mp haction),
      (Int.compare_eq_eq.mp hpriority).symm, hsource⟩
  · intro hagree c hc
    have hspecificity : a.specificity = b.specificity := by
      rw [Rule.specificity, Rule.specificity, hagree.kind, hagree.domain]
    simp only [criteria, List.mem_cons, List.not_mem_nil, or_false] at hc
    rcases hc with rfl | rfl | rfl | rfl | rfl | rfl
    · rw [exactness, hagree.domain, compareFlag, Nat.compare_eq_eq]
    · rw [action, hagree.action, Nat.compare_eq_eq]
    · rw [specificity, hspecificity, Nat.compare_eq_eq]
    · rw [priority, hagree.priority, Int.compare_eq_eq]
    · rw [source, hagree.source, compareFlag, Nat.compare_eq_eq]
    · exact fallback_eq_eq_iff.mpr ⟨hagree.domain, hagree.kind, hagree.source⟩

/-- For every query the comparison is a total preorder on all rules, accepted by a store or not. Taking
the rules the other way round reverses the answer; a rule that goes before a second one, which goes
before a third, goes before the third, whichever criteria decide; and no criterion tells two rules
apart exactly if they agree in domain, kind, action, priority and source. -/
theorem comparison_total_preorder (query : String) :
    (∀ a b, comparison query b a = (comparison query a b).swap) ∧
      (∀ a b, (comparison query a b).isLE = true ∨ (comparison query b a).isLE = true) ∧
      (∀ a b c, (comparison query a b).isLE = true → (comparison query b c).isLE = true →
        (comparison query a c).isLE = true) ∧
      (∀ a b c, comparison query a b = .lt → comparison query b c = .lt →
        comparison query a c = .lt) ∧
      ∀ a b, comparison query a b = .eq ↔ Agree a b := by
  refine ⟨?_, ?_, ?_, ?_, ?_⟩
  · intro a b
    exact Std.OrientedCmp.eq_swap
  · intro a b
    rw [← Bool.or_eq_true]
    exact atMost_total a b
  · intro a b c hab hbc
    exact atMost_trans a b c hab hbc
  · intro a b c hab hbc
    exact Std.TransCmp.lt_trans hab hbc
  · intro a b
    exact comparison_eq_eq_iff

/-! ### What the first three criteria say -/

theorem exactness_eq {query : String} {a b : Rule}
    (h : a.domain = query ↔ b.domain = query) : exactness query a b = .eq := by
  have hflag : (b.domain == query) = (a.domain == query) := by
    rw [Bool.eq_iff_iff, beq_iff_eq, beq_iff_eq]
    exact h.symm
  unfold exactness compareFlag
  rw [hflag]
  exact Nat.compare_eq_eq.mpr rfl

/-- No rule goes before the one spelled as the query, except another such rule. -/
theorem exact_of_atMost {query : String} {a b : Rule} (h : atMost query a b = true)
    (hb : b.domain = query) : a.domain = query := by
  have hexact : (exactness query a b).isLE = true := Ordering.isLE_left_of_isLE_then h
  unfold exactness compareFlag at hexact
  rw [Nat.isLE_compare, hb, beq_self_eq_true] at hexact
  by_cases ha : a.domain = query
  · exact ha
  · rw [beq_false_of_ne ha] at hexact
    exact absurd hexact (by decide)

theorem actionRank_le_of_atMost {query : String} {a b : Rule} (h : atMost query a b = true)
    (hexact : a.domain = query ↔ b.domain = query) :
    actionRank a.action ≤ actionRank b.action := by
  unfold atMost comparison criteria at h
  rw [List.foldr_cons, exactness_eq hexact, Ordering.eq_then, List.foldr_cons] at h
  exact Nat.isLE_compare.mp (Ordering.isLE_left_of_isLE_then h)

theorem specificity_le_of_atMost {query : String} {a b : Rule} (h : atMost query a b = true)
    (hexact : a.domain = query ↔ b.domain = query) (haction : a.action = b.action) :
    b.specificity ≤ a.specificity := by
  have hequal : action query a b = .eq := by
    unfold action
    rw [haction]
    exact Nat.compare_eq_eq.mpr rfl
  unfold atMost comparison criteria at h
  rw [List.foldr_cons, exactness_eq hexact, Ordering.eq_then, List.foldr_cons, hequal,
    Ordering.eq_then, List.foldr_cons] at h
  exact Nat.isLE_compare.mp (Ordering.isLE_left_of_isLE_then h)

/-! ### Sorted candidates -/

theorem mem_sort {query : String} {rules : List Rule} {r : Rule} :
    r ∈ sort query rules ↔ r ∈ rules :=
  List.mem_mergeSort

theorem pairwise_sort (query : String) (rules : List Rule) :
    (sort query rules).Pairwise fun a b => atMost query a b = true :=
  List.pairwise_mergeSort atMost_trans atMost_total rules

/-- The first of the sorted rules is one of them and goes before all of them. -/
theorem atMost_of_head?_sort {query : String} {rules : List Rule} {w : Rule}
    (h : (sort query rules).head? = some w) :
    w ∈ rules ∧ ∀ r ∈ rules, r ≠ w → atMost query w r = true := by
  obtain ⟨rest, hsort⟩ := List.head?_eq_some_iff.mp h
  have hpairwise := pairwise_sort query rules
  rw [hsort, List.pairwise_cons] at hpairwise
  refine ⟨mem_sort.mp (hsort ▸ List.mem_cons_self), fun r hr hne => ?_⟩
  have hmem : r ∈ sort query rules := mem_sort.mpr hr
  rw [hsort, List.mem_cons] at hmem
  rcases hmem with heq | hrest
  · exact absurd heq hne
  · exact hpairwise.1 r hrest

theorem head?_sort_eq_none_iff {query : String} {rules : List Rule} :
    (sort query rules).head? = none ↔ rules = [] := by
  rw [List.head?_eq_none_iff, ← List.length_eq_zero_iff, sort, List.length_mergeSort,
    List.length_eq_zero_iff]

end DnsFilter.Precedence
