import DnsFilter.Proofs.Decision.Verdict

/-! What a check does not depend on. Two stores whose rules agree in domain, kind, action and expiry
give the same answers, however much the rules differ in the rest. Among the rules about one name no two
are told apart by their later criteria only: the one for the name itself differs from the others in
exactness, and wildcards over the name differ in the number of labels. -/

namespace DnsFilter

/-- The rule with nothing set but its domain, kind, action and expiry. -/
def Rule.bare (r : Rule) : Rule :=
  { r with
    priority := 0
    source := .user
    comment := none
    customMessage := none
    updatedAt := none
    autoGenerated := false }

/-! ### The first three criteria -/

namespace Precedence

variable {query : String} {a b : Rule}

/-- Whether exactness, action or specificity tells the two rules apart. -/
def IsDecidedEarly (query : String) (a b : Rule) : Prop :=
  ∃ c ∈ criteria.take 3, c query a b ≠ .eq

theorem eq_of_mem_take {c : Criterion} (hc : c ∈ criteria.take 3) :
    c query a.bare b.bare = c query a b := by
  simp only [criteria, List.take_succ_cons, List.take_zero, List.mem_cons, List.not_mem_nil,
    or_false] at hc
  rcases hc with rfl | rfl | rfl <;> rfl

/-- Where one of the first criteria tells two rules apart, the others are not asked. -/
theorem inTurn_append {first : List Criterion} (rest : List Criterion)
    (h : ∃ c ∈ first, c query a b ≠ .eq) :
    (first ++ rest).foldr (fun c later => (c query a b).then later) .eq =
      first.foldr (fun c later => (c query a b).then later) .eq := by
  induction first with
  | nil =>
      obtain ⟨c, hc, -⟩ := h
      exact absurd hc List.not_mem_nil
  | cons c first ih =>
      rw [List.cons_append, List.foldr_cons, List.foldr_cons]
      by_cases hequal : c query a b = .eq
      · obtain ⟨d, hd, hne⟩ := h
        rcases List.mem_cons.mp hd with rfl | hd
        · exact absurd hequal hne
        · rw [ih ⟨d, hd, hne⟩]
      · cases hdecided : c query a b with
        | lt => rfl
        | eq => exact absurd hdecided hequal
        | gt => rfl

theorem comparison_bare (h : IsDecidedEarly query a b) :
    comparison query a b = comparison query a.bare b.bare := by
  have hbare : IsDecidedEarly query a.bare b.bare := by
    obtain ⟨c, hc, hne⟩ := h
    exact ⟨c, hc, by rw [eq_of_mem_take hc]; exact hne⟩
  calc comparison query a b
      = (criteria.take 3).foldr (fun c later => (c query a b).then later) .eq :=
        inTurn_append (criteria.drop 3) h
    _ = (criteria.take 3).foldr (fun c later => (c query a.bare b.bare).then later) .eq := rfl
    _ = comparison query a.bare b.bare := (inTurn_append (criteria.drop 3) hbare).symm

/-- Rules that are told apart early are sorted by what their bare forms say. -/
theorem map_bare_sort {rules : List Rule}
    (h : ∀ a ∈ rules, ∀ b ∈ rules, a ≠ b → IsDecidedEarly query a b) :
    (sort query rules).map Rule.bare = sort query (rules.map Rule.bare) := by
  refine List.map_mergeSort fun a ha b hb => ?_
  by_cases hab : a = b
  · rw [hab, atMost_self, atMost_self]
  · rw [atMost, comparison_bare (h a ha b hb hab), atMost]

theorem exactness_ne_eq (h : ¬ (a.domain = query ↔ b.domain = query)) :
    exactness query a b ≠ .eq := by
  intro hequal
  have hflags := Nat.compare_eq_eq.mp hequal
  have hsame : (a.domain == query) = (b.domain == query) := by
    revert hflags
    cases a.domain == query <;> cases b.domain == query <;> decide
  exact h (by rw [← beq_iff_eq, hsame, beq_iff_eq])

end Precedence

/-! ### Stores that agree -/

/-- What is told of a decision: the name, the verdict, which rule wins, and which rules compete in
which order. -/
def Decision.outline (d : Decision) : String × Action × Option String × List String :=
  (d.domain, d.action, d.winner.map (·.domain), d.candidates.map (·.domain))

theorem Decision.outline_of (view : RuleView) (name : String) (now : Instant) :
    (Decision.of view name now).outline =
      let bare := (Decision.of view name now).candidates.map Rule.bare
      (name, (bare.head?.map (·.action)).getD .unknown, bare.head?.map (·.domain),
        bare.map (·.domain)) := by
  have hdomains (rules : List Rule) :
      (rules.map Rule.bare).map (·.domain) = rules.map (·.domain) := by
    rw [List.map_map]
    rfl
  simp only [Decision.outline, hdomains]
  unfold Decision.of
  dsimp only
  cases Precedence.sort name ((view.findMatches name).filter fun r => !r.isExpired now) <;> rfl

namespace Store

/-- Whether two stores have rules for the same domains, of the same kind, action and expiry. -/
def Alike (s t : Store) : Prop :=
  ∀ domain, (s.ruleFor domain).map (fun r => (r.kind, r.action, r.expiresAt)) =
    (t.ruleFor domain).map fun r => (r.kind, r.action, r.expiresAt)

variable {s t : Store} {name : String} {now : Instant}

theorem Alike.map_bare_ruleFor (h : s.Alike t) (domain : String) :
    (s.ruleFor domain).map Rule.bare = (t.ruleFor domain).map Rule.bare := by
  have hdomain := h domain
  cases hs : s.ruleFor domain with
  | none =>
      rw [hs] at hdomain
      rw [Option.map_eq_none_iff.mp hdomain.symm]
  | some r =>
      rw [hs] at hdomain
      obtain ⟨q, hq, heq⟩ := Option.map_eq_some_iff.mp hdomain.symm
      simp only [Prod.mk.injEq] at heq
      have hsame : q.domain = r.domain := (domain_of_ruleFor hq).trans (domain_of_ruleFor hs).symm
      rw [hq, Option.map_some, Option.map_some, Rule.bare, Rule.bare, hsame, heq.1, heq.2.1,
        heq.2.2]

/-- The same rules, but for what is not told, are found about a name. -/
theorem Alike.map_bare_liveMatches (h : s.Alike t) (hname : Name.queryFault? name = none) :
    (s.liveMatches name now).map Rule.bare = (t.liveMatches name now).map Rule.bare := by
  have hlive (s : Store) : (s.liveMatches name now).map Rule.bare =
      ((Name.probes name).filterMap fun d => (s.ruleFor d).map Rule.bare).filter
        fun r => !r.isExpired now := by
    rw [liveMatches, findMatches_eq_filterMap s hname, ← List.map_filterMap, List.filter_map]
    rfl
  rw [hlive, hlive]
  simp only [h.map_bare_ruleFor]

/-- No two of the live rules about a name agree in both exactness and specificity. -/
theorem Sound.isDecidedEarly (hs : s.Sound) (hname : Name.queryFault? name = none) :
    ∀ a ∈ s.liveMatches name now, ∀ b ∈ s.liveMatches name now, a ≠ b →
      Precedence.IsDecidedEarly name a b := by
  intro a ha b hb hne
  by_cases hexact : a.domain = name ↔ b.domain = name
  · refine ⟨Precedence.specificity, by simp [Precedence.criteria], fun hequal => hne ?_⟩
    by_cases hdomain : a.domain = name
    · exact hs.eq_of_domain_eq ((hs.mem_liveMatches_iff hname).mp ha).1
        ((hs.mem_liveMatches_iff hname).mp hb).1 (hdomain.trans (hexact.mp hdomain).symm)
    · have habove := (hs.mem_liveMatches_iff_of_ne hname hdomain).mp ha
      have hbbove := (hs.mem_liveMatches_iff_of_ne hname (mt hexact.mpr hdomain)).mp hb
      refine hs.eq_of_suffixLabels_eq habove hbbove ?_
      rw [← hs.specificity_of_mem_liveAbove habove, ← hs.specificity_of_mem_liveAbove hbbove]
      exact (Nat.compare_eq_eq.mp hequal).symm
  · exact ⟨Precedence.exactness, by simp [Precedence.criteria], Precedence.exactness_ne_eq hexact⟩

theorem Sound.map_bare_candidates (hs : s.Sound) (hname : Name.queryFault? name = none) :
    (Decision.of s.view name now).candidates.map Rule.bare =
      Precedence.sort name ((s.liveMatches name now).map Rule.bare) :=
  Precedence.map_bare_sort (hs.isDecidedEarly hname)

theorem Alike.outline_eq (h : s.Alike t) (hs : s.Sound) (ht : t.Sound)
    (hname : Name.queryFault? name = none) :
    (Decision.of s.view name now).outline = (Decision.of t.view name now).outline := by
  rw [Decision.outline_of, Decision.outline_of, hs.map_bare_candidates hname,
    ht.map_bare_candidates hname, h.map_bare_liveMatches hname]

/-- Two stores that agree in the domains of their rules and in the kind, action and expiry of each give
the same answer to every question at every time: the same refusal, or the same verdict by the rule for
the same domain, with the same candidates in the same order. Of two candidates one goes first for its
exactness, action or specificity; priority, source and the fallback are never asked. -/
theorem check_eq_of_alike (s t : Store) (hs : s.Reachable) (ht : t.Reachable) (halike : s.Alike t)
    (typed : String) (now : Instant) :
    (s.view.check typed now).map Decision.outline =
        (t.view.check typed now).map Decision.outline ∧
      ∀ decision, s.view.check typed now = .ok decision →
        ∀ a ∈ decision.candidates, ∀ b ∈ decision.candidates, a ≠ b →
          Precedence.IsDecidedEarly decision.domain a b := by
  cases hname : Name.queryFault? (Name.normalize typed) with
  | some cause =>
      have hrefused (s : Store) : s.view.check typed now = .error (.name cause) := by
        simp only [RuleView.check, hname]
      rw [hrefused, hrefused]
      exact ⟨rfl, fun decision h => by cases h⟩
  | none =>
      rw [check_of_queryFault? hname, check_of_queryFault? hname]
      refine ⟨congrArg Except.ok (halike.outline_eq hs.sound ht.sound hname), ?_⟩
      intro decision h
      cases h
      intro a ha b hb
      exact hs.sound.isDecidedEarly hname a (Precedence.mem_sort.mp ha) b
        (Precedence.mem_sort.mp hb)

/-- The rule as if it had come from elsewhere: one that blocks as the user's, with the greatest
priority, and any other one as a managed rule with the least. -/
def restyle (r : Rule) : Rule :=
  { r with
    priority := if r.action = .block then Priority.greatest else Priority.least
    source := if r.action = .block then .user else .managed
    comment := some "imported"
    updatedAt := some ⟨1, 0⟩
    autoGenerated := true }

def restyled : Store := ⟨sample.rules.map restyle, none⟩

/-- Blocking rules that are now the user's and have the greatest priority change no answer. -/
theorem check_eq_of_alike_sample : sample.Reachable ∧ restyled.Reachable ∧ sample.Alike restyled ∧
    Name.queryFault? (Name.normalize "mail.ads.com") = none ∧
    (sample.view.check "mail.ads.com" ⟨100, 0⟩).map Decision.outline =
      (restyled.view.check "mail.ads.com" ⟨100, 0⟩).map Decision.outline := by
  have hrestyled : restyled.Reachable :=
    .write (.add restyled.rules) (.empty none) (by decide +kernel)
  have halike : sample.Alike restyled := by
    intro domain
    simp only [ruleFor, restyled, List.find?_map, Option.map_map]
    rfl
  refine ⟨reachable_sample, hrestyled, halike, by decide +kernel, ?_⟩
  exact (check_eq_of_alike sample restyled reachable_sample hrestyled halike "mail.ads.com"
    ⟨100, 0⟩).1

end Store

end DnsFilter
