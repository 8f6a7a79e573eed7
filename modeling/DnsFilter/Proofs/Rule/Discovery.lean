import DnsFilter.Proofs.Rule.Accepted
import DnsFilter.Proofs.Store.Reachable

/-! The rules found about a name. The search asks for a handful of domains, one for the name and one
for each name above it; the main statement is that in every store that can be reached this yields
exactly the stored rules that are about the name, each once, the one spelled as the name first and
then the wildcards by falling number of labels. -/

namespace DnsFilter

/-- How many labels a wildcard has behind its `*`. -/
def Rule.suffixLabels (r : Rule) : Nat :=
  match r.below? with
  | some parent => (Name.labels parent).length
  | none => 0

/-- The domains of the rules that may be about a name, in the order they are asked for. -/
def Name.probes (name : String) : List String :=
  name :: (Name.parents name.toList).map Name.wildcardOver

namespace RuleView

/-- Asking for the same wildcard once more finds nothing new. -/
theorem probe_probe (view : RuleView) (found : List Rule) (parent : List Char) :
    view.probe (view.probe found parent) parent = view.probe found parent := by
  by_cases hparent : parent.isEmpty = true
  · simp only [probe, if_pos hparent]
  · cases hrule : view.ruleFor (Name.wildcardOver parent) with
    | none => simp only [probe, if_neg hparent, hrule]
    | some r =>
        by_cases hfound : (found.any fun m => m.domain == r.domain) = true
        · simp only [probe, if_neg hparent, hrule, if_pos hfound]
        · have hadded : ((found ++ [r]).any fun m => m.domain == r.domain) = true := by simp
          simp only [probe, if_neg hparent, hrule, if_neg hfound, if_pos hadded]

theorem findMatches_eq_foldl (view : RuleView) (name : String) :
    view.findMatches name =
      (Name.parents name.toList).foldl view.probe (view.ruleFor name).toList := by
  cases htop : (Name.parents name.toList).getLast? with
  | none => simp only [findMatches, htop]
  | some top =>
      -- the wildcard over the topmost name was the last one asked for
      obtain ⟨front, hsplit⟩ := List.getLast?_eq_some_iff.mp htop
      have hlast : (Name.parents name.toList).foldl view.probe (view.ruleFor name).toList =
          view.probe (front.foldl view.probe (view.ruleFor name).toList) top := by
        rw [hsplit, List.foldl_append, List.foldl_cons, List.foldl_nil]
      simp only [findMatches, htop]
      rw [hlast, probe_probe]

/-- A probe for a domain that no rule found so far has adds the rule kept for it. -/
theorem probe_of_fresh {view : RuleView}
    (hkeys : ∀ domain r, view.ruleFor domain = some r → r.domain = domain) {found : List Rule}
    {parent : List Char} (hparent : parent ≠ [])
    (hfresh : ∀ m ∈ found, m.domain ≠ Name.wildcardOver parent) :
    view.probe found parent = found ++ (view.ruleFor (Name.wildcardOver parent)).toList := by
  have hne : ¬ parent.isEmpty = true := by simpa using hparent
  unfold probe
  rw [if_neg hne]
  cases hrule : view.ruleFor (Name.wildcardOver parent) with
  | none => simp
  | some r =>
      have hany : ¬ (found.any fun m => m.domain == r.domain) = true := by
        rw [List.any_eq_true]
        rintro ⟨m, hm, hdomain⟩
        rw [hkeys _ r hrule, beq_iff_eq] at hdomain
        exact hfresh m hm hdomain
      simp only [if_neg hany, Option.toList_some]

theorem foldl_probe {view : RuleView}
    (hkeys : ∀ domain r, view.ruleFor domain = some r → r.domain = domain)
    {parents : List (List Char)} (hparents : ∀ p ∈ parents, p ≠ []) (hnodup : parents.Nodup)
    {found : List Rule} (hfresh : ∀ m ∈ found, ∀ p ∈ parents, m.domain ≠ Name.wildcardOver p) :
    parents.foldl view.probe found =
      found ++ (parents.map Name.wildcardOver).filterMap view.ruleFor := by
  induction parents generalizing found with
  | nil => simp
  | cons p rest ih =>
      rw [List.nodup_cons] at hnodup
      rw [List.forall_mem_cons] at hparents
      have hprobe := probe_of_fresh hkeys hparents.1
        (fun m hm => hfresh m hm p List.mem_cons_self)
      rw [List.foldl_cons, hprobe, ih hparents.2 hnodup.2]
      · rw [List.append_assoc, List.map_cons]
        cases hrule : view.ruleFor (Name.wildcardOver p) <;> simp [hrule]
      · intro m hm q hq
        rw [List.mem_append, Option.mem_toList] at hm
        rcases hm with hold | hnew
        · exact hfresh m hold q (List.mem_cons_of_mem p hq)
        · rw [hkeys _ m hnew]
          intro h
          exact hnodup.1 (Name.wildcardOver_injective h ▸ hq)

end RuleView

namespace Name

theorem nodup_parents (s : List Char) : (parents s).Nodup :=
  (parents_pairwise s).imp fun h heq => by
    rw [heq] at h
    exact Nat.lt_irrefl _ h

theorem ne_wildcardOver_of_queryFault? {name : String} (h : queryFault? name = none)
    (parent : List Char) : name ≠ wildcardOver parent := by
  rintro rfl
  have hstar := (queryFault?_eq_none_iff.mp h).1
  rw [afterStar?_wildcardOver] at hstar
  cases hstar

theorem nodup_probes {name : String} (h : queryFault? name = none) : (probes name).Nodup := by
  refine List.nodup_cons.mpr ⟨?_, (nodup_parents _).map fun _ _ => wildcardOver_injective⟩
  intro hmem
  obtain ⟨parent, -, hname⟩ := List.mem_map.mp hmem
  exact ne_wildcardOver_of_queryFault? h parent hname.symm

end Name

namespace Store

/-- The search is a look-up of each domain in turn. -/
theorem findMatches_eq_filterMap (s : Store) {name : String}
    (hname : Name.queryFault? name = none) :
    s.view.findMatches name = (Name.probes name).filterMap s.ruleFor := by
  have hkeys : ∀ domain r, s.view.ruleFor domain = some r → r.domain = domain :=
    fun _ _ => domain_of_ruleFor
  rw [RuleView.findMatches_eq_foldl, RuleView.foldl_probe hkeys
    (fun p hp => Name.ne_nil_of_mem_parents hname hp) (Name.nodup_parents _)]
  · cases hrule : s.ruleFor name <;> simp [Name.probes, view, hrule]
  · intro m hm p _
    rw [Option.mem_toList] at hm
    rw [hkeys name m hm]
    exact Name.ne_wildcardOver_of_queryFault? hname p

/-- The domains asked for are those of the accepted rules that are about the name. -/
theorem isAbout_iff_mem_probes {r : Rule} (hr : r.fault? = none) {name : String}
    (hname : Name.queryFault? name = none) :
    r.isAbout name = true ↔ r.domain ∈ Name.probes name := by
  rw [Rule.isAbout_iff hr, Name.probes, List.mem_cons, List.mem_map]
  constructor
  · rintro (⟨-, hdomain⟩ | ⟨parent, hdomain, hbelow⟩)
    · exact .inl hdomain
    · exact .inr ⟨parent, (Name.isBelow_iff_mem_parents hname).mp hbelow, hdomain.symm⟩
  · rintro (hdomain | ⟨parent, hparent, hdomain⟩)
    · exact .inl ⟨hdomain ▸ (Name.queryFault?_eq_none_iff.mp hname).1, hdomain⟩
    · exact .inr ⟨parent, hdomain.symm, (Name.isBelow_iff_mem_parents hname).mpr hparent⟩

theorem Sound.mem_findMatches_iff {s : Store} (hs : s.Sound) {name : String}
    (hname : Name.queryFault? name = none) {r : Rule} :
    r ∈ s.view.findMatches name ↔ r ∈ s.rules ∧ r.isAbout name = true := by
  rw [findMatches_eq_filterMap s hname, List.mem_filterMap]
  simp only [hs.ruleFor_eq_some_iff]
  constructor
  · rintro ⟨domain, hdomain, hr, rfl⟩
    exact ⟨hr, (isAbout_iff_mem_probes (hs.accepted r hr) hname).mpr hdomain⟩
  · rintro ⟨hr, habout⟩
    exact ⟨r.domain, (isAbout_iff_mem_probes (hs.accepted r hr) hname).mp habout, hr, rfl⟩

/-- Rules that are looked up domain by domain come with these domains. -/
theorem map_domain_filterMap_sublist (s : Store) (domains : List String) :
    ((domains.filterMap s.ruleFor).map (·.domain)).Sublist domains := by
  induction domains with
  | nil => exact List.Sublist.refl []
  | cons domain rest ih =>
      cases hrule : s.ruleFor domain with
      | none =>
          rw [List.filterMap_cons_none hrule]
          exact ih.cons domain
      | some r =>
          rw [List.filterMap_cons_some hrule, List.map_cons, domain_of_ruleFor hrule]
          exact ih.cons_cons domain

theorem Sound.ruleFor_toList {s : Store} (hs : s.Sound) (domain : String) :
    (s.ruleFor domain).toList = s.rules.filter fun r => r.domain == domain := by
  have hnodup : s.rules.Nodup := List.Nodup.of_map _ hs.distinct
  cases hrule : s.ruleFor domain with
  | none =>
      refine (List.filter_eq_nil_iff.mpr fun r hr hdomain => ?_).symm
      have := hs.ruleFor_eq_some_iff.mpr ⟨hr, beq_iff_eq.mp hdomain⟩
      rw [hrule] at this
      cases this
  | some r =>
      obtain ⟨hr, hdomain⟩ := hs.ruleFor_eq_some_iff.mp hrule
      have hsingle : ∀ q ∈ s.rules, (q.domain == domain) = (q == r) := by
        intro q hq
        rw [Bool.eq_iff_iff, beq_iff_eq, beq_iff_eq]
        exact ⟨fun h => hs.eq_of_domain_eq hq hr (h.trans hdomain.symm), fun h => h ▸ hdomain⟩
      rw [List.filter_congr hsingle, List.filter_beq, hnodup.count, if_pos hr]
      rfl

/-- The wildcards found have fewer and fewer labels. -/
theorem Sound.wildcards_pairwise {s : Store} (hs : s.Sound) {parents : List (List Char)}
    (h : parents.Pairwise fun p q => (Name.labels q).length < (Name.labels p).length) :
    ((parents.map Name.wildcardOver).filterMap s.ruleFor).Pairwise
      fun a b => b.suffixLabels < a.suffixLabels := by
  have hlabels : ∀ p r, s.ruleFor (Name.wildcardOver p) = some r →
      r.suffixLabels = (Name.labels p).length := by
    intro p r hrule
    obtain ⟨hr, hdomain⟩ := hs.ruleFor_eq_some_iff.mp hrule
    rw [Rule.suffixLabels, Rule.below?_eq (hs.accepted r hr), hdomain,
      Name.afterStar?_wildcardOver]
  rw [List.filterMap_map, List.pairwise_filterMap]
  refine h.imp ?_
  intro p q hlt a ha b hb
  rw [hlabels p a ha, hlabels q b hb]
  exact hlt

/-- In every store that can be reached, the rules found about a name that may be asked for are the
stored rules that are about it. No domain occurs twice among them; the rule with the name as its
domain comes first, if there is one, and the others are wildcards with fewer and fewer labels. -/
theorem findMatches_eq_stored (s : Store) (hs : s.Reachable) (name : String)
    (hname : Name.queryFault? name = none) :
    (∀ r, r ∈ s.view.findMatches name ↔ r ∈ s.rules ∧ r.isAbout name = true) ∧
      ((s.view.findMatches name).map (·.domain)).Nodup ∧
      ∃ wildcards, s.view.findMatches name =
          (s.rules.filter fun r => r.domain == name) ++ wildcards ∧
        (∀ r ∈ wildcards, r.isWildcard = true) ∧
        wildcards.Pairwise fun a b => b.suffixLabels < a.suffixLabels := by
  have hsound := hs.sound
  refine ⟨fun r => hsound.mem_findMatches_iff hname, ?_, ?_⟩
  · rw [findMatches_eq_filterMap s hname]
    exact (map_domain_filterMap_sublist s _).nodup (Name.nodup_probes hname)
  · refine ⟨((Name.parents name.toList).map Name.wildcardOver).filterMap s.ruleFor, ?_, ?_,
      hsound.wildcards_pairwise (Name.parents_pairwise _)⟩
    · rw [findMatches_eq_filterMap s hname, Name.probes, ← hsound.ruleFor_toList]
      cases hrule : s.ruleFor name <;> simp [hrule]
    · intro r hr
      obtain ⟨domain, hdomain, hrule⟩ := List.mem_filterMap.mp hr
      obtain ⟨parent, -, rfl⟩ := List.mem_map.mp hdomain
      obtain ⟨hmem, hdomain⟩ := hsound.ruleFor_eq_some_iff.mp hrule
      exact (Rule.isWildcard_iff (hsound.accepted r hmem)).mpr ⟨parent, hdomain⟩

theorem findMatches_sample : sample.Reachable ∧ Name.queryFault? "mail.ads.com" = none ∧
    (∀ r, r ∈ sample.view.findMatches "mail.ads.com" ↔
      r ∈ sample.rules ∧ r.isAbout "mail.ads.com" = true) ∧
    ((sample.view.findMatches "mail.ads.com").map (·.domain)).Nodup := by
  have hname : Name.queryFault? "mail.ads.com" = none := by decide +kernel
  have hfound := findMatches_eq_stored sample reachable_sample "mail.ads.com" hname
  exact ⟨reachable_sample, hname, hfound.1, hfound.2.1⟩

end Store

end DnsFilter
