import DnsFilter.Proofs.Coverage.Roots

/-! Explicit allows, asked for in two ways. A single question searches the rules for an allow of the
name or of a name below it; a pass, which has many questions, gathers first what all the allows speak
for. The search wants a label in front of the dot, the gathering does not look at what is there: on rules
that a store accepts this makes no difference, since no label of theirs is empty, and so the two give
the same answer about every text, name or not. -/

namespace DnsFilter

theorem Rule.queryFault?_of_exact {r : Rule} (h : r.fault? = none) (hkind : r.kind = .exact) :
    Name.queryFault? r.domain = none := by
  obtain ⟨hpattern, hstar, -⟩ := Rule.fault?_eq_none_iff.mp h
  have hnone : ¬ (Name.afterStar? r.domain.toList).isSome = true := by
    rw [← hstar, hkind]
    simp
  rw [Name.queryFault?, if_neg hnone]
  exact hpattern

namespace Name

theorem isSameOrBelow_iff {domain name : String} (h : queryFault? domain = none) :
    isSameOrBelow domain name = true ↔
      domain = name ∨ isAbove name.toList domain.toList = true := by
  rw [isSameOrBelow, Bool.or_eq_true, beq_iff_eq, isBelow_iff_mem_parents h,
    mem_parents_iff_isAbove]

theorem isAbove_iff_exists_head {domain name : String} :
    isAbove name.toList domain.toList = true ↔ ∃ head, domain = head ++ "." ++ name := by
  rw [← mem_parents_iff_isAbove, mem_parents_iff]
  constructor
  · rintro ⟨head, hdomain⟩
    refine ⟨String.ofList head, String.toList_injective ?_⟩
    simp [hdomain]
  · rintro ⟨head, rfl⟩
    exact ⟨head.toList, by simp⟩

end Name

namespace Store

variable {order : Listing} {s : Store} {now : Instant} {name : String}

theorem allowedWithin_iff : s.AllowedWithin name now ↔
    ∃ a ∈ s.rules, a.action = .allow ∧ a.kind = .exact ∧ a.isExpired now = false ∧
      (a.domain = name ∨ ∃ head, a.domain = head ++ "." ++ name) := by
  simp only [AllowedWithin, Name.isAbove_iff_exists_head]

/-- The test that the search makes of each rule. -/
theorem isAllowFor_iff {a : Rule} (h : a.fault? = none) :
    (a.isLiveAllow now && Name.isSameOrBelow a.domain name) = true ↔
      a.action = .allow ∧ a.kind = .exact ∧ a.isExpired now = false ∧
        (a.domain = name ∨ Name.isAbove name.toList a.domain.toList = true) := by
  rw [Bool.and_eq_true, Coverage.isLiveAllow_iff, and_assoc, and_assoc]
  refine and_congr_right fun _ => and_congr_right fun hkind => and_congr_right fun _ => ?_
  exact Name.isSameOrBelow_iff (Rule.queryFault?_of_exact h hkind)

/-- The search finds a live allow for the name or for a name below it, if there is one. -/
theorem Sound.hasExplicitAllow_iff (hs : s.Sound) :
    (order.keeper.view s).hasExplicitAllow name now = true ↔ s.AllowedWithin name now := by
  have hsearch : ((order.list s.rules).any fun a =>
      a.isLiveAllow now && Name.isSameOrBelow a.domain name) = true ↔ s.AllowedWithin name now := by
    rw [List.any_eq_true]
    refine exists_congr fun a => ?_
    rw [(order.perm s.rules).mem_iff]
    exact and_congr_right fun ha => isAllowFor_iff (hs.accepted a ha)
  -- the rule for the name itself, which is looked up first, is one of those searched
  have hlookup : ((s.ruleFor name).any fun a => a.isLiveAllow now) = true →
      s.AllowedWithin name now := by
    rw [Option.any_eq_true]
    rintro ⟨a, hrule, hallow⟩
    obtain ⟨ha, hdomain⟩ := hs.ruleFor_eq_some_iff.mp hrule
    obtain ⟨haction, hkind, hlive⟩ := Coverage.isLiveAllow_iff.mp hallow
    exact ⟨a, ha, haction, hkind, hlive, .inl hdomain⟩
  show (((s.ruleFor name).any fun a => a.isLiveAllow now) ||
    (order.list s.rules).any fun a =>
      a.isLiveAllow now && Name.isSameOrBelow a.domain name) = true ↔ s.AllowedWithin name now
  rw [Bool.or_eq_true, hsearch]
  exact or_iff_right_of_imp hlookup

/-- In every store that can be reached, and about every text, searching for an explicit allow gives the
same answer as looking the text up among the names that the allows speak for, in whatever order the
rules are listed for either: whether some live exact rule allows a domain that is the text, or ends in a
dot and the text. -/
theorem hasExplicitAllow_eq_contains (order snapshot : Listing) (s : Store) (hs : s.Reachable)
    (now : Instant) (name : String) :
    (order.keeper.view s).hasExplicitAllow name now =
        (allowedNames (snapshot.list s.rules) now).contains name ∧
      ((order.keeper.view s).hasExplicitAllow name now = true ↔
        ∃ a ∈ s.rules, a.action = .allow ∧ a.kind = .exact ∧ a.isExpired now = false ∧
          (a.domain = name ∨ ∃ head, a.domain = head ++ "." ++ name)) := by
  have hsearch : (order.keeper.view s).hasExplicitAllow name now = true ↔
      s.AllowedWithin name now := hs.sound.hasExplicitAllow_iff
  constructor
  · rw [Bool.eq_iff_iff, hsearch, List.contains_iff_mem, Coverage.mem_allowedNames_listed_iff]
  · rw [hsearch, allowedWithin_iff]

/-- An allow that is live speaks for the name above its own and one that has run out for none; nothing
is said for what only looks like the end of a name. -/
theorem hasExplicitAllow_eq_contains_sample : uncovered.Reachable ∧
    (Listing.asStored.keeper.view uncovered).hasExplicitAllow "shop.com" ⟨200, 0⟩ = true ∧
    (Listing.asStored.keeper.view uncovered).hasExplicitAllow "old.com" ⟨200, 0⟩ = false ∧
    (Listing.asStored.keeper.view uncovered).hasExplicitAllow ".com" ⟨200, 0⟩ = false := by
  have hlookup (name : String) :
      (Listing.asStored.keeper.view uncovered).hasExplicitAllow name ⟨200, 0⟩ =
        (allowedNames (Listing.reversed.list uncovered.rules) ⟨200, 0⟩).contains name :=
    (hasExplicitAllow_eq_contains .asStored .reversed uncovered reachable_uncovered ⟨200, 0⟩ name).1
  refine ⟨reachable_uncovered, ?_, ?_, ?_⟩
  · rw [hlookup]
    decide +kernel
  · rw [hlookup]
    decide +kernel
  · rw [hlookup]
    decide +kernel

end Store

end DnsFilter
