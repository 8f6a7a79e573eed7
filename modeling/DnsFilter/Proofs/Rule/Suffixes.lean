import DnsFilter.Proofs.Name.Grammar
import DnsFilter.Rule.Matching
import Mathlib.Data.List.Infix

/-! Names put together from labels. Whether one name is below another, which names are above it, what a
wildcard is about and how many labels a rule fixes: all of this is asked of the characters, by looking for
an ending and for dots, and all of it is told by the labels. Main statement: the lists of labels answer
each of these questions, by whether one of them is an ending of the other and by their lengths. -/

namespace DnsFilter

namespace Name

/-- Labels that a name is made of, of any length. -/
structure MakeName (ls : List (List Char)) : Prop where
  ne_nil : ls ≠ []
  nil_notMem : [] ∉ ls
  chars : ∀ label ∈ ls, ∀ c ∈ label, LabelChar c

theorem all_isLabelChar_iff {ls : List (List Char)} :
    (!ls.isEmpty && ls.all fun label => !label.isEmpty && label.all isLabelChar) = true ↔
      MakeName ls := by
  simp only [Bool.and_eq_true, Bool.not_eq_true', List.isEmpty_eq_false_iff, List.all_eq_true]
  constructor
  · rintro ⟨hne, hlabels⟩
    exact ⟨hne, fun hnil => (hlabels [] hnil).1 rfl,
      fun label hl c hc => isLabelChar_iff.mp ((hlabels label hl).2 c hc)⟩
  · intro h
    refine ⟨h.ne_nil, fun label hl => ⟨?_, fun c hc => isLabelChar_iff.mpr (h.chars label hl c hc)⟩⟩
    rintro rfl
    exact h.nil_notMem hl

instance (ls : List (List Char)) : Decidable (MakeName ls) := decidable_of_iff _ all_isLabelChar_iff

/-- The name made of these labels. -/
def ofLabels (ls : List (List Char)) : String := String.ofList (['.'].intercalate ls)

theorem MakeName.labels_ofLabels {ls : List (List Char)} (h : MakeName ls) :
    labels (ofLabels ls).toList = ls := by
  rw [ofLabels, String.toList_ofList, labels_eq_splitOn]
  exact List.splitOn_intercalate '.' (fun label hl => dot_notMem_of_chars (h.chars label hl))
    h.ne_nil

theorem MakeName.ofLabels_inj {cs ds : List (List Char)} (hc : MakeName cs) (hd : MakeName ds) :
    ofLabels cs = ofLabels ds ↔ cs = ds := by
  constructor
  · intro hname
    rw [← hc.labels_ofLabels, hname, hd.labels_ofLabels]
  · rintro rfl
    rfl

/-! ### Endings of lists of labels -/

theorem exists_front_iff {β : Type} {cs ds : List β} :
    (∃ front, front ≠ [] ∧ cs = front ++ ds) ↔ ds <:+ cs ∧ ds ≠ cs := by
  constructor
  · rintro ⟨front, hfront, rfl⟩
    refine ⟨List.suffix_append _ _, ?_⟩
    intro hsame
    exact hfront (List.self_eq_append_left.mp hsame)
  · rintro ⟨⟨front, rfl⟩, hproper⟩
    refine ⟨front, ?_, rfl⟩
    rintro rfl
    exact hproper rfl

theorem suffix_iff_eq_or {β : Type} {cs ds : List β} :
    ds <:+ cs ↔ cs = ds ∨ ds <:+ cs ∧ ds ≠ cs := by
  constructor
  · intro h
    by_cases hsame : cs = ds
    · exact .inl hsame
    · exact .inr ⟨h, fun heq => hsame heq.symm⟩
  · rintro (rfl | h)
    · exact List.suffix_refl _
    · exact h.1

/-- Without the first and the last of the endings, the others are those that are proper and not empty. -/
theorem filter_tails {β : Type} [DecidableEq β] (b : β) (l : List β) :
    ((b :: l).tails.filter fun t => decide (t ≠ b :: l ∧ t ≠ [])) = l.tails.dropLast := by
  have hshort : ∀ t ∈ l.tails, decide (t ≠ b :: l ∧ t ≠ []) = decide (t ≠ []) := by
    intro t ht
    have hlength := ((List.mem_tails t l).mp ht).length_le
    apply decide_eq_decide.mpr
    refine and_iff_right_of_imp fun _ hsame => ?_
    rw [hsame, List.length_cons] at hlength
    omega
  have hends : (l.tails.filter fun t => decide (t ≠ [])) = l.tails.dropLast := by
    clear hshort
    induction l with
    | nil => rfl
    | cons a rest ih =>
        have hne : rest.tails ≠ [] := by cases rest <;> simp
        rw [List.tails_cons, List.dropLast_cons_of_ne_nil hne, ← ih]
        rfl
  rw [List.tails_cons, List.filter_cons_of_neg (by simp), List.filter_congr hshort, hends]

/-- What follows the dots of a text, one after the other, is what the endings of its labels make. -/
theorem parents_eq_tails (s : List Char) :
    parents s = (labels s).tails.tail.dropLast.map (['.'].intercalate ·) := by
  induction s with
  | nil => rfl
  | cons c rest ih =>
      obtain ⟨label, more, hlabels⟩ := List.exists_cons_of_ne_nil (labels_ne_nil rest)
      rw [hlabels, List.tails_cons, List.tail_cons] at ih
      rw [parents, labels, hlabels]
      by_cases hdot : c = '.'
      · have hmore : more.tails ≠ [] := by cases more <;> simp
        rw [if_pos hdot, if_pos hdot, ih, List.tails_cons, List.tail_cons, List.tails_cons,
          List.dropLast_cons_of_ne_nil hmore, List.map_cons, ← hlabels, intercalate_labels]
      · rw [if_neg hdot, if_neg hdot, ih, List.tails_cons, List.tail_cons]

/-! ### The questions asked of the characters -/

variable {cs ds : List (List Char)}

theorem MakeName.mem_parents_iff (hc : MakeName cs) (hd : MakeName ds) :
    (ofLabels ds).toList ∈ parents (ofLabels cs).toList ↔ ds <:+ cs ∧ ds ≠ cs := by
  rw [mem_parents_iff_isAbove, isAbove_iff, hc.labels_ofLabels, hd.labels_ofLabels,
    exists_front_iff]

theorem MakeName.isBelow_iff (hc : MakeName cs) (hd : MakeName ds) :
    isBelow (ofLabels cs).toList (ofLabels ds).toList = true ↔ ds <:+ cs ∧ ds ≠ cs := by
  have hnil : [] ∉ labels (ofLabels cs).toList := by
    rw [hc.labels_ofLabels]
    exact hc.nil_notMem
  rw [isBelow_iff_mem_parents_of_notMem hnil, hc.mem_parents_iff hd]

theorem MakeName.isSameOrBelow_iff (hc : MakeName cs) (hd : MakeName ds) :
    isSameOrBelow (ofLabels cs) (ofLabels ds) = true ↔ ds <:+ cs := by
  rw [isSameOrBelow, Bool.or_eq_true, beq_iff_eq, hc.ofLabels_inj hd, hc.isBelow_iff hd,
    ← suffix_iff_eq_or]

theorem MakeName.parents_ofLabels (hc : MakeName cs) :
    (parents (ofLabels cs).toList).map String.ofList =
      (cs.tails.filter fun t => decide (t ≠ cs ∧ t ≠ [])).map ofLabels := by
  obtain ⟨label, more, rfl⟩ := List.exists_cons_of_ne_nil hc.ne_nil
  rw [filter_tails, parents_eq_tails, hc.labels_ofLabels, List.tails_cons, List.tail_cons,
    List.map_map]
  rfl

theorem labels_wildcardOver (s : List Char) : labels (wildcardOver s).toList = ['*'] :: labels s := by
  rw [toList_wildcardOver]
  exact labels_append_dot ['*'] s

end Name

namespace Rule

open Name

variable {r : Rule} {cs ds : List (List Char)}

theorem isAbout_wildcardOver {parent : List Char} (hkind : r.kind = .wildcard)
    (hdomain : r.domain = wildcardOver parent) (name : String) :
    r.isAbout name = isBelow name.toList parent := by
  have hbelow : r.below? = some parent := by
    rw [below?, hkind, hdomain]
    exact afterStar?_wildcardOver parent
  rw [isAbout, hbelow]

theorem specificity_wildcardOver {parent : List Char} (hkind : r.kind = .wildcard)
    (hdomain : r.domain = wildcardOver parent) : r.specificity = (labels parent).length := by
  rw [specificity, hkind, hdomain, labels_wildcardOver]
  rfl

end Rule

/-- Of two names made of labels, the labels tell whether the one is the other or below it, which names
are above, what the wildcard over the one is about and how many labels a rule fixes. -/
theorem Name.labels_tell {cs ds : List (List Char)} (hc : MakeName cs) (hd : MakeName ds) :
    (isSameOrBelow (ofLabels cs) (ofLabels ds) = true ↔ ds <:+ cs) ∧
      (∀ r : Rule, r.kind = .wildcard → r.domain = "*." ++ ofLabels ds →
        (r.isAbout (ofLabels cs) = true ↔ ds <:+ cs ∧ ds ≠ cs)) ∧
      (parents (ofLabels cs).toList).map String.ofList =
        (cs.tails.filter fun t => decide (t ≠ cs ∧ t ≠ [])).map ofLabels ∧
      (∀ r : Rule, r.kind = .exact → r.domain = ofLabels cs → r.specificity = cs.length) ∧
      ∀ r : Rule, r.kind = .wildcard → r.domain = "*." ++ ofLabels cs →
        r.specificity = cs.length := by
  have hstar : ∀ ls, "*." ++ ofLabels ls = wildcardOver (ofLabels ls).toList := by
    intro ls
    rw [wildcardOver, String.ofList_append, String.ofList_toList]
    rfl
  refine ⟨hc.isSameOrBelow_iff hd, ?_, hc.parents_ofLabels, ?_, ?_⟩
  · intro r hkind hdomain
    rw [Rule.isAbout_wildcardOver hkind (hdomain.trans (hstar ds)), hc.isBelow_iff hd]
  · intro r hkind hdomain
    rw [Rule.specificity, hkind, hdomain, hc.labels_ofLabels]
  · intro r hkind hdomain
    rw [Rule.specificity_wildcardOver hkind (hdomain.trans (hstar cs)), hc.labels_ofLabels]

theorem Name.labels_tell_mail :
    MakeName ["mail".toList, "ads".toList, "com".toList] ∧ MakeName ["ads".toList, "com".toList] ∧
      isSameOrBelow "mail.ads.com" "ads.com" = true ∧
      (Rule.draft "*.ads.com" .block).isAbout "mail.ads.com" = true ∧
      (parents "mail.ads.com".toList).map String.ofList = ["ads.com", "com"] ∧
      (Rule.draft "mail.ads.com" .block).specificity = 3 ∧
      (Rule.draft "*.mail.ads.com" .block).specificity = 3 := by
  have hmail : MakeName ["mail".toList, "ads".toList, "com".toList] := by decide
  have hads : MakeName ["ads".toList, "com".toList] := by decide
  have hending : ["ads".toList, "com".toList] <:+ ["mail".toList, "ads".toList, "com".toList] :=
    List.suffix_cons _ _
  obtain ⟨hsame, habout, habove, hexact, hwildcard⟩ := labels_tell hmail hads
  exact ⟨hmail, hads, hsame.mpr hending,
    (habout (.draft "*.ads.com" .block) (by decide) (by decide)).mpr ⟨hending, by decide⟩,
    habove.trans (by decide),
    hexact (.draft "mail.ads.com" .block) (by decide) (by decide),
    hwildcard (.draft "*.mail.ads.com" .block) (by decide) (by decide)⟩

-- an ending of the characters that does not start at a dot
example : Name.isSameOrBelow "badads.com" "ads.com" = false := by decide

end DnsFilter
