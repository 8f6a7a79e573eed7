import DnsFilter.Proofs.Toml.Fields
import DnsFilter.Proofs.Toml.Listing

/-! An edit changes what a document says of the table that is edited, and of nothing else. The document of
the edited tree is compared, name by name, with that of the tree as it was: if the one can be read, so can
the other, and outside the table they say the same. -/

namespace DnsFilter.Toml

/-! ### What stands under a name -/

namespace Branch

variable {items : Branch} {l : Label} {n : Node} {name key : Text} {w : Written}

theorem first_of_mem_statements {s : Statement} (h : s ∈ items.entries.map Entry.statement) :
    s.first ∈ names items := by
  rw [entries, entriesIn_eq_flatMap, List.map_flatMap] at h
  obtain ⟨p, hp, hs⟩ := List.mem_flatMap.1 h
  rw [Node.first_of_mem_entries hs]
  exact List.mem_map.2 ⟨p, hp, rfl⟩

theorem filter_statements_eq_nil (h : name ∉ names items) :
    (items.entries.map Entry.statement).filter (·.first = name) = [] := by
  refine List.filter_eq_nil_iff.2 fun s hs => ?_
  simpa using fun heq : s.first = name => h (heq ▸ first_of_mem_statements hs)

theorem first_of_mem_positioned {last : Nat} {items : Branch} {u : Nat × Listed}
    (h : u ∈ Listed.positioned last (listedIn [] items)) :
    u.2.statement.first ∈ names items := by
  have hmem : u.2 ∈ listedIn [] items := by
    rw [← Listed.map_snd_positioned last (listedIn [] items)]
    exact List.mem_map_of_mem h
  obtain ⟨p, hp, -, more, hpath⟩ := path_of_mem_listedIn [] items u.2 hmem
  rw [Listed.first_statement hpath]
  exact List.mem_map.2 ⟨p, hp, rfl⟩

theorem filter_positioned_eq_nil (h : name ∉ names items) (last : Nat) :
    (Listed.positioned last (listedIn [] items)).filter (fun u => u.2.statement.first = name) =
      [] := by
  refine List.filter_eq_nil_iff.2 fun u hu => ?_
  simpa using fun heq : u.2.statement.first = name => h (heq ▸ first_of_mem_positioned hu)

/-- The position that tables after those of a table come to have, where they have none. -/
def lastPosition (last : Nat) (items : Branch) : Nat :=
  (listedIn [] items).foldl (fun last t => Listed.positionAfter last t.form) last

theorem positioned_listedIn_append (last : Nat) (items others : Branch) :
    Listed.positioned last (listedIn [] (items ++ others)) =
      Listed.positioned last (listedIn [] items) ++
        Listed.positioned (lastPosition last items) (listedIn [] others) := by
  rw [listedIn_eq_flatMap, List.flatMap_append, ← listedIn_eq_flatMap, ← listedIn_eq_flatMap,
    Listed.positioned_append, lastPosition]

theorem lastPosition_append (last : Nat) (items others : Branch) :
    lastPosition last (items ++ others) = lastPosition (lastPosition last items) others := by
  rw [lastPosition, listedIn_eq_flatMap, List.flatMap_append, ← listedIn_eq_flatMap,
    ← listedIn_eq_flatMap, List.foldl_append]
  rfl

theorem entries_append (items others : Branch) :
    entries (items ++ others) = items.entries ++ others.entries := by
  rw [entries, entriesIn_eq_flatMap, List.flatMap_append, ← entriesIn_eq_flatMap,
    ← entriesIn_eq_flatMap, entries, entries]

section Parts

variable {before old new after : Branch}

/-- Parts of trees, one in the place of the other, that have to do with one name only. Other tables come
where they came. -/
structure Replaces (name : Text) (old new : Branch) : Prop where
  namesOld : ∀ other ∈ names old, other = name
  namesNew : ∀ other ∈ names new, other = name
  position : ∀ last, lastPosition last new = lastPosition last old

/-- What is said under other names. -/
theorem Replaces.filter_of_ne (h : Replaces name old new) (before after : Branch) {other : Text}
    (hother : other ≠ name) (trailing : Text) :
    ((before ++ new ++ after).toDocument trailing).statements.filter (·.first = other) =
      ((before ++ old ++ after).toDocument trailing).statements.filter (·.first = other) := by
  have hold : other ∉ names old := fun hmem => hother (h.namesOld other hmem)
  have hnew : other ∉ names new := fun hmem => hother (h.namesNew other hmem)
  simp only [statements_toDocument, List.filter_append, filter_stated, entries_append,
    List.map_append, positioned_listedIn_append, filter_statements_eq_nil hold,
    filter_statements_eq_nil hnew, filter_positioned_eq_nil hold, filter_positioned_eq_nil hnew]
  rw [lastPosition_append, lastPosition_append, h.position]

/-- What is said of a part of a tree, whose tables come after the position `last`. -/
def said (last : Nat) (part : Branch) : List Statement :=
  part.entries.map Entry.statement ++
    Listed.stated ((Listed.order (Listed.positioned last (listedIn [] part))).map (·.2))

/-- What is said under a name is what is said of the part of the tree that has to do with it. -/
theorem filter_statements_part (hbefore : name ∉ names before) (hafter : name ∉ names after)
    {part : Branch} (hpart : ∀ other ∈ names part, other = name) (trailing : Text) :
    ((before ++ part ++ after).toDocument trailing).statements.filter (·.first = name) =
      said (lastPosition 0 before) part := by
  simp only [statements_toDocument, List.filter_append, filter_stated, entries_append,
    List.map_append, positioned_listedIn_append, filter_statements_eq_nil hbefore,
    filter_statements_eq_nil hafter, filter_positioned_eq_nil hbefore,
    filter_positioned_eq_nil hafter]
  have hentries : ∀ s ∈ part.entries.map Entry.statement, s.first = name :=
    fun s hs => hpart _ (first_of_mem_statements hs)
  have htables : ∀ u ∈ Listed.positioned (lastPosition 0 before) (listedIn [] part),
      u.2.statement.first = name := fun u hu => hpart _ (first_of_mem_positioned hu)
  rw [List.filter_eq_self.2 (by simpa using hentries), List.filter_eq_self.2 (by simpa using htables),
    said]
  simp

/-- Where a document can be read, and what is said of the new part makes a node, the document with the new
part can be read too, and what other names stand for is the same. -/
theorem Replaces.sense? (h : Replaces name old new) (hbefore : name ∉ names before)
    (hafter : name ∉ names after) (trailing : Text) {sense : Branch}
    (hsense : sense? ((before ++ old ++ after).toDocument trailing).bare = some sense)
    {R : Option Node → Option Node → Prop}
    (hmakes : ∀ last, (∀ s ∈ said last old, s.Fits) → ∀ n?,
      (said last old).foldlM Statement.act none = some n? →
      (∀ s ∈ said last new, s.Fits) ∧
        ∃ m?, (said last new).foldlM Statement.act none = some m? ∧ R n? m?) :
    ∃ sense', Branch.sense? ((before ++ new ++ after).toDocument trailing).bare = some sense' ∧
      (∀ other, other ≠ name → sense'.at? other = sense.at? other) ∧
      R (sense.at? name) (sense'.at? name) := by
  obtain ⟨hall, hrun⟩ := Statement.run?_of_sense? (keyed_toDocument trailing _) hsense
  have hpart := filter_statements_part hbefore hafter h.namesOld trailing
  have hpart' := filter_statements_part hbefore hafter h.namesNew trailing
  have hothers := fun other (hother : other ≠ name) =>
    h.filter_of_ne before after hother trailing
  have hnamed := Statement.foldlM_act_of_run? hrun name
  rw [hpart] at hnamed
  obtain ⟨hfits, m?, hmade, hR⟩ := hmakes (lastPosition 0 before)
    (fun s hs => hall s (List.mem_filter.1 (hpart ▸ hs)).1) _ hnamed
  rw [← hpart'] at hfits hmade
  have hall' : ∀ s ∈ ((before ++ new ++ after).toDocument trailing).statements, s.Fits := by
    intro s hs
    have hmem : s ∈ ((before ++ new ++ after).toDocument trailing).statements.filter
        (·.first = s.first) := List.mem_filter.2 ⟨hs, by simp⟩
    by_cases hname : s.first = name
    · exact hfits s (hname ▸ hmem)
    · rw [hothers _ hname] at hmem
      exact hall s (List.mem_filter.1 hmem).1
  obtain ⟨sense', hrun'⟩ := Statement.exists_run? []
      ((before ++ new ++ after).toDocument trailing).statements fun other => by
    by_cases hother : other = name
    · exact hother ▸ ⟨_, hmade⟩
    · rw [hothers other hother]
      exact ⟨_, Statement.foldlM_act_of_run? hrun other⟩
  refine ⟨sense', by rw [Statement.sense?_eq (keyed_toDocument trailing _), if_pos hall', hrun'],
    fun other hother => ?_, ?_⟩
  · have hsame := Statement.foldlM_act_of_run? hrun other
    rw [← hothers other hother, Statement.foldlM_act_of_run? hrun' other] at hsame
    exact Option.some.inj hsame
  · have hnew := Statement.foldlM_act_of_run? hrun' name
    obtain rfl := Option.some.inj (hmade.symm.trans hnew)
    exact hR

end Parts

/-! ### What is said under the name of the table -/

/-- What the header of a table at the root states. -/
def header (name : Text) (entries : List Entry) : Statement :=
  ⟨[], name, .table false (entries.map Entry.bare)⟩

section Runs

open Statement

variable {ss ts : List Statement} {inner : Branch}

/-- What a name stands for, when a table has been made for it by headers inside it only. -/
def Opens (n? : Option Node) (items : Branch) : Prop :=
  n? = none ∧ items = [] ∨ n? = some (.table .implied items)

theorem Opens.effect {n? : Option Node} (h : Opens n? items) {s : Statement}
    (hs : s.what.way = .implied) (name : Text) :
    (s.under name).effect n? = (s.put? items).map (.table .implied ·) := by
  rcases h with ⟨rfl, rfl⟩ | rfl
  · rw [effect_under_none, hs]
  · exact effect_under_table (fun hway => by rw [hs] at hway; cases hway) name items

theorem Opens.found? {n? : Option Node} (h : Opens n? items) :
    Assertion.found? n? = some items := by
  rcases h with ⟨rfl, rfl⟩ | rfl <;> rfl

/-- Tables in a table are made under its name as they are in itself. -/
theorem Opens.run {n? : Option Node} (h : Opens n? items) (hss : ∀ s ∈ ss, s.what.way = .implied)
    (name : Text) :
    (∃ m? items', (ss.map (.under name)).foldlM act n? = some m? ∧ run? items ss = some items' ∧
      Opens m? items') ∨
    (ss.map (.under name)).foldlM act n? = none ∧ run? items ss = none := by
  induction ss generalizing n? items with
  | nil => exact .inl ⟨n?, items, rfl, rfl, h⟩
  | cons s ss ih =>
      rw [List.map_cons, List.foldlM_cons, act, h.effect (hss s List.mem_cons_self), run?_cons]
      cases s.put? items with
      | none => exact .inr ⟨rfl, rfl⟩
      | some items' =>
          exact ih (.inr rfl) fun t ht => hss t (List.mem_cons_of_mem _ ht)

end Runs

section Parts

open Statement

section Fields

variable {form : TableForm} {inner : Branch} {last : Nat} {n? : Option Node}
  (hnodup : (names inner).Nodup) (hkey : inner.TakesValue key)

include hnodup hkey

end Fields

/-! ### Edited documents -/

variable {b sense : Branch} {trailing : Text}

end Parts

end Branch

end DnsFilter.Toml
