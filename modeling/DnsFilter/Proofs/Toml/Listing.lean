import DnsFilter.Proofs.Toml.Grouping

/-! The order in which a tree is written. Its tables come by the positions of their headers, and
tables of one position as they stand in the tree, so that the tables under one name come in an order of
their own, whatever else is written. -/

namespace DnsFilter.Toml

namespace Listed

variable {t : Listed} {ts : List Listed} {us : List (Nat × Listed)}

/-! ### Sorting -/

/-- Tables with their positions, sorted by these. -/
def order (us : List (Nat × Listed)) : List (Nat × Listed) := us.foldr insert []

theorem sort_eq (ts : List Listed) : sort ts = (order (positioned 0 ts)).map (·.2) := rfl

theorem map_snd_positioned (last : Nat) (ts : List Listed) : (positioned last ts).map (·.2) = ts := by
  induction ts generalizing last with
  | nil => rfl
  | cons t ts ih => rw [positioned, List.map_cons, ih]

theorem perm_insert (t : Nat × Listed) (us : List (Nat × Listed)) :
    (insert t us).Perm (t :: us) := by
  induction us with
  | nil => exact .refl _
  | cons u us ih =>
      rw [insert]
      split
      · exact .refl _
      · exact (ih.cons u).trans (.swap t u us)

theorem perm_order (us : List (Nat × Listed)) : (order us).Perm us := by
  induction us with
  | nil => exact .refl _
  | cons u us ih => exact (perm_insert u _).trans (ih.cons u)

theorem perm_sort (ts : List Listed) : (sort ts).Perm ts := by
  have hmap := (perm_order (positioned 0 ts)).map (·.2)
  rwa [map_snd_positioned] at hmap

theorem sorted_insert {u : Nat × Listed} (h : us.Pairwise (·.1 ≤ ·.1)) :
    (insert u us).Pairwise (·.1 ≤ ·.1) := by
  induction us with
  | nil => simp [insert]
  | cons v us ih =>
      rw [List.pairwise_cons] at h
      rw [insert]
      split
      next hle =>
        refine List.pairwise_cons.2 ⟨fun w hw => ?_, List.pairwise_cons.2 h⟩
        rcases List.mem_cons.1 hw with rfl | hw
        · exact hle
        · exact hle.trans (h.1 w hw)
      next hle =>
        refine List.pairwise_cons.2 ⟨fun w hw => ?_, ih h.2⟩
        rcases List.mem_cons.1 ((perm_insert u us).subset hw) with rfl | hw
        · exact Nat.le_of_not_le hle
        · exact h.1 w hw

theorem sorted_order (us : List (Nat × Listed)) : (order us).Pairwise (·.1 ≤ ·.1) := by
  induction us with
  | nil => exact .nil
  | cons u us ih => exact sorted_insert ih

theorem filter_insert (q : Nat × Listed → Bool) (u : Nat × Listed)
    (h : us.Pairwise (·.1 ≤ ·.1)) :
    (insert u us).filter q = if q u then insert u (us.filter q) else us.filter q := by
  induction us with
  | nil => cases hu : q u <;> simp [insert, hu]
  | cons v us ih =>
      rw [List.pairwise_cons] at h
      by_cases hle : u.1 ≤ v.1
      · -- all that is left of the list behind `u` has no lesser position
        have hall : ∀ w ∈ (v :: us).filter q, u.1 ≤ w.1 := by
          intro w hw
          rcases List.mem_cons.1 (List.mem_filter.1 hw).1 with rfl | hw
          · exact hle
          · exact hle.trans (h.1 w hw)
        rw [insert, if_pos hle, List.filter_cons]
        split
        · cases hrest : (v :: us).filter q with
          | nil => rfl
          | cons w rest =>
              rw [insert, if_pos (hall w (hrest ▸ List.mem_cons_self))]
        · rfl
      · rw [insert, if_neg hle, List.filter_cons, ih h.2, List.filter_cons]
        cases hv : q v <;> cases hu : q u <;> simp [insert, hle]

/-- Some of the tables come in the order they have by themselves. -/
theorem filter_order (q : Nat × Listed → Bool) (us : List (Nat × Listed)) :
    (order us).filter q = order (us.filter q) := by
  induction us with
  | nil => rfl
  | cons u us ih =>
      rw [order, List.foldr_cons, ← order, filter_insert q u (sorted_order us), ih,
        List.filter_cons]
      split <;> rfl

/-! ### Positions -/

/-- The position of a table of a form, after one at the position `last`. -/
def positionAfter (last : Nat) : TableForm → Nat
  | .stated position _ _ => position
  | _ => last

theorem positioned_cons (last : Nat) (t : Listed) (ts : List Listed) :
    positioned last (t :: ts) =
      (positionAfter last t.form, t) :: positioned (positionAfter last t.form) ts := by
  rw [positioned]
  cases t.form <;> rfl

theorem positioned_append (last : Nat) (ts us : List Listed) :
    positioned last (ts ++ us) = positioned last ts ++
      positioned (ts.foldl (fun last t => positionAfter last t.form) last) us := by
  induction ts generalizing last with
  | nil => rfl
  | cons t ts ih =>
      rw [List.cons_append, positioned_cons, ih, positioned_cons, List.cons_append, List.foldl_cons]

/-! ### Sections -/

/-- The sections are those of the tables that are written. -/
theorem of_mem_toSections {first : Bool} {s : Section} (h : s ∈ toSections first ts) :
    ∃ t ∈ ts, t.isSilent = false ∧ ∃ first, s = t.toSection first := by
  induction ts generalizing first with
  | nil => cases h
  | cons t ts ih =>
      rw [toSections] at h
      split at h
      · obtain ⟨u, hu, hsection⟩ := ih h
        exact ⟨u, List.mem_cons_of_mem _ hu, hsection⟩
      next hshown =>
        rcases List.mem_cons.1 h with rfl | h
        · exact ⟨t, List.mem_cons_self, by simpa using hshown, first, rfl⟩
        · obtain ⟨u, hu, hsection⟩ := ih h
          exact ⟨u, List.mem_cons_of_mem _ hu, hsection⟩

/-- What the header of a table states, with its entries. -/
def statement (t : Listed) : Statement :=
  ⟨(t.path.map (·.name)).dropLast, (t.path.map (·.name)).getLast?.getD [],
    .table t.isElement (t.entries.map Entry.bare)⟩

theorem names_toSection (first : Bool) (t : Listed) :
    Key.names (t.toSection first).header.key = t.path.map (·.name) := by
  have hparts := fun last => names_parts last true t.path
  simp only [toSection, Label.toKey]
  rw [← hparts]
  cases Label.parts _ true t.path <;> rfl

theorem statement_toSection (first : Bool) (t : Listed) :
    (t.toSection first).statement = t.statement := by
  rw [Section.statement, names_toSection]
  rfl

/-- What is stated by those tables that are written. -/
def stated (ts : List Listed) : List Statement := (ts.filter fun t => !t.isSilent).map statement

theorem statements_toSections (first : Bool) (ts : List Listed) :
    (toSections first ts).map Section.statement = stated ts := by
  induction ts generalizing first with
  | nil => rfl
  | cons t ts ih =>
      rw [toSections, stated, List.filter_cons]
      cases hsilent : t.isSilent with
      | true => simpa [stated] using ih first
      | false => simpa [stated, statement_toSection] using ih false

end Listed

/-! ### Paths -/

mutual

/-- The tables of a node are written with the path to it. -/
theorem Node.path_of_mem_listed (path : List Label) :
    ∀ n : Node, ∀ t ∈ n.listed path, ∃ more, t.path = path ++ more
  | .value _, _, h => by cases h
  | .table .dotted items, t, h => by
      rw [Node.listed] at h
      obtain ⟨p, -, -, more, hpath⟩ := path_of_mem_listedIn path items t h
      exact ⟨_, hpath⟩
  | .table .implied items, t, h | .table .added items, t, h
  | .table (.stated _ _ _) items, t, h => by
      rcases List.mem_cons.1 (by simpa [Node.listed] using h) with rfl | h
      · exact ⟨[], by simp⟩
      · obtain ⟨p, -, -, more, hpath⟩ := path_of_mem_listedIn path items t h
        exact ⟨_, hpath⟩
  | .tables elements, t, h => by
      rw [Node.listed] at h
      exact path_of_mem_listedOf path elements t h

/-- The tables in a table are written with the name of a node in it that is no value. -/
theorem path_of_mem_listedIn (path : List Label) :
    ∀ items : List (Label × Node), ∀ t ∈ listedIn path items,
      ∃ p ∈ items, (∀ w, p.2 ≠ .value w) ∧ ∃ more, t.path = path ++ p.1 :: more
  | [], _, h => by cases h
  | (l, n) :: rest, t, h => by
      rw [listedIn] at h
      rcases List.mem_append.1 h with h | h
      · refine ⟨(l, n), List.mem_cons_self, ?_, ?_⟩
        · rintro w rfl
          cases h
        · obtain ⟨more, hpath⟩ := Node.path_of_mem_listed (path ++ [l]) n t h
          exact ⟨more, by simpa using hpath⟩
      · obtain ⟨p, hp, hmore⟩ := path_of_mem_listedIn path rest t h
        exact ⟨p, List.mem_cons_of_mem _ hp, hmore⟩

theorem path_of_mem_listedOf (path : List Label) :
    ∀ elements : List (TableForm × List (Label × Node)), ∀ t ∈ listedOf path elements,
      ∃ more, t.path = path ++ more
  | [], _, h => by cases h
  | (form, items) :: rest, t, h => by
      rw [listedOf] at h
      rcases List.mem_append.1 h with h | h
      · rcases List.mem_cons.1 h with rfl | h
        · exact ⟨[], by simp⟩
        · obtain ⟨p, -, -, more, hpath⟩ := path_of_mem_listedIn path items t h
          exact ⟨_, hpath⟩
      · exact path_of_mem_listedOf path rest t h

end

theorem Listed.first_statement {t : Listed} {l : Label} {more : List Label}
    (h : t.path = l :: more) : t.statement.first = l.name := by
  cases more <;> simp [Listed.statement, h, Statement.first]

theorem Node.first_of_mem_entries {l : Label} {n : Node} {s : Statement}
    (h : s ∈ (n.entries [l]).map Entry.statement) : s.first = l.name := by
  match n with
  | .value w =>
      obtain rfl : (entryOf [l] w).statement = s := by simpa [Node.entries, eq_comm] using h
      rw [statement_entryOf]
      rfl
  | .table .dotted items =>
      rw [Node.entries, statementsIn_under] at h
      obtain ⟨s', -, rfl⟩ := List.mem_map.1 h
      rfl
  | .table .implied _ | .table .added _ | .table (.stated _ _ _) _ | .tables _ => cases h

/-! ### All that a tree says -/

namespace Branch

theorem keyed_toDocument (trailing : Text) (b : Branch) : (b.toDocument trailing).Keyed := by
  refine ⟨fun e he => key_ne_nil he, fun s hs hnil => ?_⟩
  obtain ⟨t, ht, -, first, rfl⟩ := Listed.of_mem_toSections hs
  obtain ⟨p, -, -, more, hpath⟩ :=
    path_of_mem_listedIn [] b t ((Listed.perm_sort _).subset ht)
  have hnames := Listed.names_toSection first t
  rw [hnil, hpath] at hnames
  cases hnames

theorem statements_toDocument (trailing : Text) (b : Branch) :
    (b.toDocument trailing).statements =
      b.entries.map Entry.statement ++ Listed.stated (Listed.sort (listedIn [] b)) := by
  rw [Document.statements, toDocument, Listed.statements_toSections]

/-- Of the tables of a tree, what those under one name state. -/
theorem filter_stated (q : Statement → Bool) (ts : List Listed) :
    (Listed.stated (Listed.sort ts)).filter q = Listed.stated
      ((Listed.order ((Listed.positioned 0 ts).filter fun u => q u.2.statement)).map (·.2)) := by
  rw [← Listed.filter_order, Listed.stated, Listed.stated, Listed.sort_eq]
  simp only [List.filter_map, List.filter_filter, Function.comp_def]
  simp only [Bool.and_comm]

end Branch

end DnsFilter.Toml
