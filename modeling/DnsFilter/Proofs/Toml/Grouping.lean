import DnsFilter.Proofs.Toml.Statements

/-! Entries are brought together under their tables once and for all: the entries of the tables that
they make, in the order of these, make the same tables again. -/

namespace DnsFilter.Toml

/-! ### The statements of a tree -/

theorem names_parts (last : Text) (isFirst : Bool) (path : List Label) :
    Key.names (Label.parts last isFirst path) = path.map (·.name) := by
  fun_induction Label.parts last isFirst path with
  | case1 => rfl
  | case2 => rfl
  | case3 isFirst l rest _ ih =>
      rw [Key.names] at ih ⊢
      rw [List.map_cons, ih, List.map_cons]

theorem names_entryOf (path : List Label) (w : Written) :
    (entryOf path w).names = path.map (·.name) := names_parts _ _ path

theorem statement_entryOf (path : List Label) (w : Written) :
    (entryOf path w).statement =
      ⟨(path.map (·.name)).dropLast, (path.map (·.name)).getLast?.getD [], .value w.bare⟩ := by
  rw [Entry.statement, names_entryOf]
  rfl

mutual

theorem Node.statements_under (l : Label) {path : List Label} (hpath : path ≠ []) :
    ∀ n : Node, (n.entries (l :: path)).map Entry.statement =
      ((n.entries path).map Entry.statement).map (.under l.name)
  | .value w => by
      obtain ⟨m, rest, rfl⟩ := List.exists_cons_of_ne_nil hpath
      simp [Node.entries, statement_entryOf, Statement.under]
  | .table .dotted items => by
      rw [Node.entries, Node.entries]
      exact statementsIn_under l path items
  | .table .implied _ => rfl
  | .table .added _ => rfl
  | .table (.stated _ _ _) _ => rfl
  | .tables _ => rfl

theorem statementsIn_under (l : Label) (path : List Label) :
    ∀ items : List (Label × Node), (entriesIn (l :: path) items).map Entry.statement =
      ((entriesIn path items).map Entry.statement).map (.under l.name)
  | [] => rfl
  | (k, n) :: rest => by
      rw [entriesIn, entriesIn, List.map_append, List.map_append, List.map_append,
        statementsIn_under l path rest, List.cons_append,
        Node.statements_under l (by simp) n]

end

mutual

theorem Node.statements_bare (path : List Label) :
    ∀ n : Node, (n.bare.entries (path.map Label.bare)).map Entry.statement =
      (n.entries path).map Entry.statement
  | .value w => by
      have hname : (fun l : Label => l.name) ∘ Label.bare = fun l => l.name := rfl
      simp [Node.bare, Node.entries, statement_entryOf, hname, Written.bare]
  | .table .dotted items => by
      rw [Node.bare, show TableForm.bare .dotted = .dotted from rfl, Node.entries, Node.entries]
      exact statementsIn_bare path items
  | .table .implied _ => by rw [Node.bare]; rfl
  | .table .added _ => by rw [Node.bare]; rfl
  | .table (.stated _ _ _) _ => by rw [Node.bare]; rfl
  | .tables _ => by rw [Node.bare]; rfl

theorem statementsIn_bare (path : List Label) :
    ∀ items : List (Label × Node),
      (entriesIn (path.map Label.bare) (bareIn items)).map Entry.statement =
        (entriesIn path items).map Entry.statement
  | [] => by rw [bareIn, entriesIn, entriesIn]
  | (l, n) :: rest => by
      have hn := Node.statements_bare (path ++ [l]) n
      rw [List.map_append, List.map_singleton] at hn
      rw [bareIn, entriesIn, entriesIn, List.map_append, List.map_append, hn,
        statementsIn_bare path rest]

end

mutual

/-- The entries of a node are written with the path to it. -/
theorem Node.path_of_mem_entries (path : List Label) :
    ∀ n : Node, ∀ e ∈ n.entries path, ∃ more w, e = entryOf (path ++ more) w
  | .value w, e, h => by
      rw [Node.entries, List.mem_singleton] at h
      exact ⟨[], w, by simpa using h⟩
  | .table .dotted items, e, h => by
      rw [Node.entries] at h
      obtain ⟨l, more, w, he⟩ := path_of_mem_entriesIn path items e h
      exact ⟨_, w, he⟩
  | .table .implied _, _, h | .table .added _, _, h | .table (.stated _ _ _) _, _, h
  | .tables _, _, h => by cases h

theorem path_of_mem_entriesIn (path : List Label) :
    ∀ items : List (Label × Node), ∀ e ∈ entriesIn path items,
      ∃ l more w, e = entryOf (path ++ l :: more) w
  | [], _, h => by cases h
  | (l, n) :: rest, e, h => by
      rw [entriesIn] at h
      rcases List.mem_append.1 h with h | h
      · obtain ⟨more, w, he⟩ := Node.path_of_mem_entries (path ++ [l]) n e h
        exact ⟨l, more, w, by simpa using he⟩
      · exact path_of_mem_entriesIn path rest e h

end

theorem Branch.key_ne_nil {items : Branch} {e : Entry} (h : e ∈ items.entries) : e.key ≠ [] := by
  obtain ⟨l, more, w, rfl⟩ := path_of_mem_entriesIn [] items e h
  intro hnil
  have hnames := names_entryOf ([] ++ l :: more) w
  rw [Entry.names, hnil] at hnames
  cases hnames

/-! ### Tables made by keys with dots -/

/-- A node as entries alone make it: a value, or a table of such that is not empty, with tables nested
in it at most `depth` deep. -/
inductive Node.Grouped : Nat → Node → Prop
  | value {depth : Nat} {w : Written} : Grouped depth (.value w)
  | table {depth : Nat} {items : List (Label × Node)} (ne_nil : items ≠ [])
      (nodup : (Branch.names items).Nodup) (nodes : ∀ p ∈ items, Grouped depth p.2) :
      Grouped (depth + 1) (.table .dotted items)

structure Branch.Grouped (depth : Nat) (items : Branch) : Prop where
  nodup : (names items).Nodup
  nodes : ∀ p ∈ items, p.2.Grouped depth

namespace Branch

variable {depth : Nat} {items items' : Branch}

theorem grouped_nil : Grouped depth [] := ⟨List.nodup_nil, by simp⟩

theorem set_ne_nil (l : Label) (n : Node) (items : Branch) : set l n items ≠ [] := by
  match items with
  | [] => simp [set_nil]
  | (k, m) :: rest =>
      rw [set_cons]
      split <;> simp

theorem Grouped.set {l : Label} {n : Node} (h : items.Grouped depth) (hn : n.Grouped depth) :
    (set l n items).Grouped depth := by
  refine ⟨nodup_set h.nodup, fun p hp => ?_⟩
  rcases of_mem_set hp with hp | ⟨rfl, -⟩
  · exact h.nodes p hp
  · exact hn

theorem Grouped.inside? {change : TableForm → Branch → Option Branch}
    (hchange : ∀ depth form items items', Grouped depth items → change form items = some items' →
      items'.Grouped depth ∧ items' ≠ [])
    {path : List Label} (hpath : path.length ≤ depth) {form : TableForm} (h : items.Grouped depth)
    (hinside : inside? .dotted change path form items = some items') :
    items'.Grouped depth ∧ items' ≠ [] := by
  induction path generalizing depth form items items' with
  | nil => exact hchange depth form items items' h hinside
  | cons l path ih =>
      obtain ⟨depth, rfl⟩ := Nat.exists_eq_add_of_le' (Nat.le_of_add_left_le hpath)
      have hrest : path.length ≤ depth := by simpa using hpath
      rw [inside?_cons] at hinside
      obtain ⟨n, hn, rfl⟩ := Option.map_eq_some_iff.1 hinside
      refine ⟨h.set ?_, set_ne_nil l n items⟩
      cases hat : at? items l.name with
      | none =>
          rw [hat] at hn
          obtain ⟨inner, hinner, rfl⟩ := Option.map_eq_some_iff.1 hn
          obtain ⟨hgrouped, hne⟩ := ih hrest grouped_nil hinner
          exact .table hne hgrouped.nodup hgrouped.nodes
      | some m =>
          obtain ⟨k, hk, -⟩ := mem_of_at? hat
          rw [hat] at hn
          cases h.nodes _ hk with
          | value => cases hn
          | table _ hnodup hnodes =>
              obtain ⟨inner, hinner, rfl⟩ := of_descend_table hn
              obtain ⟨hgrouped, hne⟩ := ih hrest ⟨hnodup, hnodes⟩ hinner
              exact .table hne hgrouped.nodup hgrouped.nodes

theorem Grouped.addEntry? (h : items.Grouped maxPath) {e : Entry}
    (hadd : addEntry? items e = some items') : items'.Grouped maxPath := by
  obtain ⟨last, -, halong⟩ := Option.bind_eq_some_iff.1 hadd
  rw [Branch.along?] at halong
  split at halong
  next hlength =>
    refine (h.inside? (fun depth form inner inner' hinner hput => ?_) hlength halong).1
    split at hput
    · rw [alter?_eq] at hput
      obtain ⟨n, hn, rfl⟩ := Option.map_eq_some_iff.1 hput
      split at hn
      · cases hn
      · obtain rfl := Option.some.inj hn
        exact ⟨hinner.set .value, set_ne_nil _ _ _⟩
    · cases hput
  next => cases halong

theorem grouped_of_addEntries? {entries : List Entry}
    (h : addEntries? [] entries = some items) : items.Grouped maxPath :=
  of_foldlM (fun _ _ _ _ hitems => hitems.addEntry?) grouped_nil h

end Branch

/-! ### The same tables again -/

namespace Branch

variable {acc items : Branch} {name : Text}

theorem set_append (l : Label) (n : Node) (hl : l.name ∉ names acc) (rest : Branch) :
    set l n (acc ++ rest) = acc ++ set l n rest := by
  induction acc with
  | nil => rfl
  | cons p acc ih =>
      obtain ⟨k, m⟩ := p
      rw [names_cons, List.mem_cons, not_or] at hl
      rw [List.cons_append, set_cons, if_neg fun hk => hl.1 hk.symm, ih hl.2]
      rfl

theorem at?_append (hname : name ∉ names acc) (rest : Branch) :
    at? (acc ++ rest) name = at? rest name := by
  induction acc with
  | nil => rfl
  | cons p acc ih =>
      obtain ⟨k, m⟩ := p
      rw [names_cons, List.mem_cons, not_or] at hname
      rw [List.cons_append, at?_cons, if_neg fun hk => hname.1 hk.symm, ih hname.2]

end Branch

namespace Statement

variable {acc items : Branch} {ss : List Statement} {name : Text}

theorem put?_under (s : Statement) (name : Text) (items : Branch) :
    (s.under name).put? items =
      ((s.under name).effect (items.at? name)).map (Branch.set (.onWay name) · items) :=
  Branch.inside?_cons ..

/-- Statements under the name that stands last in a table. -/
theorem run?_under_last {k : Label} {form : TableForm} (hk : k.name ∉ Branch.names acc)
    (h : ∀ s ∈ ss, s.what.GoesInto form) (items : Branch) :
    run? (acc ++ [(k, .table form items)]) (ss.map (under k.name)) =
      (run? items ss).map fun items' => acc ++ [(k, .table form items')] := by
  induction ss generalizing items with
  | nil => rfl
  | cons s ss ih =>
      have hset : ∀ n, Branch.set (.onWay k.name) n (acc ++ [(k, .table form items)]) =
          acc ++ [(k, n)] := by
        intro n
        rw [Branch.set_append (.onWay k.name) n hk, Branch.set_cons,
          if_pos (show k.name = (Label.onWay k.name).name from rfl)]
      rw [List.map_cons, run?_cons, run?_cons, put?_under, Branch.at?_append hk, Branch.at?_cons,
        if_pos rfl, effect_under_table (h s List.mem_cons_self)]
      cases s.put? items with
      | none => rfl
      | some items' =>
          simp only [Option.map_some, Option.bind_some, hset]
          exact ih (fun t ht => h t (List.mem_cons_of_mem _ ht)) items'

/-- Values stated under a new name make a table of it. -/
theorem run?_under_new (hname : name ∉ Branch.names acc) (hne : ss ≠ [])
    (h : ∀ s ∈ ss, s.what.way = .dotted) :
    run? acc (ss.map (under name)) =
      (run? [] ss).map fun items => acc ++ [(.onWay name, .table .dotted items)] := by
  obtain ⟨s, ss, rfl⟩ := List.exists_cons_of_ne_nil hne
  have hset : ∀ n, Branch.set (.onWay name) n acc = acc ++ [(.onWay name, n)] := by
    intro n
    have happend := Branch.set_append (.onWay name) n hname []
    rwa [List.append_nil] at happend
  rw [List.map_cons, run?_cons, run?_cons, put?_under, Branch.at?_eq_none.2 hname,
    effect_under_none, h s List.mem_cons_self]
  cases s.put? [] with
  | none => rfl
  | some items =>
      simp only [Option.map_some, Option.bind_some, hset]
      exact run?_under_last (k := .onWay name) hname (fun _ _ _ => rfl) items

end Statement

/-- A node that its entries, put at the end of a table where its name is new, make again. -/
def Node.Regrows (n : Node) : Prop :=
  ∀ (l : Label) (acc : Branch), l.name ∉ Branch.names acc → ∃ k n', k.name = l.name ∧
    Statement.run? acc ((n.entries [l]).map Entry.statement) = some (acc ++ [(k, n')]) ∧
    (n'.entries [k]).map Entry.statement = (n.entries [l]).map Entry.statement

namespace Branch

theorem statements_cons (l : Label) (n : Node) (rest : Branch) :
    (entries ((l, n) :: rest)).map Entry.statement =
      (n.entries [l]).map Entry.statement ++ (entries rest).map Entry.statement := by
  rw [entries, entriesIn, List.map_append]
  rfl

theorem regrows {items : Branch} (hnodup : (names items).Nodup)
    (hnodes : ∀ p ∈ items, p.2.Regrows) {acc : Branch}
    (hacc : ∀ name ∈ names items, name ∉ names acc) :
    ∃ items', Statement.run? acc (items.entries.map Entry.statement) = some (acc ++ items') ∧
      items'.entries.map Entry.statement = items.entries.map Entry.statement := by
  induction items generalizing acc with
  | nil => exact ⟨[], by simp [entries, entriesIn, Statement.run?], rfl⟩
  | cons p items ih =>
      obtain ⟨l, n⟩ := p
      rw [names_cons, List.nodup_cons] at hnodup
      obtain ⟨k, n', hk, hrun, hagain⟩ :=
        hnodes _ List.mem_cons_self l acc (hacc _ List.mem_cons_self)
      have hrest : ∀ name ∈ names items, name ∉ names (acc ++ [(k, n')]) := by
        intro name hname hmem
        rw [names_append, names_cons, names_nil, List.mem_append, List.mem_singleton, hk] at hmem
        rcases hmem with hmem | rfl
        · exact hacc name (List.mem_cons_of_mem _ hname) hmem
        · exact hnodup.1 hname
      obtain ⟨items', hrun', hagain'⟩ :=
        ih hnodup.2 (fun q hq => hnodes q (List.mem_cons_of_mem _ hq)) hrest
      refine ⟨(k, n') :: items', ?_, ?_⟩
      · rw [statements_cons, Statement.run?_append, hrun, Option.bind_some, hrun', List.append_assoc]
        rfl
      · rw [statements_cons, statements_cons, hagain, hagain']

end Branch

namespace Node

variable {depth : Nat} {n : Node}

theorem Grouped.entries_ne_nil (h : n.Grouped depth) (path : List Label) : n.entries path ≠ [] := by
  induction h generalizing path with
  | value => simp [Node.entries]
  | @table depth items hne _ _ ih =>
      obtain ⟨p, rest, rfl⟩ := List.exists_cons_of_ne_nil hne
      rw [Node.entries, entriesIn_eq_flatMap, List.flatMap_cons]
      exact fun hnil => ih p List.mem_cons_self _ (List.append_eq_nil_iff.1 hnil).1

/-- What is written of a node at the end of a path. -/
theorem Grouped.of_mem_entries (h : n.Grouped depth) {path : List Label} {e : Entry}
    (he : e ∈ n.entries path) :
    ∃ path' w, e = entryOf path' w ∧ path'.length ≤ path.length + depth := by
  induction h generalizing path with
  | @value depth w =>
      rw [Node.entries, List.mem_singleton] at he
      exact ⟨path, w, he, Nat.le_add_right _ _⟩
  | @table depth items _ _ _ ih =>
      rw [Node.entries, entriesIn_eq_flatMap] at he
      obtain ⟨p, hp, he⟩ := List.mem_flatMap.1 he
      obtain ⟨path', w, rfl, hlength⟩ := ih p hp he
      rw [List.length_append, List.length_singleton] at hlength
      exact ⟨path', w, rfl, by omega⟩

theorem Grouped.regrows (h : n.Grouped depth) : n.Regrows := by
  induction h with
  | @value _ w =>
      intro l acc hl
      have hset := Branch.set_append (.atEnd l.name) (.value w.bare) hl []
      rw [List.append_nil] at hset
      refine ⟨.atEnd l.name, .value w.bare, rfl, ?_, ?_⟩
      · have hput : (entryOf [l] w).statement.put? acc =
            Branch.alter? (.atEnd l.name)
              (fun n? => if n?.isSome then none else some (.value w.bare)) acc := by
          rw [statement_entryOf]
          rfl
        rw [Node.entries, List.map_singleton, Statement.run?_cons, hput, Branch.alter?_eq,
          show (Label.atEnd l.name).name = l.name from rfl, Branch.at?_eq_none.2 hl]
        simp [Statement.run?, hset, Branch.set_nil]
      · simp [Node.entries, statement_entryOf, Written.bare, Label.atEnd]
  | @table depth items hne hnodup hnodes ih =>
      intro l acc hl
      have hunder : ((Node.table .dotted items).entries [l]).map Entry.statement =
          ((Branch.entries items).map Entry.statement).map (.under l.name) :=
        statementsIn_under l [] items
      have hvalues : ∀ s ∈ (Branch.entries items).map Entry.statement, s.what.way = .dotted := by
        simp [Entry.statement, Assertion.way]
      have hsome : (Branch.entries items).map Entry.statement ≠ [] := by
        have hentries := (Grouped.table hne hnodup hnodes).entries_ne_nil []
        simpa [Node.entries, Branch.entries] using hentries
      obtain ⟨items', hrun, hagain⟩ := Branch.regrows hnodup ih
        (show ∀ name ∈ Branch.names items, name ∉ Branch.names [] by simp)
      refine ⟨.onWay l.name, .table .dotted items', rfl, ?_, ?_⟩
      · rw [hunder, Statement.run?_under_new hl hsome hvalues, hrun]
        rfl
      · have hunder' := statementsIn_under (.onWay l.name) [] items'
        rw [hunder, ← hagain]
        exact hunder'

end Node

namespace Branch

theorem Grouped.of_mem_entries {depth : Nat} {items : Branch} (h : items.Grouped depth) {e : Entry}
    (he : e ∈ items.entries) : e.statement.way.length ≤ depth := by
  rw [entries, entriesIn_eq_flatMap] at he
  obtain ⟨p, hp, he⟩ := List.mem_flatMap.1 he
  obtain ⟨path, w, rfl, hlength⟩ := (h.nodes p hp).of_mem_entries he
  rw [statement_entryOf, List.length_dropLast, List.length_map]
  simpa [Nat.add_comm] using hlength

/-- The entries of a tree that entries have made, in the order in which they stand there, make a tree
with the same entries. -/
theorem addEntries?_entries {items : Branch} (h : items.Grouped maxPath) :
    ∃ items', addEntries? [] (items.entries.map Entry.bare) = some items' ∧
      items'.entries.map Entry.statement = items.entries.map Entry.statement := by
  obtain ⟨items', hrun, hagain⟩ :=
    regrows h.nodup (fun p hp => (h.nodes p hp).regrows)
      (show ∀ name ∈ names items, name ∉ names [] by simp)
  refine ⟨items', ?_, hagain⟩
  have hfits : ∀ e ∈ items.entries, e.statement.Fits := fun e he => h.of_mem_entries he
  rw [Statement.addEntries?_bare_eq fun e he => key_ne_nil he, if_pos hfits, hrun,
    List.nil_append]

end Branch

end DnsFilter.Toml
