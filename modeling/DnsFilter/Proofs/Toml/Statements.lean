import DnsFilter.Proofs.Toml.Trees

/-! What a document says, statement by statement. Each statement puts a value or a table at the end of
a path of names, and what it does depends on, and changes, only what the first name on that path
stands for. Of many statements, those under one name can therefore be read apart from all others. -/

namespace DnsFilter.Toml

/-! ### Statements -/

/-- What a statement puts in its place: a value, or a table with entries, as a header opens one. -/
inductive Assertion where
  | value (w : Written)
  | table (isElement : Bool) (entries : List Entry)

/-- An assertion of what a name in the table at the end of a path of names stands for. -/
structure Statement where
  way : List Text
  name : Text
  what : Assertion

/-- The label of a name on the way to another, and that of the name at the end of a key. -/
def Label.onWay (name : Text) : Label := ⟨name, [], [], [], none⟩

def Label.atEnd (name : Text) : Label := ⟨name, [], [], [], some ([], [])⟩

namespace Assertion

/-- The form of the tables that are made on the way. -/
def way : Assertion → TableForm
  | .value _ => .dotted
  | .table _ _ => .implied

/-- What is done in the table at the end of the way. -/
def place? (a : Assertion) (last : Label) (form : TableForm) (inner : Branch) : Option Branch :=
  match a with
  | .value w =>
      if form = .dotted then
        Branch.alter? last (fun n? => if n?.isSome then none else some (.value w)) inner
      else none
  | .table true entries => Branch.openElement? (.stated 0 [] []) last entries inner
  | .table false entries => Branch.openTable? (.stated 0 [] []) last entries inner

/-- What a header finds in a node whose table it opens. -/
def found? : Option Node → Option Branch
  | none => some []
  | some (.table .implied existing) => some existing
  | _ => none

/-- What becomes of the node that the name stands for. -/
def stand? : Assertion → Option Node → Option Node
  | .value w, n? => if n?.isSome then none else some (.value w)
  | .table true entries, n? => do
      let element ← Branch.addEntries? [] entries
      match n? with
      | none => some (.tables [(.stated 0 [] [], element)])
      | some (.tables elements) => some (.tables (elements ++ [(.stated 0 [] [], element)]))
      | _ => none
  | .table false entries, n? => do
      let table ← Branch.addEntries? (← found? n?) entries
      some (.table (.stated 0 [] []) table)

/-- Whether a table of the given form may get what is asserted: keys with dots go only into tables
that such keys made. -/
def GoesInto (a : Assertion) (form : TableForm) : Prop := a.way = .dotted → form = .dotted

end Assertion

namespace Statement

/-- The first name on the path. -/
def first (s : Statement) : Text := s.way.head?.getD s.name

/-- The statement of the same one table further out. -/
def under (name : Text) (s : Statement) : Statement := { s with way := name :: s.way }

/-- Adds what is stated to a tree. -/
def put? (s : Statement) (items : Branch) : Option Branch :=
  Branch.inside? s.what.way (s.what.place? (.atEnd s.name)) (s.way.map .onWay) s.what.way items

/-- What becomes of the node that the first name stands for. -/
def effect (s : Statement) : Option Node → Option Node :=
  match s.way with
  | [] => s.what.stand?
  | _ :: way => Branch.descend s.what.way (s.what.place? (.atEnd s.name)) (way.map .onWay)

end Statement

/-! ### What a statement changes -/

/-- Whether a change of a table is one of what a name stands for: it does to that what `effect` says,
or fails with it, and does nothing to other names. -/
structure ActsAt (name : Text) (effect : Option Node → Option Node)
    (change : Branch → Option Branch) : Prop where
  fails : ∀ items, effect (items.at? name) = none → change items = none
  acts : ∀ items n, effect (items.at? name) = some n → ∃ items', change items = some items' ∧
    ∀ other, items'.at? other = if name = other then some n else items.at? other

theorem actsAt_map_set (l : Label) (effect : Option Node → Option Node) :
    ActsAt l.name effect fun items => (effect (items.at? l.name)).map (Branch.set l · items) where
  fails items h := by rw [h, Option.map_none]
  acts items n h := ⟨_, by rw [h, Option.map_some], fun other => Branch.at?_set l n items other⟩

theorem actsAt_alter? (l : Label) (change : Option Node → Option Node) :
    ActsAt l.name change (Branch.alter? l change) := by
  rw [show Branch.alter? l change = _ from funext (Branch.alter?_eq l change)]
  exact actsAt_map_set l change

/-- To open a table is to move its name to the end. -/
theorem at?_moved (l : Label) (n : Node) (items : Branch) (other : Text) :
    Branch.at? (items.filter (fun p => p.1.name != l.name) ++ [(l, n)]) other =
      if l.name = other then some n else Branch.at? items other := by
  induction items with
  | nil => simp [Branch.at?_cons]
  | cons p items ih =>
      obtain ⟨k, m⟩ := p
      rw [Branch.at?_cons, List.filter_cons]
      by_cases hk : k.name = l.name
      · simp only [hk, bne_self_eq_false, Bool.false_eq_true, if_false, ih]
        by_cases hl : l.name = other <;> simp [hl]
      · rw [if_pos (by simpa using hk), List.cons_append, Branch.at?_cons, ih]
        by_cases hn : k.name = other
        · simp [hn, show l.name ≠ other from fun hl => hk (hn.trans hl.symm)]
        · simp [hn]

theorem actsAt_place? (a : Assertion) (l : Label) :
    ActsAt l.name a.stand? (a.place? l a.way) := by
  cases a with
  | value w => exact actsAt_alter? l _
  | table isElement entries =>
      cases isElement with
      | true =>
          cases helement : Branch.addEntries? [] entries with
          | none =>
              refine ⟨fun items _ => ?_, fun items n h => ?_⟩
              · simp [Assertion.place?, Branch.openElement?, helement]
              · simp [Assertion.stand?, helement] at h
          | some element =>
              have hplace : (Assertion.table true entries).place? l .implied =
                  Branch.alter? l (Assertion.table true entries).stand? := by
                funext inner
                simp only [Assertion.place?, Branch.openElement?, helement, Option.bind_eq_bind,
                  Option.bind_some]
                congr 1
                funext n?
                match n? with
                | none | some (.value _) | some (.table _ _) | some (.tables _) =>
                    simp only [Assertion.stand?, helement, Option.bind_eq_bind, Option.bind_some]
              rw [Assertion.way, hplace]
              exact actsAt_alter? l _
      | false =>
          have hfound : ∀ items, Branch.existing? items l.name =
              Assertion.found? (items.at? l.name) := fun _ => rfl
          refine ⟨fun items h => ?_, fun items n h => ?_⟩
          · simp only [Assertion.stand?, Assertion.place?, Branch.openTable?, hfound] at h ⊢
            cases hexisting : Assertion.found? (items.at? l.name) with
            | none => rfl
            | some existing =>
                cases htable : Branch.addEntries? existing entries with
                | none => simp [htable]
                | some table => simp [hexisting, htable] at h
          · obtain ⟨existing, hexisting, h⟩ := Option.bind_eq_some_iff.1 h
            obtain ⟨table, htable, hn⟩ := Option.bind_eq_some_iff.1 h
            obtain rfl := Option.some.inj hn
            refine ⟨_, ?_, fun other => at?_moved l _ items other⟩
            simp [Assertion.place?, Branch.openTable?, hfound, hexisting, htable]

namespace Statement

/-- A statement does to the node of its first name what its effect says, and nothing to others. -/
theorem actsAt_put? (s : Statement) : ActsAt s.first s.effect s.put? := by
  obtain ⟨way, last, a⟩ := s
  cases way with
  | nil => exact actsAt_place? a (.atEnd last)
  | cons w way =>
      have hput : put? ⟨w :: way, last, a⟩ = _ :=
        funext (Branch.inside?_cons a.way (a.place? (.atEnd last)) (.onWay w) (way.map .onWay) a.way)
      rw [hput]
      exact actsAt_map_set (.onWay w) _

/-! ### Statements under one name -/

variable {ss : List Statement} {items items' : Branch}

/-- One step of what statements do to the node of their first name. -/
def act (n? : Option Node) (s : Statement) : Option (Option Node) := (s.effect n?).map some

/-- All that statements do to a tree, one after another. -/
def run? (items : Branch) (ss : List Statement) : Option Branch :=
  ss.foldlM (fun items s => s.put? items) items

/-- Of a run of statements, what became of a name is what those under it made of it. -/
theorem foldlM_act_of_run? (h : run? items ss = some items') (name : Text) :
    (ss.filter (·.first = name)).foldlM act (items.at? name) = some (items'.at? name) := by
  induction ss generalizing items with
  | nil =>
      obtain rfl : items = items' := by simpa [run?] using h
      rfl
  | cons s ss ih =>
      rw [run?, List.foldlM_cons] at h
      obtain ⟨next, hnext, hrest⟩ := Option.bind_eq_some_iff.1 h
      cases heffect : s.effect (items.at? s.first) with
      | none => rw [s.actsAt_put?.fails items heffect] at hnext; cases hnext
      | some n =>
          obtain ⟨next', hnext', hat⟩ := s.actsAt_put?.acts items n heffect
          obtain rfl : next' = next := Option.some.inj (hnext'.symm.trans hnext)
          have hstep := ih hrest
          rw [hat] at hstep
          by_cases hname : s.first = name
          · rw [List.filter_cons_of_pos (by simpa using hname), List.foldlM_cons, act, ← hname,
              heffect, hname]
            rwa [if_pos hname] at hstep
          · rw [List.filter_cons_of_neg (by simpa using hname)]
            rwa [if_neg hname] at hstep

/-- Statements can be run if, for each name, those under it can. -/
theorem exists_run? (items : Branch) (ss : List Statement)
    (h : ∀ name, ∃ n?, (ss.filter (·.first = name)).foldlM act (items.at? name) = some n?) :
    ∃ items', run? items ss = some items' := by
  induction ss generalizing items with
  | nil => exact ⟨items, rfl⟩
  | cons s ss ih =>
      obtain ⟨n?, hfirst⟩ := h s.first
      rw [List.filter_cons_of_pos (by simp), List.foldlM_cons] at hfirst
      obtain ⟨next?, hact, -⟩ := Option.bind_eq_some_iff.1 hfirst
      obtain ⟨n, heffect, -⟩ := Option.map_eq_some_iff.1 hact
      obtain ⟨next, hput, hat⟩ := s.actsAt_put?.acts items n heffect
      simp only [run?, List.foldlM_cons, hput, Option.bind_eq_bind, Option.bind_some]
      refine ih next fun name => ?_
      obtain ⟨n?, hrun⟩ := h name
      refine ⟨n?, ?_⟩
      rw [hat]
      by_cases hname : s.first = name
      · rw [List.filter_cons_of_pos (by simpa using hname), List.foldlM_cons, act, ← hname,
          heffect] at hrun
        rw [if_pos hname, ← hname]
        exact hrun
      · rw [List.filter_cons_of_neg (by simpa using hname)] at hrun
        rwa [if_neg hname]

theorem run?_append (items : Branch) (ss ts : List Statement) :
    run? items (ss ++ ts) = (run? items ss).bind (run? · ts) := List.foldlM_append

theorem run?_cons (items : Branch) (s : Statement) (ss : List Statement) :
    run? items (s :: ss) = (s.put? items).bind (run? · ss) := List.foldlM_cons

/-! ### Statements one table further in -/

variable {form : TableForm} {name : Text}

theorem effect_under_none (s : Statement) (name : Text) :
    (s.under name).effect none = (s.put? []).map (.table s.what.way ·) := rfl

theorem effect_under_table {s : Statement} (h : s.what.GoesInto form) (name : Text)
    (items : Branch) :
    (s.under name).effect (some (.table form items)) = (s.put? items).map (.table form ·) := by
  obtain ⟨way, last, a⟩ := s
  cases a with
  | value w =>
      obtain rfl : form = .dotted := h rfl
      rfl
  | table isElement entries =>
      have hdescend : ((⟨way, last, .table isElement entries⟩ : Statement).under name).effect
          (some (.table form items)) = (Branch.inside? .implied
            ((Assertion.table isElement entries).place? (.atEnd last)) (way.map .onWay) form
            items).map (.table form ·) := by
        cases form <;> rfl
      rw [hdescend, put?]
      cases way with
      | nil => cases isElement <;> rfl
      | cons w way => rfl

end Statement

/-! ### Statements of a document -/

def Entry.statement (e : Entry) : Statement :=
  ⟨e.names.dropLast, e.names.getLast?.getD [], .value e.body.bare⟩

def Section.statement (s : Section) : Statement :=
  let names := Key.names s.header.key
  ⟨names.dropLast, names.getLast?.getD [], .table s.header.isArray (s.entries.map Entry.bare)⟩

/-- All that a document says, the entries at its root first. -/
def Document.statements (d : Document) : List Statement :=
  d.root.map Entry.statement ++ d.sections.map Section.statement

/-- No key at the root of a document, and none of a header, is without a name. -/
structure Document.Keyed (d : Document) : Prop where
  root : ∀ e ∈ d.root, e.key ≠ []
  headers : ∀ s ∈ d.sections, s.header.key ≠ []

theorem ofKey_bare_eq {k : Key} (h : k ≠ []) :
    Label.ofKey [] (Key.bare k) =
      (Key.names k).dropLast.map .onWay ++ [.atEnd ((Key.names k).getLast?.getD [])] := by
  have hparts : ∀ isFirst, Label.ofParts [] isFirst (Key.bare k) =
      (Key.names k).dropLast.map .onWay ++ [.atEnd ((Key.names k).getLast?.getD [])] := by
    induction k with
    | nil => exact absurd rfl h
    | cons p k ih =>
        intro isFirst
        cases k with
        | nil => cases isFirst <;> rfl
        | cons q k =>
            have hrest := ih (by simp) false
            simp only [Key.bare, Key.names, List.map_cons] at hrest ⊢
            rw [Label.ofParts, hrest]
            · cases isFirst <;> rfl
            · simp
  obtain ⟨p, k, rfl⟩ := List.exists_cons_of_ne_nil h
  exact hparts true

namespace Statement

/-- Whether no more tables are gone through than a key may go through. -/
def Fits (s : Statement) : Prop := s.way.length ≤ Branch.maxPath

instance (s : Statement) : Decidable s.Fits := inferInstanceAs (Decidable (_ ≤ _))

theorem addEntry?_bare_eq {e : Entry} (h : e.key ≠ []) (items : Branch) :
    Branch.addEntry? items e.bare =
      if e.statement.Fits then e.statement.put? items else none := by
  simp only [Branch.addEntry?, Entry.bare, ofKey_bare_eq h, List.getLast?_concat,
    List.dropLast_concat, Option.bind_eq_bind, Option.bind_some, Branch.along?, List.length_map]
  rfl

theorem addSection?_bare_eq {s : Section} (h : s.header.key ≠ []) (items : Branch) :
    Branch.addSection? items 0 s.bare =
      if s.statement.Fits then s.statement.put? items else none := by
  have hkey := ofKey_bare_eq h
  have hlast : (Label.ofKey [] s.bare.header.key).getLast? =
      some (.atEnd ((Key.names s.header.key).getLast?.getD [])) := by
    rw [show s.bare.header.key = Key.bare s.header.key from rfl, hkey, List.getLast?_concat]
  have hplace : (fun _ : TableForm => if s.bare.header.isArray then
        Branch.openElement? (.stated 0 [] []) (.atEnd s.statement.name) s.bare.entries
      else Branch.openTable? (.stated 0 [] []) (.atEnd s.statement.name) s.bare.entries) =
      s.statement.what.place? (.atEnd s.statement.name) := by
    obtain ⟨⟨lead, isArray, key, tail⟩, entries⟩ := s
    cases isArray <;> rfl
  rw [Branch.addSection?_eq hlast, show s.bare.header.key = Key.bare s.header.key from rfl, hkey,
    List.dropLast_concat, Branch.along?, List.length_map]
  exact congrArg (fun place => if s.statement.Fits then
    Branch.inside? .implied place (s.statement.way.map .onWay) .implied items else none) hplace

/-- Steps that are those of statements make a run of them, if all of these fit. -/
theorem foldlM_eq_run? {α : Type} {step : Branch → α → Option Branch} {f : α → Statement}
    {xs : List α}
    (h : ∀ a ∈ xs, ∀ items, step items a = if (f a).Fits then (f a).put? items else none)
    (items : Branch) :
    xs.foldlM step items = if ∀ a ∈ xs, (f a).Fits then run? items (xs.map f) else none := by
  induction xs generalizing items with
  | nil => simp [run?]
  | cons a xs ih =>
      rw [List.foldlM_cons, h a List.mem_cons_self, List.map_cons, run?_cons]
      by_cases hfits : (f a).Fits
      · cases (f a).put? items with
        | none => simp [hfits]
        | some items' => simp [hfits, ih (fun b hb => h b (List.mem_cons_of_mem _ hb))]
      · simp [hfits]

theorem addEntries?_bare_eq {entries : List Entry} (h : ∀ e ∈ entries, e.key ≠ [])
    (items : Branch) :
    Branch.addEntries? items (entries.map Entry.bare) =
      if ∀ e ∈ entries, e.statement.Fits then run? items (entries.map Entry.statement)
      else none := by
  rw [Branch.addEntries?, List.foldlM_map]
  exact foldlM_eq_run? (fun e he => addEntry?_bare_eq (h e he)) items

/-- What a document says is what a run of its statements makes, if these fit. -/
theorem sense?_eq {d : Document} (h : d.Keyed) :
    Branch.sense? d.bare =
      if ∀ s ∈ d.statements, s.Fits then run? [] d.statements else none := by
  have hsections : ∀ items, (d.sections.map Section.bare).foldlM
      (fun items s => Branch.addSection? items 0 s) items =
        if ∀ s ∈ d.sections, s.statement.Fits then
          run? items (d.sections.map Section.statement) else none := by
    intro items
    rw [List.foldlM_map]
    exact foldlM_eq_run? (fun s hs => addSection?_bare_eq (h.headers s hs)) items
  simp only [Branch.sense?, Document.bare, addEntries?_bare_eq h.root, hsections,
    Document.statements, run?_append, List.forall_mem_append, List.forall_mem_map]
  by_cases hroot : ∀ e ∈ d.root, e.statement.Fits
  · rw [if_pos hroot]
    cases run? [] (d.root.map Entry.statement) with
    | none => simp
    | some root => simp [show (∀ e ∈ d.root, e.statement.Fits) ↔ True from iff_true_intro hroot]
  · rw [if_neg hroot, if_neg fun hall => hroot hall.1]
    rfl

theorem run?_of_sense? {d : Document} (h : d.Keyed) {sense : Branch}
    (hsense : Branch.sense? d.bare = some sense) :
    (∀ s ∈ d.statements, s.Fits) ∧ run? [] d.statements = some sense := by
  rw [sense?_eq h] at hsense
  split at hsense
  next hfits => exact ⟨hfits, hsense⟩
  next => cases hsense

end Statement

end DnsFilter.Toml
