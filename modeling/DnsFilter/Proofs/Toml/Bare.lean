import DnsFilter.Toml.Tree

/-! What a document says, apart from how it is spelled. A document is made bare by dropping all text
but its names and values, a tree also by dropping where its tables stand. The tree of a bare document
is the bare tree of the document, so that two documents that say the same have trees that say the
same. -/

namespace DnsFilter.Toml

/-! ### Documents -/

def KeyPart.bare (p : KeyPart) : KeyPart := ⟨p.name, [], [], []⟩

def Key.bare (k : Key) : Key := k.map KeyPart.bare

def Written.bare (w : Written) : Written := ⟨[], [], w.value, []⟩

def Entry.bare (e : Entry) : Entry := ⟨[], Key.bare e.key, e.body.bare⟩

def Header.bare (h : Header) : Header := ⟨[], h.isArray, Key.bare h.key, []⟩

def Section.bare (s : Section) : Section := ⟨s.header.bare, s.entries.map Entry.bare⟩

def Document.bare (d : Document) : Document :=
  ⟨d.root.map Entry.bare, d.sections.map Section.bare, []⟩

/-! ### Trees -/

def Label.bare (l : Label) : Label := ⟨l.name, [], [], [], l.ends.map fun _ => ([], [])⟩

def TableForm.bare : TableForm → TableForm
  | .stated _ _ _ => .stated 0 [] []
  | form => form

mutual

def Node.bare : Node → Node
  | .value w => .value w.bare
  | .table form items => .table form.bare (bareIn items)
  | .tables elements => .tables (bareOf elements)

def bareIn : List (Label × Node) → List (Label × Node)
  | [] => []
  | (l, n) :: rest => (l.bare, n.bare) :: bareIn rest

def bareOf : List (TableForm × List (Label × Node)) → List (TableForm × List (Label × Node))
  | [] => []
  | (form, items) :: rest => (form.bare, bareIn items) :: bareOf rest

end

theorem bareIn_eq_map (items : Branch) :
    bareIn items = items.map fun p => (p.1.bare, p.2.bare) := by
  induction items with
  | nil => simp [bareIn]
  | cons p items ih => simp [bareIn, ih]

theorem bareOf_eq_map (elements : List (TableForm × Branch)) :
    bareOf elements = elements.map fun p => (p.1.bare, bareIn p.2) := by
  induction elements with
  | nil => simp [bareOf]
  | cons p elements ih => simp [bareOf, ih]

theorem ofParts_bare (lead : Text) (isFirst : Bool) (k : Key) :
    (Label.ofParts lead isFirst k).map Label.bare = Label.ofParts [] isFirst (Key.bare k) := by
  fun_induction Label.ofParts lead isFirst k with
  | case1 => rfl
  | case2 isFirst p => cases isFirst <;> rfl
  | case3 isFirst p rest hrest ih =>
      cases rest with
      | nil => exact absurd rfl hrest
      | cons q rest =>
          rw [List.map_cons, ih]
          cases isFirst <;> rfl

theorem ofKey_bare (lead : Text) (k : Key) :
    (Label.ofKey lead k).map Label.bare = Label.ofKey [] (Key.bare k) := by
  rw [Label.ofKey, ofParts_bare, Label.ofKey]
  cases k <;> rfl

namespace Branch

/-! ### Building a tree -/

theorem at?_bareIn (items : Branch) (name : Text) :
    at? (bareIn items) name = (at? items name).map Node.bare := by
  simp only [at?, bareIn_eq_map, List.find?_map, Option.map_map]
  rfl

theorem alter?_bareIn {l : Label} {change change' : Option Node → Option Node}
    (h : ∀ n?, (change n?).map Node.bare = change' (n?.map Node.bare)) (items : Branch) :
    (alter? l change items).map bareIn = alter? l.bare change' (bareIn items) := by
  induction items with
  | nil =>
      have hnone : (change none).map Node.bare = change' none := h none
      rw [bareIn, alter?, alter?, ← hnone]
      cases change none <;> simp [bareIn]
  | cons p items ih =>
      obtain ⟨k, n⟩ := p
      rw [bareIn, alter?, alter?, ← Option.map_some, ← h (some n), ← ih]
      by_cases hname : k.name = l.name
      · have hbare : k.bare.name == l.bare.name := by simpa [Label.bare] using hname
        rw [if_pos (by simpa using hname), if_pos hbare]
        cases change (some n) <;> simp [bareIn]
      · have hbare : ¬ k.bare.name == l.bare.name := by simpa [Label.bare] using hname
        rw [if_neg (by simpa using hname), if_neg hbare]
        cases alter? l change items <;> simp [bareIn]

theorem inside?_bareIn {way : TableForm} {change change' : TableForm → Branch → Option Branch}
    (h : ∀ form items, (change form items).map bareIn = change' form.bare (bareIn items))
    (path : List Label) (form : TableForm) (items : Branch) :
    (inside? way change path form items).map bareIn =
      inside? way.bare change' (path.map Label.bare) form.bare (bareIn items) := by
  induction path generalizing form items with
  | nil => exact h form items
  | cons l path ih =>
      rw [List.map_cons, inside?, inside?]
      refine alter?_bareIn (fun n? => ?_) items
      match n? with
      | none =>
          have hnew := ih way []
          rw [bareIn] at hnew
          simp only [Option.map_none, ← hnew, Option.map_map]
          rfl
      | some (.value w) => simp [Node.bare]
      | some (.table form inner) =>
          have hinner : ((inside? way change path form inner).map (.table form ·)).map Node.bare =
              (inside? way.bare change' (path.map Label.bare) form.bare (bareIn inner)).map
                (.table form.bare ·) := by
            rw [← ih form inner, Option.map_map, Option.map_map]
            rfl
          cases way with
          | dotted =>
              cases form with
              | stated => rfl
              | implied | dotted | added => exact hinner
          | implied | added | stated => cases form <;> exact hinner
      | some (.tables elements) =>
          simp only [Option.map_some, Node.bare, bareOf_eq_map, List.getLast?_map]
          cases elements.getLast? with
          | none => rfl
          | some element =>
              simp only [Option.map_some, ← ih, Option.map_map]
              congr 1
              funext inner
              simp [Node.bare, bareOf_eq_map]

theorem along?_bareIn {way : TableForm} {change change' : TableForm → Branch → Option Branch}
    (h : ∀ form items, (change form items).map bareIn = change' form.bare (bareIn items))
    (path : List Label) (items : Branch) :
    (along? way path change items).map bareIn =
      along? way.bare (path.map Label.bare) change' (bareIn items) := by
  rw [along?, along?, List.length_map]
  split
  · exact inside?_bareIn h path way items
  · rfl

theorem addEntry?_bareIn (items : Branch) (e : Entry) :
    Option.map bareIn ( addEntry? items e) = addEntry? (bareIn items) e.bare := by
  simp only [ addEntry?, Entry.bare, ← ofKey_bare e.lead, List.getLast?_map]
  cases (Label.ofKey e.lead e.key).getLast? with
  | none => rfl
  | some last =>
      simp only [Option.map_some, Option.bind_eq_bind, Option.bind_some, ← List.map_dropLast]
      refine along?_bareIn (fun form inner => ?_) _ items
      cases form with
      | dotted =>
          refine alter?_bareIn (fun n? => ?_) inner
          cases n? <;> rfl
      | implied | added | stated => rfl

theorem addEntries?_bareIn (items : Branch) (entries : List Entry) :
    (addEntries? items entries).map bareIn =
      addEntries? (bareIn items) (entries.map Entry.bare) := by
  induction entries generalizing items with
  | nil => rfl
  | cons e entries ih =>
      simp only [addEntries?, List.map_cons, List.foldlM_cons, Option.bind_eq_bind,
        ← addEntry?_bareIn] at ih ⊢
      cases addEntry? items e with
      | none => rfl
      | some items' => exact ih items'

/-! ### The table of a header -/

/-- What is already in the table that a header opens: only other headers may have made it. -/
def existing? (inner : Branch) (name : Text) : Option Branch :=
  match at? inner name with
  | none => some []
  | some (.table .implied existing) => some existing
  | _ => none

/-- Opens the table of a header in the table around it. -/
def openTable? (form : TableForm) (last : Label) (entries : List Entry) (inner : Branch) :
    Option Branch := do
  let table ← addEntries? (← existing? inner last.name) entries
  some (inner.filter (fun p => p.1.name != last.name) ++ [(last, .table form table)])

/-- Opens the next table of an array of tables. -/
def openElement? (form : TableForm) (last : Label) (entries : List Entry) (inner : Branch) :
    Option Branch := do
  let element ← addEntries? [] entries
  alter? last (fun n? =>
    match n? with
    | none => some (.tables [(form, element)])
    | some (.tables elements) => some (.tables (elements ++ [(form, element)]))
    | _ => none) inner

theorem addSection?_eq {items : Branch} {position : Nat} {s : Section} {last : Label}
    (hlast : (Label.ofKey [] s.header.key).getLast? = some last) :
    addSection? items position s =
      along? .implied (Label.ofKey [] s.header.key).dropLast (fun _ =>
        if s.header.isArray then
          openElement? (.stated position s.header.lead s.header.tail) last s.entries
        else openTable? (.stated position s.header.lead s.header.tail) last s.entries) items := by
  simp only [addSection?, hlast, Option.bind_eq_bind, Option.bind_some]
  refine congrArg (fun change => along? .implied _ change items) (funext fun _ => ?_)
  funext inner
  cases s.header.isArray with
  | true => rfl
  | false =>
      simp only [Bool.false_eq_true, if_false, openTable?, existing?]
      cases at? inner last.name with
      | none => rfl
      | some n =>
          cases n with
          | value | tables => rfl
          | table form items => cases form <;> rfl

theorem existing?_bareIn (inner : Branch) (name : Text) :
    (existing? inner name).map bareIn = existing? (bareIn inner) name := by
  rw [existing?, existing?, at?_bareIn]
  match at? inner name with
  | none => rfl
  | some (.value w) => rfl
  | some (.tables elements) => rfl
  | some (.table form items) => cases form <;> rfl

theorem openTable?_bareIn (form : TableForm) (last : Label) (entries : List Entry)
    (inner : Branch) : (openTable? form last entries inner).map bareIn =
      openTable? form.bare last.bare (entries.map Entry.bare) (bareIn inner) := by
  rw [openTable?, openTable?, show last.bare.name = last.name from rfl, ← existing?_bareIn]
  cases existing? inner last.name with
  | none => rfl
  | some existing =>
      simp only [Option.map_some, Option.bind_eq_bind, Option.bind_some, ← addEntries?_bareIn]
      cases addEntries? existing entries with
      | none => rfl
      | some table =>
          simp [bareIn_eq_map, List.filter_map, Node.bare]
          rfl

theorem openElement?_bareIn (form : TableForm) (last : Label) (entries : List Entry)
    (inner : Branch) : (openElement? form last entries inner).map bareIn =
      openElement? form.bare last.bare (entries.map Entry.bare) (bareIn inner) := by
  have helement := addEntries?_bareIn [] entries
  rw [bareIn] at helement
  rw [openElement?, openElement?, ← helement]
  cases addEntries? [] entries with
  | none => rfl
  | some element =>
      refine alter?_bareIn (fun n? => ?_) inner
      match n? with
      | none => rfl
      | some (.value w) => rfl
      | some (.table form items) => rfl
      | some (.tables elements) => simp [Node.bare, bareOf_eq_map]

theorem addSection?_bareIn (items : Branch) (position : Nat) (s : Section) :
    (addSection? items position s).map bareIn = addSection? (bareIn items) 0 s.bare := by
  have hkey : Label.ofKey [] s.bare.header.key =
      (Label.ofKey [] s.header.key).map Label.bare := (ofKey_bare [] _).symm
  cases hlast : (Label.ofKey [] s.header.key).getLast? with
  | none => simp [addSection?, hkey, hlast]
  | some last =>
      have hbare : (Label.ofKey [] s.bare.header.key).getLast? = some last.bare := by
        rw [hkey, List.getLast?_map, hlast, Option.map_some]
      rw [addSection?_eq hlast, addSection?_eq hbare, hkey, ← List.map_dropLast]
      refine along?_bareIn (fun _ inner => ?_) _ items
      rw [show s.bare.header.isArray = s.header.isArray from rfl]
      split
      · exact openElement?_bareIn _ _ _ inner
      · exact openTable?_bareIn _ _ _ inner

/-- The tree of a document, with no positions in it. -/
def sense? (d : Document) : Option Branch := do
  let root ← addEntries? [] d.root
  d.sections.foldlM (fun items s => addSection? items 0 s) root

theorem foldlM_addSection?_bareIn (sections : List (Section × Nat)) (items : Branch) :
    (sections.foldlM (fun items p => addSection? items (p.2 + 1) p.1) items).map bareIn =
      (sections.map fun p => p.1.bare).foldlM (fun items s => addSection? items 0 s)
        (bareIn items) := by
  induction sections generalizing items with
  | nil => rfl
  | cons p sections ih =>
      simp only [List.map_cons, List.foldlM_cons, Option.bind_eq_bind,
        ← addSection?_bareIn items (p.2 + 1)]
      cases addSection? items (p.2 + 1) p.1 with
      | none => rfl
      | some items' => exact ih items'

theorem ofDocument?_bare (d : Document) : (ofDocument? d).map bareIn = sense? d.bare := by
  have hroot := addEntries?_bareIn [] d.root
  rw [bareIn] at hroot
  simp only [ofDocument?, sense?, Document.bare, ← hroot, Option.bind_eq_bind]
  cases addEntries? [] d.root with
  | none => rfl
  | some root =>
      have hsections : d.sections.zipIdx.map (fun p => p.1.bare) = d.sections.map Section.bare :=
        calc
          _ = (d.sections.zipIdx.map Prod.fst).map Section.bare := (List.map_map ..).symm
          _ = d.sections.map Section.bare := by rw [List.zipIdx_map_fst]
      rw [Option.bind_some, Option.map_some, Option.bind_some, foldlM_addSection?_bareIn,
        hsections]

end Branch

end DnsFilter.Toml
