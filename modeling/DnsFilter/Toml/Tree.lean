import DnsFilter.Toml.Document

/-! What stands where in a document, as a tree of tables. A name has one place in its table, whose
spelling is that of the place where the document first speaks of it; a header of its own moves a
table to the end of the table around it. A document that says two things about one place has no
tree. -/

namespace DnsFilter.Toml

/-- A name in a table. `before` and `after` are the blank space around it within a key, and `ends`
what stands before and after a whole key of which it is the last part, if it was written as one. -/
structure Label where
  name : Text
  text : Text
  before : Text
  after : Text
  ends : Option (Text × Text)
  deriving DecidableEq, Repr

/-- How a table came about: by a header for something inside it, by a key with dots, by an edit, or
by a header of its own, the one at `position` in the document. -/
inductive TableForm where
  | implied
  | dotted
  | added
  | stated (position : Nat) (lead tail : Text)
  deriving DecidableEq, Repr

/-- What a name stands for: a value, a table, or an array of tables. -/
inductive Node where
  | value (w : Written)
  | table (form : TableForm) (items : List (Label × Node))
  | tables (elements : List (TableForm × List (Label × Node)))
  deriving Repr

/-- The contents of a table. -/
abbrev Branch := List (Label × Node)

/-! ### Keys and labels -/

namespace Label

/-- A name as it is written where none was before. -/
def plain (name : Text) : Label := ⟨name, name, [], [], none⟩

/-- The labels of a key's parts. What stands around the key, `lead` before it, belongs to the last
one. -/
def ofParts (lead : Text) : Bool → Key → List Label
  | _, [] => []
  | isFirst, [p] =>
      [⟨p.name, p.text, if isFirst then [] else p.before, [], some (lead, p.after)⟩]
  | isFirst, p :: rest =>
      ⟨p.name, p.text, if isFirst then [] else p.before, p.after, none⟩ :: ofParts lead false rest

def ofKey (lead : Text) (k : Key) : List Label :=
  ofParts (lead ++ ((k.head?).map (·.before)).getD []) true k

/-- The parts of the key that labels make, and the blank space after it. -/
def parts (last : Text) : Bool → List Label → Key
  | _, [] => []
  | isFirst, [l] => [⟨l.name, if isFirst then [] else l.before, l.text, last⟩]
  | isFirst, l :: rest =>
      ⟨l.name, if isFirst then [] else l.before, l.text, l.after⟩ :: parts last false rest

/-- The key that labels make, and what stands before it. `preset` is put around a key whose last
label was never written as one. -/
def toKey (preset : Text × Text) (path : List Label) : Text × Key :=
  let ends := (path.getLast?.bind (·.ends)).getD preset
  (ends.1, parts ends.2 true path)

end Label

/-! ### Looking up -/

namespace Branch

def at? (b : Branch) (name : Text) : Option Node :=
  (List.find? (fun p => p.1.name == name) b).map (·.2)

/-- Changes what a label's name stands for; what is new is put at the end. -/
def alter? (l : Label) (change : Option Node → Option Node) : Branch → Option Branch
  | [] => (change none).map fun n => [(l, n)]
  | (k, n) :: rest =>
      if k.name == l.name then (change (some n)).map fun n => (k, n) :: rest
      else (alter? l change rest).map ((k, n) :: ·)

/-! ### From a document -/

/-- Changes the table at the end of a path. Tables that are missing on the way are made with the
form `way`; of an array of tables, the way goes through the last one. A key with dots does not go
into a table that has a header of its own. -/
def inside? (way : TableForm) (change : TableForm → Branch → Option Branch) :
    List Label → TableForm → Branch → Option Branch
  | [], form, items => change form items
  | l :: rest, _, items =>
      alter? l (fun n? =>
        match n? with
        | none => (inside? way change rest way []).map (.table way ·)
        | some (.value _) => none
        | some (.table form inner) =>
            match way, form with
            | .dotted, .stated _ _ _ => none
            | _, _ => (inside? way change rest form inner).map (.table form ·)
        | some (.tables elements) =>
            match elements.getLast? with
            | some (form, inner) =>
                (inside? way change rest form inner).map fun inner =>
                  .tables (elements.dropLast ++ [(form, inner)])
            | none => none) items

/-- How many tables a key may go through. -/
def maxPath : Nat := 79

/-- Goes along all but the last part of a key. -/
def along? (way : TableForm) (path : List Label)
    (change : TableForm → Branch → Option Branch) (items : Branch) : Option Branch :=
  if path.length ≤ maxPath then inside? way change path way items else none

/-- Puts a value where nothing may stand yet. A key with dots ends in a table made by such keys
only. -/
def addEntry? (items : Branch) (e : Entry) : Option Branch := do
  let labels := Label.ofKey e.lead e.key
  let last ← labels.getLast?
  along? .dotted labels.dropLast (fun form inner =>
    if form = .dotted then
      alter? last (fun n? => if n?.isSome then none else some (.value e.body)) inner
    else none) items

def addEntries? (items : Branch) (entries : List Entry) : Option Branch :=
  entries.foldlM addEntry? items

/-- Adds the table of a header with its entries. A table opens once; an array of tables grows by one
table each time. -/
def addSection? (items : Branch) (position : Nat) (s : Section) : Option Branch := do
  let labels := Label.ofKey [] s.header.key
  let last ← labels.getLast?
  let form := TableForm.stated position s.header.lead s.header.tail
  along? .implied labels.dropLast (fun _ inner =>
    if s.header.isArray then do
      let element ← addEntries? [] s.entries
      alter? last (fun n? =>
        match n? with
        | none => some (.tables [(form, element)])
        | some (.tables elements) => some (.tables (elements ++ [(form, element)]))
        | _ => none) inner
    else do
      let existing ← match at? inner last.name with
        | none => some []
        | some (.table .implied existing) => some existing
        | _ => none
      let table ← addEntries? existing s.entries
      some (inner.filter (fun p => p.1.name != last.name) ++ [(last, .table form table)])) items

/-- The tree of a document. -/
def ofDocument? (d : Document) : Option Branch := do
  let root ← addEntries? [] d.root
  d.sections.zipIdx.foldlM (fun items (s, i) => addSection? items (i + 1) s) root

end Branch

/-! ### To a document -/

def entryOf (path : List Label) (w : Written) : Entry :=
  let (lead, key) := Label.toKey ([], [' ']) path
  ⟨lead, key, w⟩

mutual

/-- The entries of a node that stands at the end of a path in a table. -/
def Node.entries (path : List Label) : Node → List Entry
  | .value w => [entryOf path w]
  | .table .dotted items => entriesIn path items
  | _ => []

def entriesIn (path : List Label) : List (Label × Node) → List Entry
  | [] => []
  | (l, n) :: rest => n.entries (path ++ [l]) ++ entriesIn path rest

end

/-- The entries of a table: its values, and under keys with dots those of the tables in it that such
keys made. -/
def Branch.entries (b : Branch) : List Entry := entriesIn [] b

/-- A table that may have a header, with the path to it. -/
structure Listed where
  path : List Label
  isElement : Bool
  form : TableForm
  entries : List Entry

mutual

/-- The tables of a node at the end of a path, in order. -/
def Node.listed (path : List Label) : Node → List Listed
  | .value _ => []
  | .table .dotted items => listedIn path items
  | .table form items => ⟨path, false, form, Branch.entries items⟩ :: listedIn path items
  | .tables elements => listedOf path elements

def listedIn (path : List Label) : List (Label × Node) → List Listed
  | [] => []
  | (l, n) :: rest => n.listed (path ++ [l]) ++ listedIn path rest

def listedOf (path : List Label) : List (TableForm × List (Label × Node)) → List Listed
  | [] => []
  | (form, items) :: rest =>
      ⟨path, true, form, Branch.entries items⟩ :: listedIn path items ++ listedOf path rest

end

namespace Listed

/-- Tables with their positions. One that has none of its own has that of the table before it. -/
def positioned : Nat → List Listed → List (Nat × Listed)
  | _, [] => []
  | last, t :: rest =>
      let position := match t.form with
        | .stated position _ _ => position
        | _ => last
      (position, t) :: positioned position rest

/-- Puts a table before those whose position is not less. -/
def insert (t : Nat × Listed) : List (Nat × Listed) → List (Nat × Listed)
  | [] => [t]
  | u :: rest => if t.1 ≤ u.1 then t :: u :: rest else u :: insert t rest

/-- Tables by position; those of one position stay in order. -/
def sort (ts : List Listed) : List Listed :=
  ((positioned 0 ts).foldr insert []).map (·.2)

/-- Whether a table is not written: a table that only holds other tables needs no header. -/
def isSilent (t : Listed) : Bool :=
  match t.form with
  | .implied => t.entries.isEmpty
  | _ => false

/-- The table as it is written. Before a new header there is an empty line, unless it is the
`first` thing in the document. -/
def toSection (first : Bool) (t : Listed) : Section :=
  let (before, key) := Label.toKey ([], []) t.path
  let key := match key with
    | p :: rest => { p with before := before } :: rest
    | [] => []
  let (lead, tail) := match t.form with
    | .stated _ lead tail => (lead, tail)
    | _ => (if first then [] else ['\n'], [])
  ⟨⟨lead, t.isElement, key, tail⟩, t.entries⟩

def toSections : Bool → List Listed → List Section
  | _, [] => []
  | first, t :: rest =>
      if t.isSilent then toSections first rest else t.toSection first :: toSections false rest

end Listed

/-- The document of a tree, which `trailing` stands at the end of. -/
def Branch.toDocument (trailing : Text) (b : Branch) : Document :=
  let root := b.entries
  ⟨root, Listed.toSections root.isEmpty (Listed.sort (listedIn [] b)), trailing⟩

end DnsFilter.Toml
