import DnsFilter.Toml.Reader
import DnsFilter.Toml.Tree
import DnsFilter.Toml.Writer
import DnsFilter.Upsert

/-! Editing: adding a table at the root, and giving settings in such a table values, whichever way a
document writes that table. What is not edited keeps its text. -/

namespace DnsFilter.Toml

def Node.kind : Node → ItemKind
  | .value _ => .value
  | .table _ _ => .table
  | .tables _ => .tables

/-! ### In a tree -/

namespace Branch

/-- Lets the name of a label stand for a node, behind the label it has if it has one, or else at the
end. -/
def set (l : Label) (n : Node) (items : Branch) : Branch :=
  upsert (·.1.name) l.name (fun old => ((old.map (·.1)).getD l, n)) items

/-- Lets a name stand for an empty table, in the place and instead of what it stood for. -/
def addTable (name : Text) (items : Branch) : Branch :=
  upsert (·.1.name) name (fun _ => (.plain name, .table .added [])) items

/-- The table that a name stands for. -/
def table? (items : Branch) (name : Text) : Option Branch :=
  match items.at? name with
  | some (.table _ inner) => some inner
  | _ => none

end Branch

/-- Puts a value under a key in a table. -/
def Node.setField (key : Text) (w : Written) : Node → Node
  | .table form inner => .table form (Branch.set (.plain key) (.value w) inner)
  | n => n

/-- Puts a value under a key in the table that a name stands for. -/
def Branch.setIn (name key : Text) (w : Written) (items : Branch) : Branch :=
  items.map fun p => if p.1.name = name then (p.1, p.2.setField key w) else p

/-! ### In a document -/

/-- A document that is edited: its tree, and what stands after its last line. -/
structure Draft where
  tree : Branch
  trailing : Text

namespace Draft

/-- Whether a value can be held: its whole numbers have 64 bits with a sign. -/
def isNarrow (v : Value) : Bool := v.isWithin (-0x8000000000000000) 0x7fffffffffffffff

def isEditable (d : Document) : Bool :=
  d.root.all (fun e => isNarrow e.body.value) &&
    d.sections.all fun s => s.entries.all fun e => isNarrow e.body.value

def ofText? (s : Text) : Option Draft := do
  let d ← Document.ofText? s
  let tree ← Branch.ofDocument? d
  if isEditable d then some ⟨tree, d.trailing⟩ else none

def document (d : Draft) : Document := d.tree.toDocument d.trailing

def kind? (d : Draft) (name : Text) : Option ItemKind := (d.tree.at? name).map Node.kind

def kindIn? (d : Draft) (table key : Text) : Option ItemKind := do
  ((← d.tree.table? table).at? key).map Node.kind

def insertTable (d : Draft) (name : Text) : Draft := { d with tree := d.tree.addTable name }

def tail? (d : Draft) (table key : Text) : Option Text := do
  match (← d.tree.table? table).at? key with
  | some (.value w) => some w.tail
  | _ => none

def set (d : Draft) (table key : Text) (v : Setting) (tail : Text) : Draft :=
  { d with tree := d.tree.setIn table key (v.written tail) }

end Draft

/-- The editor for documents as they are read and printed here. -/
def Editor.standard : Editor where
  Doc := Draft
  Tail := Text
  parse? := Draft.ofText?
  print d := d.document.render
  kind? := Draft.kind?
  kindIn? := Draft.kindIn?
  insertTable := Draft.insertTable
  tail? := Draft.tail?
  assign d table key v tail := d.set table key v (tail.getD [])
  insert d table key v := d.set table key v []

end DnsFilter.Toml
