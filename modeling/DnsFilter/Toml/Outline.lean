import DnsFilter.Toml.Reader
import DnsFilter.Toml.Tree
import DnsFilter.Toml.Writer

/-! What is read of a document, for one who asks for groups of settings: under each name at the root, the
table that stands there, or another value. -/

namespace DnsFilter.Toml

/-! ### Parts -/

/-- What is read in the place of a setting. No setting is a table, so what is in a table does not
matter. -/
def Node.read : Node → Value
  | .value w => w.value
  | .table _ _ => .table []
  | .tables elements => .array (elements.map fun _ => .table [])

/-- What an inline table says of a name. -/
def inlineValue? (entries : List (List Text × Value)) (name : Text) : Option Value :=
  (entries.find? fun e => e.1.head? == some name).map fun e =>
    if e.1 == [name] then e.2 else .table []

def Value.part : Value → Part
  | .table entries => .table (inlineValue? entries)
  | v => .value v

def Node.part : Node → Part
  | .table _ items => .table fun key => (Branch.at? items key).map Node.read
  | n => n.read.part

def Branch.root (tree : Branch) : Root := fun name => (tree.at? name).map Node.part

/-! ### Numbers -/

/-- Whether a value can be read: its whole numbers have 128 bits, with or without a sign. -/
def isWide (v : Value) : Bool :=
  v.isWithin (-0x80000000000000000000000000000000) 0xffffffffffffffffffffffffffffffff

/-- What is looked at of an entry at the root: of a group written as an array, no more elements than it
has settings. -/
def Shape.visited (shape : Shape) (e : Entry) : Value :=
  match e.names, e.body.value with
  | [name], .array items =>
      match shape.find? fun g => g.1 == name with
      | some g => .array (items.take g.2)
      | none => .array items
  | _, v => v

def Shape.isReadable (shape : Shape) (d : Document) : Bool :=
  d.root.all (fun e => isWide (shape.visited e)) &&
    d.sections.all fun s => s.entries.all fun e => isWide e.body.value

/-! ### Texts -/

def Document.root? (shape : Shape) (d : Document) : Option Root := do
  let tree ← Branch.ofDocument? d
  if shape.isReadable d then some tree.root else none

/-- The format as it is read and written here. -/
def Format.standard : Format where
  read? shape s := (Document.ofText? s).bind (·.root? shape)
  write groups := groups.document.render

end DnsFilter.Toml
