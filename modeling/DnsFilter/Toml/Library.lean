import DnsFilter.Toml.Value

/-! What the program asks of a library for the format: to read a text, to write settings in groups, and to
edit a document in place. Whatever uses a library takes it as a parameter, and `Lawful` says what of it
is relied on. -/

namespace DnsFilter.Toml

/-! ### What is read -/

/-- What stands under a name at the root of a document: a table, in which settings are looked up, or
another value. -/
inductive Part where
  | table (settings : Text → Option Value)
  | value (v : Value)

/-- What is read of a document, by the names at its root. -/
abbrev Root := Text → Option Part

namespace Root

/-- The settings in the table of a name; there are none where it has no table. -/
def settings (r : Root) (name : Text) : Text → Option Value :=
  match r name with
  | some (.table settings) => settings
  | _ => fun _ => none

/-- Puts a part under a name, in the place of what is there. -/
def put (r : Root) (name : Text) (part : Part) : Root :=
  fun other => if other = name then some part else r other

/-- Puts a setting in the table of a name. -/
def set (r : Root) (name key : Text) (v : Value) : Root :=
  r.put name (.table fun other => if other = key then some v else r.settings name other)

variable {r : Root} {name key : Text} {v : Value}

@[simp] theorem put_self (part : Part) : r.put name part name = some part := if_pos rfl

@[simp] theorem settings_set : (r.set name key v).settings name =
    fun other => if other = key then some v else r.settings name other := by
  rw [settings, set, put_self]

end Root

/-! ### What is written -/

/-- A value that can be written. -/
inductive Setting where
  | text (s : Text)
  | integer (n : Int)
  | boolean (b : Bool)
  | texts (items : List Text)
  deriving DecidableEq, Repr

def Setting.value : Setting → Value
  | .text s => .string s
  | .integer n => .integer n
  | .boolean b => .boolean b
  | .texts items => .array (items.map .string)

/-- A name that needs no quotes. -/
def IsName (name : Text) : Prop := name ≠ [] ∧ ∀ c ∈ name, isBare c

instance (name : Text) : Decidable (IsName name) :=
  decidable_of_iff (name ≠ [] ∧ name.all isBare) (by rw [IsName, List.all_eq_true])

/-- Names that need no quotes, each of which is given once. -/
def AreNames (names : List Text) : Prop := names.Nodup ∧ ∀ name ∈ names, IsName name

instance (names : List Text) : Decidable (AreNames names) := inferInstanceAs (Decidable (_ ∧ _))

/-- Settings under their names, group by group. -/
abbrev Groups := List (Text × List (Text × Setting))

namespace Groups

/-- Whether the names are such, of groups and in each group, and all whole numbers have 64 bits, with or
without a sign. -/
structure WellFormed (groups : Groups) : Prop where
  names : AreNames (groups.map (·.1))
  settings : ∀ g ∈ groups, AreNames (g.2.map (·.1))
  numbers : ∀ g ∈ groups, ∀ s ∈ g.2,
    s.2.value.isWithin (-0x8000000000000000) 0xffffffffffffffff

/-- What the groups say. -/
def root (groups : Groups) : Root := fun name =>
  (groups.lookup name).map fun settings => .table fun key => (settings.lookup key).map Setting.value

end Groups

/-! ### Reading and writing -/

/-- The groups that are asked for, each with the number of its settings. -/
abbrev Shape := List (Text × Nat)

structure Format where
  /-- Reads a text for one who asks for groups of a shape. -/
  read? : Shape → Text → Option Root
  write : Groups → Text

/-- What is written is read again. -/
def Format.Lawful (F : Format) : Prop :=
  ∀ (shape : Shape) {groups : Groups}, groups.WellFormed →
    F.read? shape (F.write groups) = some groups.root

/-! ### Editing -/

/-- What a name stands for in a document that is edited: a value, a table or an array of tables. -/
inductive ItemKind where
  | value
  | table
  | tables
  deriving DecidableEq, Repr

/-- Which values may be read where something of a kind stands. An array of tables is not empty. -/
def ItemKind.Admits : ItemKind → Value → Prop
  | .value, _ => True
  | .table, v => ∃ entries, v = .table entries
  | .tables, v => ∃ entries items, v = .array (.table entries :: items)

structure Editor where
  /-- Documents that are edited. -/
  Doc : Type
  /-- What is written behind a value on its line. -/
  Tail : Type
  parse? : Text → Option Doc
  print : Doc → Text
  /-- What a name at the root stands for. -/
  kind? : Doc → Text → Option ItemKind
  /-- What a name in a table at the root stands for. -/
  kindIn? : Doc → Text → Text → Option ItemKind
  /-- Lets a name at the root stand for an empty table. -/
  insertTable : Doc → Text → Doc
  /-- What is written behind the value that a name in a table at the root stands for. -/
  tail? : Doc → Text → Text → Option Tail
  /-- Puts a value, and what is to be written behind it, in the place of what a name in a table at the
  root stands for. -/
  assign : Doc → Text → Text → Setting → Option Tail → Doc
  /-- Puts a value under a new name in a table at the root. -/
  insert : Doc → Text → Text → Setting → Doc

namespace Editor

variable (E : Editor)

/-- Edits, with what each makes of what is read: a table is added where there was nothing but perhaps a
value, a value takes the place of another, with what was written behind that, or it is new in its
table. Its whole numbers have 64 bits with a sign. -/
inductive Edit (d : E.Doc) : (Root → Root) → E.Doc → Prop
  | insertTable {name : Text} (hname : IsName name)
      (hkind : E.kind? d name = none ∨ E.kind? d name = some .value) :
      Edit d (·.put name (.table fun _ => none)) (E.insertTable d name)
  | assign {table key : Text} {v : Setting} (hname : IsName key)
      (hkind : E.kind? d table = some .table) (hkey : E.kindIn? d table key = some .value)
      (hv : v.value.isWithin (-0x8000000000000000) 0x7fffffffffffffff) :
      Edit d (·.set table key v.value) (E.assign d table key v (E.tail? d table key))
  | insert {table key : Text} {v : Setting} (hname : IsName key)
      (hkind : E.kind? d table = some .table) (hkey : E.kindIn? d table key = none)
      (hv : v.value.isWithin (-0x8000000000000000) 0x7fffffffffffffff) :
      Edit d (·.set table key v.value) (E.insert d table key v)

/-- Documents that were parsed, or come of these by edits. -/
inductive Made : E.Doc → Prop
  | parsed {s : Text} {d : E.Doc} (h : E.parse? s = some d) : Made d
  | edited {d d' : E.Doc} {change : Root → Root} (h : Made d) (hedit : E.Edit d change d') : Made d'

/-- Whether the tables of a document, and what stands in them, are read as such. -/
structure Describes (d : E.Doc) (r : Root) : Prop where
  table : ∀ name, E.kind? d name = some .table → ∃ settings, r name = some (.table settings) ∧
    ∀ key kind, E.kindIn? d name key = some kind → ∃ v, settings key = some v ∧ kind.Admits v
  tables : ∀ name, E.kind? d name = some .tables →
    ∃ v, r name = some (.value v) ∧ ItemKind.tables.Admits v

/-- What is relied on. A document that is parsed is printed as a text that says the same, an edit changes
of what is said no more than it is meant to, and names stand for what was put there. -/
structure Lawful (F : Format) : Prop where
  read_parsed : ∀ {shape s d}, E.parse? s = some d → F.read? shape (E.print d) = F.read? shape s
  read_edited : ∀ {shape d change d' r}, E.Made d → E.Edit d change d' →
    F.read? shape (E.print d) = some r → F.read? shape (E.print d') = some (change r)
  describes : ∀ {shape s d r}, E.parse? s = some d → F.read? shape s = some r → E.Describes d r
  kind_insertTable : ∀ d name, E.kind? (E.insertTable d name) name = some .table
  kindIn_insertTable : ∀ d name key, E.kindIn? (E.insertTable d name) name key = none
  kind_assign : ∀ {d table} key v tail, E.kind? d table = some .table →
    E.kind? (E.assign d table key v tail) table = some .table
  kindIn_assign : ∀ {d table} key v tail other, E.kind? d table = some .table →
    E.kindIn? (E.assign d table key v tail) table other =
      if other = key then some .value else E.kindIn? d table other
  kind_insert : ∀ {d table} key v, E.kind? d table = some .table →
    E.kind? (E.insert d table key v) table = some .table
  kindIn_insert : ∀ {d table} key v other, E.kind? d table = some .table →
    E.kindIn? (E.insert d table key v) table other =
      if other = key then some .value else E.kindIn? d table other

end Editor

end DnsFilter.Toml
