import DnsFilter.Toml.Value

/-! Documents as they are written: every entry and every table header with the text around it, so
that what an edit does not touch keeps its spelling, its comments and its place. -/

namespace DnsFilter.Toml

/-- One part of a key, with its spelling and the blank space around it. -/
structure KeyPart where
  name : Text
  before : Text
  text : Text
  after : Text
  deriving DecidableEq, Repr

/-- A key is one or more parts with dots between them. -/
abbrev Key := List KeyPart

def Key.names (k : Key) : List Text := k.map (·.name)

def KeyPart.render (p : KeyPart) : Text := p.before ++ p.text ++ p.after

def Key.render : Key → Text
  | [] => []
  | [p] => p.render
  | p :: rest => p.render ++ '.' :: Key.render rest

/-- A value as it is written. `space` stands before it, after the equals sign, and `tail` after it
on its line. -/
structure Written where
  space : Text
  text : Text
  value : Value
  tail : Text
  deriving Repr

/-- An entry: a key and its value. `lead` stands before the key: empty lines, comments,
indentation. -/
structure Entry where
  lead : Text
  key : Key
  body : Written
  deriving Repr

def Entry.names (e : Entry) : List Text := Key.names e.key

def Entry.render (e : Entry) : Text :=
  e.lead ++ Key.render e.key ++ '=' :: e.body.space ++ e.body.text ++ e.body.tail

def renderLines (entries : List Entry) : Text := entries.flatMap fun e => e.render ++ ['\n']

/-- A header opens a table, or with `isArray` the next table of an array of tables. -/
structure Header where
  lead : Text
  isArray : Bool
  key : Key
  tail : Text
  deriving DecidableEq, Repr

def Header.render (h : Header) : Text :=
  let k := Key.render h.key
  let brackets := if h.isArray then '[' :: '[' :: k ++ [']', ']'] else '[' :: k ++ [']']
  h.lead ++ brackets ++ h.tail ++ ['\n']

/-- A table as it is written: its header and the entries up to the next one. -/
structure Section where
  header : Header
  entries : List Entry
  deriving Repr

/-- A document: the entries before the first header, the tables with headers, and what stands after
the last line of these. -/
structure Document where
  root : List Entry
  sections : List Section
  trailing : Text
  deriving Repr

namespace Document

def render (d : Document) : Text :=
  renderLines d.root ++
    d.sections.flatMap (fun s => s.header.render ++ renderLines s.entries) ++ d.trailing

end Document

end DnsFilter.Toml
