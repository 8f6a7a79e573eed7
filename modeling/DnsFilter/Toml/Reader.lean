import DnsFilter.Toml.Atom
import DnsFilter.Toml.Quoted
import DnsFilter.Toml.Tree

/-! Reading documents. Each reader takes a text and gives what it read with the rest of the text, or
nothing if the text does not begin with what is asked for. A reader of several things of a kind is
told how many there may be at most; for a whole document this is more than the text has
characters. -/

namespace DnsFilter.Toml

/-- Reads one part of a key without the blank space around it: its name and its spelling, then the
rest. -/
def keyName? (s : Text) : Option (Text × Text × Text) :=
  match Quoted.readLine? s with
  | some r => some (r.body, r.text, r.rest)
  | none =>
      let (name, rest) := s.span isBare
      if name.isEmpty then none else some (name, name, rest)

/-- Reads a key of at most `n` parts. -/
def key? : Nat → Text → Option (Key × Text)
  | 0, _ => none
  | n + 1, s => do
      let (before, s) := spaces s
      let (name, text, s) ← keyName? s
      let (after, s) := spaces s
      let part : KeyPart := ⟨name, before, text, after⟩
      match s with
      | '.' :: rest => do
          let (more, s) ← key? n rest
          some (part :: more, s)
      | _ => some ([part], s)

/-! ### Values -/

/-- A reader of values, which also gives the text of the value. -/
abbrev ValueReader := Text → Option (Value × Text × Text)

def quoted? : ValueReader := fun s =>
  (Quoted.read? s).map fun r => (.string r.body, r.text, r.rest)

def plain? : ValueReader := fun s =>
  match quoted? s with
  | some p => some p
  | none => Atom.read? s

/-- Reads the elements of an array, fewer than `n`, up to its closing bracket. Blank space, line
ends and comments may stand anywhere between them, and a comma after the last one. -/
def elements? (element? : ValueReader) : Nat → Text → Option (List Value × Text × Text)
  | 0, _ => none
  | n + 1, s =>
      let (gap₁, s) := gap false s
      match s with
      | ']' :: rest => some ([], gap₁ ++ [']'], rest)
      | _ => do
          let (value, text, s) ← element? s
          let (gap₂, s) := gap false s
          match s with
          | ']' :: rest => some ([value], gap₁ ++ text ++ gap₂ ++ [']'], rest)
          | ',' :: rest => do
              let (more, others, s) ← elements? element? n rest
              some (value :: more, gap₁ ++ text ++ gap₂ ++ ',' :: others, s)
          | _ => none

/-- A key with more blank space after it. -/
def Key.extended (more : Text) : Key → Key
  | [] => []
  | [p] => [{ p with after := p.after ++ more }]
  | p :: rest => p :: Key.extended more rest

/-- What follows the equals sign that a text starts with. -/
def afterEquals? : Text → Option Text
  | '=' :: rest => some rest
  | _ => none

/-- Reads the entries of an inline table, fewer than `n`, up to its closing brace, with the text
between the last comma, or the opening brace, and that. Blank space, line ends and comments may
stand around all parts but those of a key, and a comma after the last entry. -/
def fields? (element? : ValueReader) : Nat → Text → Option (List Entry × Text × Text)
  | 0, _ => none
  | n + 1, s =>
      let (lead, s) := gap false s
      match s with
      | '\x7d' :: rest => some ([], lead, rest)
      | _ => do
          let (key, s) ← key? (n + 1) s
          let (after, s) := gap false s
          let (space, s) := gap false (← afterEquals? s)
          let (value, text, s) ← element? s
          let (tail, s) := gap false s
          let entry : Entry := ⟨lead, Key.extended after key, ⟨space, text, value, tail⟩⟩
          match s with
          | '\x7d' :: rest => some ([entry], [], rest)
          | ',' :: rest => do
              let (more, last, s) ← fields? element? n rest
              some (entry :: more, last, s)
          | _ => none

/-- An inline table, and its text: `last` after the opening brace, then the entries, of which those
of one table come together. -/
def inline? (entries : List Entry) (last : Text) : Option (Value × Text) := do
  let ordered := (← Branch.addEntries? [] entries).entries
  let value := Value.table (ordered.map fun e => (e.names, e.body.value))
  let body := List.intercalate [','] (ordered.map Entry.render)
  some (value, '\x7b' :: last ++ body ++ ['\x7d'])

/-- Reads a value in which brackets are nested at most `depth` deep and fewer than `n` things stand
in each. -/
def value? (n : Nat) : Nat → ValueReader
  | 0, s => plain? s
  | depth + 1, s =>
      match s with
      | '[' :: rest => do
          let (items, text, rest) ← elements? (value? n depth) n rest
          some (.array items, '[' :: text, rest)
      | '\x7b' :: rest => do
          let (entries, last, rest) ← fields? (value? n depth) n rest
          let (value, text) ← inline? entries last
          some (value, text, rest)
      | _ => plain? s

/-- How deep brackets may be nested. -/
def maxDepth : Nat := 80

/-! ### Documents -/

/-- Reads an entry after its lead. -/
def entry? (n : Nat) (lead s : Text) : Option (Entry × Text) := do
  let (key, s) ← key? n s
  let (space, s) := spaces (← afterEquals? s)
  let (value, text, s) ← value? n maxDepth s
  let (tail, s) ← lineTail? s
  some (⟨lead, key, ⟨space, text, value, tail⟩⟩, s)

/-- Reads a header after its lead. -/
def header? (n : Nat) (lead s : Text) : Option (Header × Text) :=
  match s with
  | '[' :: '[' :: rest => do
      let (key, s) ← key? n rest
      let s ← match s with
        | ']' :: ']' :: rest => some rest
        | _ => none
      let (tail, s) ← lineTail? s
      some (⟨lead, true, key, tail⟩, s)
  | '[' :: rest => do
      let (key, s) ← key? n rest
      let s ← match s with
        | ']' :: rest => some rest
        | _ => none
      let (tail, s) ← lineTail? s
      some (⟨lead, false, key, tail⟩, s)
  | _ => none

/-- Reads entries, fewer than `n`, up to the next header or the end. What is left begins with the
lead of the header, or is the text after the last line. -/
def entries? : Nat → Text → Option (List Entry × Text)
  | 0, _ => none
  | n + 1, s =>
      let (lead, rest) := gap false s
      match rest with
      | [] => some ([], s)
      | '[' :: _ => some ([], s)
      | _ => do
          let (entry, rest) ← entry? (n + 1) lead rest
          let (more, rest) ← entries? n rest
          some (entry :: more, rest)

/-- Reads tables with headers, fewer than `n`, up to the end, and the text after the last line. -/
def sections? : Nat → Text → Option (List Section × Text)
  | 0, _ => none
  | n + 1, s =>
      let (lead, rest) := gap false s
      match rest with
      | [] => some ([], lead)
      | _ => do
          let (header, rest) ← header? (n + 1) lead rest
          let (entries, rest) ← entries? (n + 1) rest
          let (more, trailing) ← sections? n rest
          some (⟨header, entries⟩ :: more, trailing)

/-- A byte-order mark at the start of a text does not belong to it. -/
def withoutMark : Text → Text
  | '\ufeff' :: rest => rest
  | s => s

/-- Reads the lines of a document, whatever its tables are. -/
def Document.ofText? (s : Text) : Option Document := do
  let n := s.length + 1
  let (root, s) ← entries? n (withoutMark s)
  let (sections, trailing) ← sections? n s
  some ⟨root, sections, trailing⟩

end DnsFilter.Toml
