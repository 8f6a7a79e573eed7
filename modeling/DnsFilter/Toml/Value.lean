/-! Values of the configuration format. Of a number that is not whole no more is kept than whether
it can be held in double precision, and nothing of a date: no setting has such a value. An inline
table keeps its entries under the key paths they are written with, none of which starts with
another. -/

namespace DnsFilter.Toml

/-- Texts of the format are read and written character by character. -/
abbrev Text := List Char

inductive Value where
  | string (text : Text)
  | integer (n : Int)
  | boolean (b : Bool)
  | float (isFinite : Bool)
  | date
  | array (items : List Value)
  | table (entries : List (List Text × Value))
  deriving Repr

mutual

/-- Whether all numbers in a value can be held, where whole numbers are held from `least` to
`greatest`. -/
def Value.isWithin (least greatest : Int) : Value → Bool
  | .integer n => decide (least ≤ n ∧ n ≤ greatest)
  | .float isFinite => isFinite
  | .array items => areWithin least greatest items
  | .table entries => areEntriesWithin least greatest entries
  | _ => true

def areWithin (least greatest : Int) : List Value → Bool
  | [] => true
  | v :: rest => v.isWithin least greatest && areWithin least greatest rest

def areEntriesWithin (least greatest : Int) : List (List Text × Value) → Bool
  | [] => true
  | (_, v) :: rest => v.isWithin least greatest && areEntriesWithin least greatest rest

end

/-! ### Characters -/

def isSpace (c : Char) : Bool := c == ' ' || c == '\t'

/-- What a comment may hold, and what may stand for itself in quotes: everything but control
characters, of which the tab is allowed. -/
def isPlain (c : Char) : Bool := c == '\t' || (0x20 ≤ c.toNat && c != '\x7f')

/-- What a key may hold without quotes. -/
def isBare (c : Char) : Bool := c.isAlphanum || c == '-' || c == '_'

/-! ### Between the parts of a document -/

/-- Splits off blank space, line ends and comments, up to the first character that is none of these.
A line end is a line feed, or one with a carriage return before it, which is dropped. `inComment`
says whether a comment has begun on this line. -/
def gap : Bool → Text → Text × Text
  | _, [] => ([], [])
  | _, '\r' :: '\n' :: rest =>
      let (g, r) := gap false rest
      ('\n' :: g, r)
  | inComment, c :: rest =>
      if c == '\n' then
        let (g, r) := gap false rest
        (c :: g, r)
      else if (inComment && isPlain c) || (!inComment && isSpace c) then
        let (g, r) := gap inComment rest
        (c :: g, r)
      else if !inComment && c == '#' then
        let (g, r) := gap true rest
        (c :: g, r)
      else ([], c :: rest)

/-- Splits off blank space. -/
def spaces (s : Text) : Text × Text := s.span isSpace

/-- What follows the line end that a text starts with. -/
def afterLineEnd? : Text → Option Text
  | '\n' :: rest => some rest
  | '\r' :: '\n' :: rest => some rest
  | _ => none

/-- Splits off the rest of a line, which may hold blank space and a comment only, and its end. -/
def lineTail? (s : Text) : Option (Text × Text) :=
  let (blank, s) := spaces s
  let (comment, s) := match s with
    | '#' :: rest =>
        let (body, r) := rest.span isPlain
        ('#' :: body, r)
    | _ => ([], s)
  match s with
  | [] => some (blank ++ comment, [])
  | _ => (afterLineEnd? s).map (blank ++ comment, ·)

end DnsFilter.Toml
