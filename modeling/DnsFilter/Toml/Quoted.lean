import DnsFilter.Toml.Value

/-! Quoted strings. There are four forms: with one or three quotes, which are double or single ones.
In double quotes a backslash begins an escape; with three quotes a string may run over several
lines. The writer takes the form that needs the least escaping. -/

namespace DnsFilter.Toml.Quoted

/-! ### Reading -/

def hexDigit? (c : Char) : Option Nat :=
  let n := c.toNat
  if 48 ≤ n ∧ n ≤ 57 then some (n - 48)
  else if 97 ≤ n ∧ n ≤ 102 then some (n - 87)
  else if 65 ≤ n ∧ n ≤ 70 then some (n - 55)
  else none

/-- The character with a code point written in hexadecimal digits. -/
def character? (digits : Text) : Option Char := do
  let n ← digits.foldlM (fun n c => (hexDigit? c).map (16 * n + ·)) 0
  if n.isValidChar then some (Char.ofNat n) else none

/-- The character that a backslash and this letter stand for. -/
def escape? : Char → Option Char
  | 'b' => some '\x08'
  | 't' => some '\t'
  | 'n' => some '\n'
  | 'f' => some '\x0c'
  | 'r' => some '\r'
  | 'e' => some '\x1b'
  | '"' => some '"'
  | '\\' => some '\\'
  | _ => none

/-- What was read of a string: the characters it stands for, the text it is written in, and the rest
that follows. -/
structure Reading where
  body : Text
  text : Text
  rest : Text
  deriving DecidableEq, Repr

namespace Reading

/-- A string that ends here. -/
def ending (body text rest : Text) : Option Reading := some ⟨body, text, rest⟩

/-- Puts characters and the text they are written in before what was read. -/
def after (body text : Text) : Option Reading → Option Reading :=
  Option.map fun r => ⟨body ++ r.body, text ++ r.text, r.rest⟩

/-- Puts a character that stands for itself before what was read. -/
def afterPlain (c : Char) : Option Reading → Option Reading := after [c] [c]

/-- Puts before what was read the character that a code point in hexadecimal digits stands for; the
text has the digits behind a backslash and a letter. -/
def afterCode (letter : Char) (digits : Text) (r : Option Reading) : Option Reading := do
  after [← character? digits] ('\\' :: letter :: digits) r

/-- Puts before what was read the character that a backslash and a letter stand for. -/
def afterEscape (letter : Char) (r : Option Reading) : Option Reading := do
  after [← escape? letter] ['\\', letter] r

end Reading

open Reading

/-- Reads a string up to its double quote. -/
def basic? : Text → Option Reading
  | [] => none
  | '"' :: rest => ending [] ['"'] rest
  | '\\' :: 'x' :: a :: b :: rest => afterCode 'x' [a, b] (basic? rest)
  | '\\' :: 'u' :: a :: b :: c :: d :: rest => afterCode 'u' [a, b, c, d] (basic? rest)
  | '\\' :: 'U' :: a :: b :: c :: d :: e :: f :: g :: h :: rest =>
      afterCode 'U' [a, b, c, d, e, f, g, h] (basic? rest)
  | '\\' :: e :: rest => afterEscape e (basic? rest)
  | c :: rest => if isPlain c && c != '\\' then afterPlain c (basic? rest) else none

/-- Reads a string up to its single quote. -/
def literal? : Text → Option Reading
  | [] => none
  | '\'' :: rest => ending [] ['\''] rest
  | c :: rest => if isPlain c then afterPlain c (literal? rest) else none

/-- Whether only blank space stands before the next line end. -/
def isLineOver (s : Text) : Bool := (afterLineEnd? (spaces s).2).isSome

/-- Reads a string up to its three double quotes; one or two more quotes before these belong to it.
`skipping` says that a backslash at the end of a line was read, which drops the white space around
it. -/
def basicLines? : Bool → Text → Option Reading
  | _, [] => none
  | skipping, '\r' :: '\n' :: rest =>
      if skipping then after [] ['\r', '\n'] (basicLines? true rest)
      else after ['\r', '\n'] ['\r', '\n'] (basicLines? false rest)
  | _, '"' :: '"' :: '"' :: '"' :: '"' :: rest =>
      ending ['"', '"'] ['"', '"', '"', '"', '"'] rest
  | _, '"' :: '"' :: '"' :: '"' :: rest => ending ['"'] ['"', '"', '"', '"'] rest
  | _, '"' :: '"' :: '"' :: rest => ending [] ['"', '"', '"'] rest
  | _, '\\' :: 'x' :: a :: b :: rest => afterCode 'x' [a, b] (basicLines? false rest)
  | _, '\\' :: 'u' :: a :: b :: c :: d :: rest =>
      afterCode 'u' [a, b, c, d] (basicLines? false rest)
  | _, '\\' :: 'U' :: a :: b :: c :: d :: e :: f :: g :: h :: rest =>
      afterCode 'U' [a, b, c, d, e, f, g, h] (basicLines? false rest)
  | _, '\\' :: e :: rest =>
      if isLineOver (e :: rest) then after [] ['\\'] (basicLines? true (e :: rest))
      else afterEscape e (basicLines? false rest)
  | skipping, c :: rest =>
      if skipping && (isSpace c || c == '\n') then after [] [c] (basicLines? true rest)
      else if (isPlain c || c == '\n') && c != '\\' then afterPlain c (basicLines? false rest)
      else none

/-- Reads a string up to its three single quotes; one or two more quotes before these
belong to it. -/
def literalLines? : Text → Option Reading
  | [] => none
  | '\'' :: '\'' :: '\'' :: '\'' :: '\'' :: rest =>
      ending ['\'', '\''] ['\'', '\'', '\'', '\'', '\''] rest
  | '\'' :: '\'' :: '\'' :: '\'' :: rest => ending ['\''] ['\'', '\'', '\'', '\''] rest
  | '\'' :: '\'' :: '\'' :: rest => ending [] ['\'', '\'', '\''] rest
  | '\r' :: '\n' :: rest => after ['\r', '\n'] ['\r', '\n'] (literalLines? rest)
  | c :: rest => if isPlain c || c == '\n' then afterPlain c (literalLines? rest) else none

/-- Reads a string behind three quotes; a line end that directly follows them does not belong to
it. -/
def afterOpening (read? : Text → Option Reading) : Text → Option Reading
  | '\n' :: rest => after [] ['\n'] (read? rest)
  | '\r' :: '\n' :: rest => after [] ['\r', '\n'] (read? rest)
  | s => read? s

/-- Reads a quoted string of any form. -/
def read? : Text → Option Reading
  | '"' :: '"' :: '"' :: rest =>
      after [] ['"', '"', '"'] (afterOpening (basicLines? false) rest)
  | '\'' :: '\'' :: '\'' :: rest => after [] ['\'', '\'', '\''] (afterOpening literalLines? rest)
  | '"' :: rest => after [] ['"'] (basic? rest)
  | '\'' :: rest => after [] ['\''] (literal? rest)
  | _ => none

/-- Reads a quoted string that stays on its line, as a key must. -/
def readLine? : Text → Option Reading
  | '"' :: '"' :: '"' :: _ => none
  | '\'' :: '\'' :: '\'' :: _ => none
  | s => read? s

/-! ### Writing -/

inductive Form where
  | basic
  | literal
  | basicLines
  | literalLines
  deriving DecidableEq, Repr

/-- The most of `c` that stand in a row in a text; `run` stand before it. -/
def longestRun (c : Char) : Nat → Text → Nat
  | run, [] => run
  | run, d :: rest => if d == c then longestRun c (run + 1) rest else max run (longestRun c 0 rest)

/-- Control characters other than the tab and the line feed, which only an escape can stand for. -/
def needsEscape (c : Char) : Bool := !isPlain c && c != '\n'

/-- The form a text is written in: the first of these that shows it without an escape; if none does,
a form with escapes. -/
def form (s : Text) : Form :=
  let escapes := s.any needsEscape
  let backslash := s.contains '\\'
  let newline := s.contains '\n'
  let double := longestRun '"' 0 s
  let single := longestRun '\'' 0 s
  if !escapes && !backslash && double == 0 && !newline then .basic
  else if !escapes && single == 0 && !newline then .literal
  else if !escapes && !backslash && double ≤ 2 then .basicLines
  else if !escapes && single ≤ 2 then .literalLines
  else if newline then .basicLines
  else .basic

def hexText (width n : Nat) : Text :=
  let ds := (Nat.toDigits 16 n).map Char.toUpper
  List.replicate (width - ds.length) '0' ++ ds

/-- A character inside double quotes; `lines` says whether there are three of them. -/
def escaped (lines : Bool) (c : Char) : Text :=
  if c == '\x08' then ['\\', 'b']
  else if c == '\t' then ['\\', 't']
  else if c == '\n' then (if lines then ['\n'] else ['\\', 'n'])
  else if c == '\x0c' then ['\\', 'f']
  else if c == '\r' then ['\\', 'r']
  else if c == '\\' then ['\\', '\\']
  else if needsEscape c then '\\' :: 'u' :: hexText 4 c.toNat
  else [c]

/-- The inside of double quotes. Of double quotes in a row, those after the first `free` ones are
escaped, and the count begins again; `run` stand before the text. -/
def body (lines : Bool) (free : Nat) : Nat → Text → Text
  | _, [] => []
  | run, c :: rest =>
      if c == '"' then
        if run < free then '"' :: body lines free (run + 1) rest
        else '\\' :: '"' :: body lines free 0 rest
      else escaped lines c ++ body lines free 0 rest

/-- A string that runs over several lines begins on a line of its own. -/
def opening (s : Text) : Text := if s.contains '\n' then ['\n'] else []

def write (s : Text) : Text :=
  match form s with
  | .basic => '"' :: body false 0 0 s ++ ['"']
  | .literal => '\'' :: s ++ ['\'']
  | .basicLines => ['"', '"', '"'] ++ opening s ++ body true 2 0 s ++ ['"', '"', '"']
  | .literalLines => ['\'', '\'', '\''] ++ opening s ++ s ++ ['\'', '\'', '\'']

end DnsFilter.Toml.Quoted
