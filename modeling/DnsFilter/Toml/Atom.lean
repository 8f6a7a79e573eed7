import DnsFilter.Time.Calendar
import DnsFilter.Toml.Value

/-! Values written without quotes or brackets: truth values, numbers, dates and times. -/

namespace DnsFilter.Toml.Atom

/-- The characters an unquoted value ends before. -/
def isEnd (c : Char) : Bool :=
  isSpace c || ['\n', '\r', ',', '[', ']', '\x7b', '\x7d', '#', '=', '"', '\''].contains c

/-- Drops the underscores of a row of digits, each of which must stand between two digits.
`afterDigit` says whether a digit stands before the text. -/
def ungroup? (isDigit : Char → Bool) : Bool → Text → Option Text
  | afterDigit, [] => if afterDigit then some [] else none
  | afterDigit, '_' :: rest => if afterDigit then ungroup? isDigit false rest else none
  | _, c :: rest => if isDigit c then (ungroup? isDigit true rest).map (c :: ·) else none

def digitValue (c : Char) : Nat :=
  if c.isDigit then c.toNat - 48 else c.toLower.toNat - 87

def isDigitOf (base : Nat) (c : Char) : Bool := c.isAlphanum && decide (digitValue c < base)

/-- The value of a row of digits to a base. -/
def natural? (base : Nat) (s : Text) : Option Nat :=
  (ungroup? (isDigitOf base) false s).map (·.foldl (fun n c => base * n + digitValue c) 0)

/-- The digits of a decimal numeral, which starts with a zero only if it is zero. -/
def decimalDigits? (s : Text) : Option Text := do
  match ← ungroup? Char.isDigit false s with
  | '0' :: _ :: _ => none
  | ds => some ds

def digitsValue (ds : Text) : Nat := ds.foldl (fun n c => 10 * n + digitValue c) 0

def unsigned? : Text → Option Nat
  | '0' :: 'x' :: rest => natural? 16 rest
  | '0' :: 'o' :: rest => natural? 8 rest
  | '0' :: 'b' :: rest => natural? 2 rest
  | s => (decimalDigits? s).map digitsValue

/-- A whole number: decimal with an optional sign, or hexadecimal, octal or binary without one. -/
def integer? : Text → Option Int
  | '+' :: rest => (decimalDigits? rest).map fun ds => (digitsValue ds : Int)
  | '-' :: rest => (decimalDigits? rest).map fun ds => -(digitsValue ds : Int)
  | s => (unsigned? s).map Int.ofNat

/-- Whether `m * 10 ^ e` rounds to a finite number of double precision. `m` has `digits` digits, the
first of which is not zero. -/
def isFinite (m digits : Nat) (e : Int) : Bool :=
  if m = 0 then true
  else if digits + e < 300 then true
  else if 400 < digits + e then false
  else
    let bound := 0x3fffffffffffff * Nat.pow 2 970
    if 0 ≤ e then decide (m * Nat.pow 10 e.toNat < bound)
    else decide (m < bound * Nat.pow 10 (-e).toNat)

def exponent? : Text → Option Int
  | '+' :: rest => (ungroup? Char.isDigit false rest).map fun ds => (digitsValue ds : Int)
  | '-' :: rest => (ungroup? Char.isDigit false rest).map fun ds => -(digitsValue ds : Int)
  | s => (ungroup? Char.isDigit false s).map fun ds => (digitsValue ds : Int)

def isExponentMark (c : Char) : Bool := c == 'e' || c == 'E'

/-- Reads a number with a fraction or an exponent: whether it is not too great. -/
def unsignedFloat? (s : Text) : Option Bool :=
  if s = "inf".toList ∨ s = "nan".toList then some true
  else
    let (mantissa, scale) := s.span fun c => !isExponentMark c
    let (whole, part) := mantissa.span (· != '.')
    let fraction? : Option Text := match part with
      | '.' :: rest => ungroup? Char.isDigit false rest
      | _ => some []
    let scale? : Option Int := match scale with
      | _ :: rest => exponent? rest
      | [] => some 0
    if part.isEmpty && scale.isEmpty then none
    else match decimalDigits? whole, fraction?, scale? with
      | some w, some f, some e =>
          let digits := (w ++ f).dropWhile (· == '0')
          some (isFinite (digitsValue digits) digits.length (e - f.length))
      | _, _, _ => none

def float? : Text → Option Bool
  | '+' :: rest => unsignedFloat? rest
  | '-' :: rest => unsignedFloat? rest
  | s => unsignedFloat? s

/-! ### Dates and times -/

def field? (a b : Char) : Option Nat :=
  if a.isDigit && b.isDigit then some (10 * digitValue a + digitValue b) else none

/-- Splits off a date. -/
def date? : Text → Option Text
  | a :: b :: c :: d :: '-' :: e :: f :: '-' :: g :: h :: rest => do
      let century ← field? a b
      let year ← field? c d
      let month ← field? e f
      let day ← field? g h
      if 1 ≤ month ∧ month ≤ 12 ∧ 1 ≤ day ∧
          day ≤ Calendar.daysInMonth (100 * century + year : Nat) month then some rest else none
  | _ => none

/-- Splits off the seconds of a time of day, if it has any; the second 60 is let pass. -/
def seconds? : Text → Option Text
  | ':' :: a :: b :: rest => do
      let second ← field? a b
      if second ≤ 60 then
        match rest with
        | '.' :: c :: more => if c.isDigit then some (more.dropWhile Char.isDigit) else none
        | _ => some rest
      else none
  | s => some s

/-- Splits off a time of day. -/
def time? : Text → Option Text
  | a :: b :: ':' :: c :: d :: rest => do
      let hour ← field? a b
      let minute ← field? c d
      if hour < 24 ∧ minute < 60 then seconds? rest else none
  | _ => none

def isOffset : Text → Bool
  | [] | ['Z'] | ['z'] => true
  | [sign, a, b, ':', c, d] =>
      (sign == '+' || sign == '-') && (field? a b).any (· < 24) && (field? c d).any (· < 60)
  | _ => false

def isDateMark (c : Char) : Bool := c == 'T' || c == 't' || c == ' '

/-- Whether a text is a date, a time, or both with an optional offset. -/
def isDate (s : Text) : Bool :=
  match date? s with
  | some [] => true
  | some (mark :: rest) => isDateMark mark && (time? rest).any isOffset
  | none => time? s == some []

/-! ### Any of these -/

def classify? (s : Text) : Option Value :=
  if s = "true".toList then some (.boolean true)
  else if s = "false".toList then some (.boolean false)
  else match integer? s with
    | some n => some (.integer n)
    | none =>
        match float? s with
        | some isFinite => some (.float isFinite)
        | none => if isDate s then some .date else none

/-- Splits off the characters of an unquoted value. A time of day may follow a date after
one space. -/
def split (s : Text) : Text × Text :=
  let (head, rest) := s.span (!isEnd ·)
  match rest with
  | ' ' :: d :: _ =>
      if date? head == some [] && d.isDigit then
        let (time, rest) := (rest.drop 1).span (!isEnd ·)
        (head ++ ' ' :: time, rest)
      else (head, rest)
  | _ => (head, rest)

/-- Reads an unquoted value, with its text. -/
def read? (s : Text) : Option (Value × Text × Text) :=
  let (text, rest) := split s
  (classify? text).map (·, text, rest)

end DnsFilter.Toml.Atom
