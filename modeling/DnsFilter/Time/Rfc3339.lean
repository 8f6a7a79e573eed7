import DnsFilter.Text.Blank
import DnsFilter.Text.Decimal
import DnsFilter.Time.Calendar

/-! Instants as text, in the form of RFC 3339: `2026-01-01T00:00:00Z`. Written, they are in UTC and
have no fraction or one of 3, 6 or 9 digits, whichever is the shortest exact one. Read, they need
not have all digits of a number, and may have blanks before numbers and punctuation. -/

namespace DnsFilter.Rfc3339

open Text.Decimal (digits)
open Text (isBlank)

/-! ### Writing -/

/-- The digits of `n`, with zeros in front up to `width`. -/
def padded (width n : Nat) : List Char :=
  let ds := digits n
  List.replicate (width - ds.length) '0' ++ ds

def renderYear (year : Int) : List Char :=
  if 0 ≤ year ∧ year ≤ 9999 then padded 4 year.toNat
  else (if year < 0 then '-' else '+') :: padded 4 year.natAbs

def renderFraction (nanos : Nat) : List Char :=
  if nanos = 0 then []
  else if nanos % 1000000 = 0 then '.' :: padded 3 (nanos / 1000000)
  else if nanos % 1000 = 0 then '.' :: padded 6 (nanos / 1000)
  else '.' :: padded 9 nanos

/-- The text of an instant; a leap second is the second 60 of its minute. -/
def render (t : Instant) : String :=
  let date := Calendar.dateOf (t.second / Instant.secondsPerDay)
  let seconds := (t.second % Instant.secondsPerDay).toNat
  let leap := t.nanos / Instant.nanosPerSecond
  String.ofList <|
    renderYear date.year ++ '-' :: padded 2 date.month ++ '-' :: padded 2 date.day ++
      'T' :: padded 2 (seconds / 3600) ++ ':' :: padded 2 (seconds / 60 % 60) ++
      ':' :: padded 2 (seconds % 60 + leap) ++
      renderFraction (t.nanos % Instant.nanosPerSecond) ++ ['Z']

/-! ### Reading -/

def skipBlanks (s : List Char) : List Char := s.dropWhile isBlank

/-- Reads a row of digits, of at least one. -/
def digitRow? (s : List Char) : Option (Nat × List Char) :=
  (Text.Decimal.value? (s.takeWhile Char.isDigit)).map (·, s.dropWhile Char.isDigit)

/-- Reads a number of at most `width` digits. -/
def number? (width : Nat) (s : List Char) : Option (Nat × List Char) :=
  let s := skipBlanks s
  let ds := (s.take width).takeWhile Char.isDigit
  (Text.Decimal.value? ds).map (·, s.drop ds.length)

/-- Reads a year: at most four digits, or a sign and any number of digits. -/
def year? (s : List Char) : Option (Int × List Char) :=
  match skipBlanks s with
  | '+' :: rest => (digitRow? rest).map fun p => ((p.1 : Int), p.2)
  | '-' :: rest => (digitRow? rest).map fun p => (-(p.1 : Int), p.2)
  | s => (number? 4 s).map fun p => ((p.1 : Int), p.2)

/-- Reads a punctuation mark. -/
def mark? (c : Char) (s : List Char) : Option (List Char) :=
  match skipBlanks s with
  | d :: rest => if c == d then some rest else none
  | [] => none

def date? (s : List Char) : Option (Date × List Char) := do
  let (year, s) ← year? s
  let s ← mark? '-' s
  let (month, s) ← number? 2 s
  let s ← mark? '-' s
  let (day, s) ← number? 2 s
  if 1 ≤ month ∧ month ≤ 12 ∧ 1 ≤ day ∧ day ≤ Calendar.daysInMonth year month then
    some (⟨year, month, day⟩, s)
  else none

/-- What divides date and time: `T`, in either size, or a space. -/
def divider? : List Char → Option (List Char)
  | 'T' :: rest | 't' :: rest | ' ' :: rest => some rest
  | _ => none

/-- Reads a fraction of a second, in nanoseconds; digits after the ninth are dropped. -/
def fraction? : List Char → Option (Nat × List Char)
  | '.' :: rest =>
      let ds := rest.takeWhile Char.isDigit
      let nine := (ds ++ List.replicate 9 '0').take 9
      if ds.isEmpty then none
      else (Text.Decimal.value? nine).map (·, rest.dropWhile Char.isDigit)
  | s => some (0, s)

/-- Reads a time of day, as seconds and nanoseconds. Any minute may have a second 60, a leap
second. -/
def time? (s : List Char) : Option (Nat × Nat × List Char) := do
  let (hour, s) ← number? 2 s
  let s ← mark? ':' s
  let (minute, s) ← number? 2 s
  let s ← mark? ':' s
  let (second, s) ← number? 2 s
  let (nanos, s) ← fraction? s
  if hour < 24 ∧ minute < 60 ∧ second ≤ 60 then
    let start := hour * 3600 + minute * 60
    if second = 60 then some (start + 59, nanos + Instant.nanosPerSecond, s)
    else some (start + second, nanos, s)
  else none

def pair? : List Char → Option (Nat × List Char)
  | a :: b :: rest => (Text.Decimal.value? [a, b]).map (·, rest)
  | _ => none

/-- Reads hours and minutes, with colons or blanks between them or nothing, as seconds. -/
def hoursAndMinutes? (s : List Char) : Option (Nat × List Char) := do
  let (hours, s) ← pair? s
  let (minutes, s) ← pair? (s.dropWhile fun c => c == ':' || isBlank c)
  if minutes < 60 then some (hours * 3600 + minutes * 60, s) else none

/-- The name of the offset zero, in letters of either size. -/
def isUtc (s : List Char) : Bool := s.map Char.toUpper == ['U', 'T', 'C']

/-- Reads an offset from UTC, of less than a day, in seconds. -/
def offset? (s : List Char) : Option (Int × List Char) :=
  if isUtc (s.take 3) then some (0, s.drop 3)
  else match s with
    | 'Z' :: rest | 'z' :: rest => some (0, rest)
    | sign :: rest => do
        let (n, s) ← hoursAndMinutes? rest
        if Instant.secondsPerDay ≤ n then none
        else if sign == '+' then some ((n : Int), s)
        else if sign == '-' || sign == '\u2212' then some (-(n : Int), s)
        else none
    | [] => none

/-- Reads an instant of the calendar. -/
def parse? (text : String) : Option Instant := do
  let (date, s) ← date? text.toList
  let s ← divider? s
  let (second, nanos, s) ← time? s
  let (offset, s) ← offset? (skipBlanks s)
  let midnight := Calendar.startOfDay (Calendar.dayNumber date)
  let t : Instant := ⟨midnight.second + second - offset, nanos⟩
  if s.all isBlank ∧ Calendar.firstYear ≤ date.year ∧ date.year ≤ Calendar.lastYear ∧
      Calendar.start ≤ t ∧ t < Calendar.finish then some t
  else none

end DnsFilter.Rfc3339
