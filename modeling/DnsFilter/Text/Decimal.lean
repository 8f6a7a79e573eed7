/-! Decimal numerals: the digits of a natural number, and reading numerals with an optional sign
under a bound. -/

namespace DnsFilter.Text.Decimal

/-- The decimal digits of `n`, without leading zeros. -/
def digits (n : Nat) : List Char := Nat.toDigits 10 n

/-- The value of a non-empty row of ASCII digits; leading zeros are allowed. -/
def value? (s : List Char) : Option Nat :=
  if !s.isEmpty && s.all Char.isDigit then some (Nat.ofDigitChars 10 s 0) else none

/-- A numeral with an optional plus sign, of value at most `bound`. -/
def unsigned? (bound : Nat) (s : List Char) : Option Nat :=
  let body := match s with
    | '+' :: rest => rest
    | _ => s
  (value? body).filter (· ≤ bound)

/-- A numeral with an optional sign, of value from `-2^63` to `2^63 - 1`. -/
def signed? (s : List Char) : Option Int :=
  match s with
  | '-' :: rest => ((value? rest).filter (· ≤ 0x8000000000000000)).map fun n => -(n : Int)
  | _ => (unsigned? 0x7fffffffffffffff s).map Int.ofNat

end DnsFilter.Text.Decimal
