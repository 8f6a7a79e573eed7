import DnsFilter.Text.Decimal

/-! Record types: the kinds of data a query asks for, with their numbers on the wire. Thirteen have
names; the others are written `TYPE` and their number. -/

namespace DnsFilter

inductive RecordType where
  | a
  | ns
  | cname
  | soa
  | ptr
  | mx
  | txt
  | aaaa
  | srv
  | svcb
  | https
  | any
  | caa
  /-- A type given by its number alone. It differs from the named type with that number. -/
  | other (code : UInt16)
  deriving DecidableEq, Repr

namespace RecordType

/-- The types that have a name. -/
def named : List RecordType :=
  [.a, .ns, .cname, .soa, .ptr, .mx, .txt, .aaaa, .srv, .svcb, .https, .any, .caa]

/-- The number on the wire. -/
def code : RecordType → UInt16
  | .a => 1
  | .ns => 2
  | .cname => 5
  | .soa => 6
  | .ptr => 12
  | .mx => 15
  | .txt => 16
  | .aaaa => 28
  | .srv => 33
  | .svcb => 64
  | .https => 65
  | .any => 255
  | .caa => 257
  | .other code => code

/-- The type with this number: the named one if there is one. -/
def ofCode : UInt16 → RecordType
  | 1 => .a
  | 2 => .ns
  | 5 => .cname
  | 6 => .soa
  | 12 => .ptr
  | 15 => .mx
  | 16 => .txt
  | 28 => .aaaa
  | 33 => .srv
  | 64 => .svcb
  | 65 => .https
  | 255 => .any
  | 257 => .caa
  | code => .other code

/-- The name; all types without one share `OTHER`. -/
def name : RecordType → String
  | .a => "A"
  | .ns => "NS"
  | .cname => "CNAME"
  | .soa => "SOA"
  | .ptr => "PTR"
  | .mx => "MX"
  | .txt => "TXT"
  | .aaaa => "AAAA"
  | .srv => "SRV"
  | .svcb => "SVCB"
  | .https => "HTTPS"
  | .any => "ANY"
  | .caa => "CAA"
  | .other _ => "OTHER"

/-- The written form, which `ofText?` reads back. -/
def text : RecordType → String
  | .other code => String.ofList ('T' :: 'Y' :: 'P' :: 'E' :: Text.Decimal.digits code.toNat)
  | t => t.name

/-- The type with this name. -/
def ofName? : String → Option RecordType
  | "A" => some .a
  | "AAAA" => some .aaaa
  | "CNAME" => some .cname
  | "MX" => some .mx
  | "TXT" => some .txt
  | "PTR" => some .ptr
  | "SRV" => some .srv
  | "SOA" => some .soa
  | "NS" => some .ns
  | "CAA" => some .caa
  | "SVCB" => some .svcb
  | "HTTPS" => some .https
  | "ANY" => some .any
  | _ => none

/-- Reads a type, in small or capital letters: a name, or `TYPE` and a number below `2^16` with an
optional plus sign and any leading zeros. -/
def ofText? (s : String) : Option RecordType :=
  let upper := s.toList.map Char.toUpper
  match ofName? (String.ofList upper) with
  | some t => some t
  | none =>
      match upper with
      | 'T' :: 'Y' :: 'P' :: 'E' :: digits =>
          (Text.Decimal.unsigned? 0xffff digits).map fun n => ofCode n.toUInt16
      | _ => none

/-- What is said of a text that names no type. -/
def unknownMessage (s : String) : String := "Unknown record type: " ++ s

end RecordType

end DnsFilter
