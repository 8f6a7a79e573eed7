import DnsFilter.Name.Basic
import DnsFilter.Fault

/-! Which texts are patterns and which are names that may be asked for. A pattern is an optional
`*.` followed by labels of 1 to 63 of the characters `a`–`z`, `0`–`9`, `-` and `_`, with single dots
between them, at most 253 bytes in all; a query is a pattern without `*.`. -/

namespace DnsFilter.Name

def maxBytes : Nat := 253

def maxLabelBytes : Nat := 63

def byteLength : List Char → Nat
  | [] => 0
  | c :: rest => c.utf8Size + byteLength rest

/-- The characters a label may hold. -/
def isLabelChar (c : Char) : Bool :=
  c.isLower || c.isDigit || c == '-' || c == '_'

/-- The first fault among the labels of `pattern`; of one label, its length is judged first. -/
def labelFault? (pattern : String) : List (List Char) → Option NameFault
  | [] => none
  | label :: rest =>
      if label.isEmpty || maxLabelBytes < byteLength label then some (.badLabel pattern)
      else if !label.all isLabelChar then some (.badCharacter pattern)
      else labelFault? pattern rest

/-- Why `pattern` is no pattern, or `none` if it is one. -/
def patternFault? (pattern : String) : Option NameFault :=
  let s := pattern.toList
  if s.isEmpty then some .empty
  else if maxBytes < byteLength s then some .tooLong
  else labelFault? pattern (labels ((afterStar? s).getD s))

/-- Why `name` may not be asked for, or `none` if it may. -/
def queryFault? (name : String) : Option NameFault :=
  if (afterStar? name.toList).isSome then some (.wildcardQuery name) else patternFault? name

end DnsFilter.Name
