import DnsFilter.Name.Basic
import DnsFilter.RecordType

/-! What the response cache stores answers under: a name and a record type. Names that differ in
dots at their end or in the size of ASCII letters share a key; blanks count. -/

namespace DnsFilter.Cache

structure Key where
  domain : String
  type : RecordType
  deriving DecidableEq, Repr

namespace Key

def domainChars (s : List Char) : List Char :=
  (Text.dropEndWhile (· == '.') s).map Char.toLower

def of (domain : String) (type : RecordType) : Key :=
  ⟨String.ofList (domainChars domain.toList), type⟩

end Key

end DnsFilter.Cache
