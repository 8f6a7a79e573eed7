/-! What can go wrong with names, rules and their store, by cause. Each cause has one wording, given
by `message`; nothing else builds an error text for it. -/

namespace DnsFilter

/-- Why a text is not a domain name or pattern. -/
inductive NameFault where
  | empty
  | tooLong
  | badLabel (name : String)
  | badCharacter (name : String)
  | wildcardQuery (name : String)
  deriving DecidableEq, Repr

def NameFault.message : NameFault → String
  | .empty => "Domain cannot be empty"
  | .tooLong => "Domain cannot exceed 253 characters"
  | .badLabel name => "Invalid label in " ++ name
  | .badCharacter name => "Domain contains invalid characters: " ++ name
  | .wildcardQuery name => "Query name cannot be a wildcard: " ++ name

/-- Why a rule with a well-formed pattern is refused all the same. -/
inductive RuleFault where
  | missingStar (domain : String)
  | unexpectedStar (domain : String)
  | longComment
  | foreignSource (domain source expected : String)
  deriving DecidableEq, Repr

def RuleFault.message : RuleFault → String
  | .missingStar domain => "wildcard rule " ++ domain ++ " must start with '*.'"
  | .unexpectedStar domain => "exact rule " ++ domain ++ " must not start with '*.'"
  | .longComment => "Comment cannot exceed 500 characters"
  | .foreignSource domain source expected =>
      "rule " ++ domain ++ " has source " ++ source ++ ", expected " ++ expected

/-- A refused operation. The last four are about files: a configuration that is not valid, a file
that is no document, and one that cannot be read or written. -/
inductive Fault where
  | name (cause : NameFault)
  | rule (cause : RuleFault)
  | store (reason : String)
  | capacity (attempted limit : Nat)
  | config (reason : String)
  | malformed (path : String)
  | unreadable (path reason : String)
  | unwritable (path reason : String)
  deriving DecidableEq, Repr

def Fault.message : Fault → String
  | .name cause => "Invalid domain name: " ++ cause.message
  | .rule cause => "Invalid rule: " ++ cause.message
  | .store reason => "Rule store error: " ++ reason
  | .capacity attempted limit =>
      "Rule store capacity exceeded: " ++ toString attempted ++ " rules requested, limit is " ++
        toString limit
  | .config reason => "Configuration error: " ++ reason
  | .malformed path => "Configuration error: Failed to parse " ++ path
  | .unreadable path reason => "I/O error: Failed to read " ++ path ++ ": " ++ reason
  | .unwritable path reason => "I/O error: Failed to write " ++ path ++ ": " ++ reason

end DnsFilter
