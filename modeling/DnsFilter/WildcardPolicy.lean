import DnsFilter.Name.Basic

/-! The wildcard policy: whether a wildcard rule is to be completed by a rule for the name it stands
over, and whether names that are allowed explicitly are spared that. -/

namespace DnsFilter

inductive WildcardMode where
  | subdomainsOnly
  | includeRoot
  | smart
  deriving DecidableEq, Repr

namespace WildcardMode

def text : WildcardMode → String
  | .subdomainsOnly => "subdomains_only"
  | .includeRoot => "include_root"
  | .smart => "smart"

def number : WildcardMode → Int
  | .subdomainsOnly => 0
  | .includeRoot => 1
  | .smart => 2

def ofNumber? : Int → Option WildcardMode
  | 0 => some .subdomainsOnly
  | 1 => some .includeRoot
  | 2 => some .smart
  | _ => none

/-- What is said of a number that is no mode. -/
def unknownMessage (n : Int) : String :=
  "Invalid wildcard mode: " ++ toString n ++ " (expected 0, 1 or 2)"

end WildcardMode

structure WildcardPolicy where
  mode : WildcardMode
  respectAllowlist : Bool
  deriving DecidableEq, Repr

namespace WildcardPolicy

/-- The policy where none is stated. -/
def standard : WildcardPolicy := ⟨.subdomainsOnly, true⟩

/-- Whether a wildcard pattern is to be completed by its root. -/
def coversRoot (policy : WildcardPolicy) (pattern : String) : Bool :=
  (Name.afterStar? pattern.toList).isSome && policy.mode != .subdomainsOnly

end WildcardPolicy

end DnsFilter
