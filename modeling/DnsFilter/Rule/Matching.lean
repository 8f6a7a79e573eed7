import DnsFilter.Precedence

/-! Finding the rules about a name, and the names that are allowed explicitly. Whatever keeps the
rules is read through two things only: the rule kept for a domain, and the list of all rules. -/

namespace DnsFilter

/-- What can be read of a keeper of rules. -/
structure RuleView where
  ruleFor : String → Option Rule
  rules : List Rule

namespace RuleView

/-- Adds the wildcard rule kept over `parent`, unless a rule with its domain was found before. -/
def probe (view : RuleView) (found : List Rule) (parent : List Char) : List Rule :=
  if parent.isEmpty then found
  else match view.ruleFor (Name.wildcardOver parent) with
    | some r => if found.any fun m => m.domain == r.domain then found else found ++ [r]
    | none => found

/-- The rules about `name`: the one kept for the name itself, then the wildcards over the names
above it, nearest first, and then once more the wildcard over the topmost one. -/
def findMatches (view : RuleView) (name : String) : List Rule :=
  let parents := Name.parents name.toList
  let found := parents.foldl view.probe (view.ruleFor name).toList
  match parents.getLast? with
  | some top => view.probe found top
  | none => found

/-- The action the rules ask for, expired ones included. -/
def resolve (view : RuleView) (name : String) : Action :=
  match Precedence.sort name (view.findMatches name) with
  | r :: _ => r.action
  | [] => .unknown

end RuleView

/-- Whether the rule allows one name, by an exact rule that has not expired. -/
def Rule.isLiveAllow (r : Rule) (now : Instant) : Bool :=
  r.action == .allow && !r.isWildcard && !r.isExpired now

/-- Whether some explicit allow is kept for `name` or for a name below it. -/
def RuleView.hasExplicitAllow (view : RuleView) (name : String) (now : Instant) : Bool :=
  (view.ruleFor name).any (·.isLiveAllow now) ||
    view.rules.any fun r => r.isLiveAllow now && Name.isSameOrBelow r.domain name

/-- The names that explicit allows speak for: the domain of each, and what follows a dot in it. -/
def allowedNames (rules : List Rule) (now : Instant) : List String :=
  (rules.filter (·.isLiveAllow now)).flatMap fun r =>
    r.domain :: (Name.parents r.domain.toList).map String.ofList

end DnsFilter
