import DnsFilter.Rule.Matching
import DnsFilter.WildcardPolicy

/-! Root coverage. A wildcard `*.name` says nothing about `name` itself; where the policy asks for
it, a pass over the rules adds an exact rule for the root of every live wildcard, except where a
rule for the root exists already or the root is spared because it, or a name below it, is allowed
explicitly. -/

namespace DnsFilter.Coverage

/-- The rule with its root made explicit beside it, where that is asked for. -/
def expand (r : Rule) (includeRoot : Bool) : List Rule :=
  match Name.rootOfWildcard? r.domain with
  | some root =>
      if includeRoot && r.isWildcard then
        [r, { r with domain := root, kind := .exact, autoGenerated := true }]
      else [r]
  | none => [r]

/-- Whether a pass under `policy` looks at the rule. -/
def isAsked (policy : WildcardPolicy) (r : Rule) : Bool :=
  r.kind == .wildcard && policy.coversRoot r.domain

/-- The rule that covers the root of wildcard `r`: it does what the wildcard does for as long as
that, one priority lower. -/
def rootRule (r : Rule) (root : String) (now : Instant) : Rule :=
  { r with
    domain := root
    kind := .exact
    priority := r.priority.lower
    source := .system
    comment := some ("Auto-generated root coverage for " ++ r.domain)
    updatedAt := some now
    autoGenerated := true }

/-- What a pass counts. -/
structure Outcome where
  examined : Nat
  skippedExisting : Nat
  skippedAllowed : Nat
  added : Nat
  deriving DecidableEq, Repr

/-- What a pass has found so far: its counts, and the rules it is going to add. -/
structure Plan where
  examined : Nat
  skippedExisting : Nat
  skippedAllowed : Nat
  batch : List Rule
  deriving DecidableEq, Repr

def Plan.empty : Plan := ⟨0, 0, 0, []⟩

/-- Takes one rule into the plan. `existing` are the domains that have rules and `spared` the names
that explicit allows speak for. -/
def Plan.consider (policy : WildcardPolicy) (now : Instant) (existing spared : List String)
    (plan : Plan) (r : Rule) : Plan :=
  if isAsked policy r && !r.isExpired now then
    let plan := { plan with examined := plan.examined + 1 }
    match Name.rootOfWildcard? r.domain with
    | none => plan
    | some root =>
        if existing.contains root || plan.batch.any fun q => q.domain == root then
          { plan with skippedExisting := plan.skippedExisting + 1 }
        else if policy.respectAllowlist && spared.contains root then
          { plan with skippedAllowed := plan.skippedAllowed + 1 }
        else { plan with batch := plan.batch ++ [rootRule r root now] }
  else plan

/-- The plan of a pass over `rules`. -/
def plan (policy : WildcardPolicy) (now : Instant) (rules : List Rule) : Plan :=
  rules.foldl (Plan.consider policy now (rules.map (·.domain)) (allowedNames rules now)) Plan.empty

def Plan.outcome (p : Plan) (added : Nat) : Outcome :=
  ⟨p.examined, p.skippedExisting, p.skippedAllowed, added⟩

end DnsFilter.Coverage
