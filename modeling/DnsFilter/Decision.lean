import DnsFilter.Rule.Matching
import DnsFilter.QueryStats

/-! Deciding about a name: the live rules about it in order of precedence, and what the first one
says. -/

namespace DnsFilter

structure Decision where
  domain : String
  action : Action
  winner : Option Rule
  candidates : List Rule
  deriving DecidableEq, Repr

namespace Decision

/-- The decision on a name that may be asked for. -/
def of (view : RuleView) (name : String) (now : Instant) : Decision :=
  let live := (view.findMatches name).filter fun r => !r.isExpired now
  let candidates := Precedence.sort name live
  { domain := name
    action := match candidates.head? with
      | some r => r.action
      | none => .unknown
    winner := candidates.head?
    candidates := candidates }

end Decision

/-- Checks a name as it was typed; it is taken in its normal spelling. -/
def RuleView.check (view : RuleView) (typed : String) (now : Instant) : Except Fault Decision :=
  let name := Name.normalize typed
  match Name.queryFault? name with
  | some cause => .error (.name cause)
  | none => .ok (Decision.of view name now)

/-- Checks a name and counts the query; a refused one is not counted. -/
def RuleView.checkCounted (view : RuleView) (stats : QueryStats) (typed : String) (now : Instant) :
    Except Fault Decision × QueryStats :=
  match view.check typed now with
  | .ok decision => (.ok decision, stats.record decision.domain now)
  | .error cause => (.error cause, stats)

end DnsFilter
