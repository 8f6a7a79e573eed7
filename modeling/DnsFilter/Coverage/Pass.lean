import DnsFilter.Coverage.Plan
import DnsFilter.Keeper

/-! Passes of root coverage over a keeper of rules, and the change of policy that triggers one. -/

namespace DnsFilter

variable {σ : Type}

namespace Coverage

/-- One pass: the planned rules are added where their domain has none. With nothing to add, nothing
is written. -/
def pass (k : Keeper σ) (s : σ) (policy : WildcardPolicy) (now : Instant) :
    Except Fault (σ × Outcome) :=
  let p := plan policy now (k.view s).rules
  if p.batch.isEmpty then .ok (s, p.outcome 0)
  else do
    let (next, added) ← k.addMissing s p.batch
    return (next, p.outcome added)

/-- The state after a pass whose refusal is of no concern. -/
def passOrKeep (k : Keeper σ) (s : σ) (policy : WildcardPolicy) (now : Instant) : σ :=
  match pass k s policy now with
  | .ok (next, _) => next
  | .error _ => s

end Coverage

/-- What a change of policy leaves behind: the policy in force, the rules, and the answer. -/
structure PolicyChange (σ : Type) where
  policy : WildcardPolicy
  rules : σ
  answer : Except Fault WildcardPolicy

/-- Changes the policy from `previous` to `policy`. The new policy is in force whatever happens
next; with `covering`, a coverage pass runs under it, whose refusal is not reported; `saving` is the
outcome of saving it, and decides the answer. -/
def changePolicy (k : Keeper σ) (s : σ) (previous policy : WildcardPolicy) (covering : Bool)
    (now : Instant) (saving : Except Fault Unit) : PolicyChange σ where
  policy := policy
  rules := if covering then Coverage.passOrKeep k s policy now else s
  answer := saving.map fun _ => previous

/-! ### The change, step by step -/

/-- What a change of policy works on: the policy in force, the rules, and what policies are saved in. -/
structure PolicyState (σ τ : Type) where
  policy : WildcardPolicy
  rules : σ
  saved : τ

namespace PolicyState

variable {τ : Type}

/-- Puts a policy in force. The answer is the one that was. -/
def install (policy : WildcardPolicy) : StateM (PolicyState σ τ) WildcardPolicy :=
  modifyGet fun d => (d.policy, { d with policy := policy })

/-- A pass under the policy in force. -/
def cover (k : Keeper σ) (now : Instant) :
    StateM (PolicyState σ τ) (Except Fault Coverage.Outcome) :=
  modifyGet fun d =>
    match Coverage.pass k d.rules d.policy now with
    | .ok (next, outcome) => (.ok outcome, { d with rules := next })
    | .error cause => (.error cause, d)

def persist (save : WildcardPolicy → StateM τ (Except Fault Unit)) (policy : WildcardPolicy) :
    StateM (PolicyState σ τ) (Except Fault Unit) :=
  modifyGet fun d =>
    let (answer, saved) := (save policy).run d.saved
    (answer, { d with saved := saved })

def change (k : Keeper σ) (save : WildcardPolicy → StateM τ (Except Fault Unit))
    (policy : WildcardPolicy) (covering : Bool) (now : Instant) :
    StateM (PolicyState σ τ) (Except Fault WildcardPolicy) := do
  let previous ← install policy
  if covering then
    let _ ← cover k now
  let saving ← persist save policy
  return saving.map fun _ => previous

/-- The state after a change to a policy at a time. -/
def after (k : Keeper σ) (save : WildcardPolicy → StateM τ (Except Fault Unit)) (covering : Bool)
    (d : PolicyState σ τ) (request : WildcardPolicy × Instant) : PolicyState σ τ :=
  ((change k save request.1 covering request.2).run d).2

end PolicyState

end DnsFilter
