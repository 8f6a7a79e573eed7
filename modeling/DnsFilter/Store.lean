import DnsFilter.Rule.Matching
import DnsFilter.Upsert

/-! The rule store: at most one rule for each domain, and at most a given number of rules where a
limit is set. A write either takes effect as a whole or is refused and leaves the store as it was.
Whatever a write does, removals included, the rules it comes to are judged against the limit before
they take the place of the old ones. -/

namespace DnsFilter

structure Store where
  rules : List Rule
  limit : Option Nat
  deriving DecidableEq, Repr

namespace Store

def empty (limit : Option Nat) : Store := ⟨[], limit⟩

def ruleFor (s : Store) (domain : String) : Option Rule :=
  s.rules.find? fun r => r.domain == domain

def view (s : Store) : RuleView := ⟨s.ruleFor, s.rules⟩

def size (s : Store) : Nat := s.rules.length

def fromSource (s : Store) (source : Source) : List Rule :=
  s.rules.filter fun r => r.source == source

/-- Puts a rule in the place of the one with its domain, or at the end. -/
def place (rules : List Rule) (r : Rule) : List Rule := upsert (·.domain) r.domain (fun _ => r) rules

/-- Puts a rule at the end and counts it, unless its domain has one. -/
def countMissing (p : List Rule × Nat) (r : Rule) : List Rule × Nat :=
  if p.1.any fun q => q.domain == r.domain then p else (p.1 ++ [r], p.2 + 1)

/-- The fault of the first rule that a store does not accept. -/
def batchFault? (batch : List Rule) : Option Fault := batch.findSome? Rule.fault?

/-- The store with these rules instead, unless they are more than its limit. -/
def settle (s : Store) (rules : List Rule) : Except Fault Store :=
  match s.limit with
  | some limit =>
      if limit < rules.length then .error (.capacity rules.length limit)
      else .ok { s with rules := rules }
  | none => .ok { s with rules := rules }

/-- Adds rules, each in the place of an earlier one for its domain; the answer counts the batch. -/
def add (s : Store) (batch : List Rule) : Except Fault (Store × Nat) :=
  match batchFault? batch with
  | some cause => .error cause
  | none => do
      let next ← s.settle (batch.foldl place s.rules)
      return (next, batch.length)

/-- Adds those rules whose domain has none; the answer counts them as they are added. -/
def addMissing (s : Store) (batch : List Rule) : Except Fault (Store × Nat) :=
  match batchFault? batch with
  | some cause => .error cause
  | none => do
      let (rules, added) := batch.foldl countMissing (s.rules, 0)
      let next ← s.settle rules
      return (next, added)

/-- Puts the batch in the place of all rules from `source`; the answer counts the batch. A rule in
it from elsewhere is refused. -/
def replaceSource (s : Store) (source : Source) (batch : List Rule) : Except Fault (Store × Nat) :=
  match batchFault? batch with
  | some cause => .error cause
  | none =>
      match batch.find? fun r => r.source != source with
      | some r => .error (.rule (.foreignSource r.domain r.source.text source.text))
      | none => do
          let kept := s.rules.filter fun r => r.source != source
          let next ← s.settle (batch.foldl place kept)
          return (next, batch.length)

/-- Keeps only the rules that satisfy `p`; the answer counts the others. -/
def keep (s : Store) (p : Rule → Bool) : Except Fault (Store × Nat) := do
  let next ← s.settle (s.rules.filter p)
  return (next, s.size - next.size)

/-- Removes the rule for a domain; the answer says whether there was one. Without one, nothing is
written. -/
def tryRemove (s : Store) (domain : String) : Except Fault (Store × Bool) :=
  if (s.ruleFor domain).isSome then
    (s.keep fun r => r.domain != domain).map fun answer => (answer.1, answer.2 != 0)
  else .ok (s, false)

def tryRemoveSource (s : Store) (source : Source) : Except Fault (Store × Nat) :=
  s.keep fun r => r.source != source

/-- Removes the rules that have run out. Where there are none, nothing is written. -/
def tryRemoveExpired (s : Store) (now : Instant) : Except Fault (Store × Nat) :=
  if s.rules.any fun r => r.isExpired now then s.keep fun r => !r.isExpired now
  else .ok (s, 0)

/-! Removals for callers to whom a refusal is of no concern: one that is refused removes nothing. -/

def remove (s : Store) (domain : String) : Store × Bool :=
  (s.tryRemove domain).toOption.getD (s, false)

def removeSource (s : Store) (source : Source) : Store × Nat :=
  (s.tryRemoveSource source).toOption.getD (s, 0)

def removeExpired (s : Store) (now : Instant) : Store × Nat :=
  (s.tryRemoveExpired now).toOption.getD (s, 0)

/-! ### Writes of any kind -/

inductive Write where
  | add (batch : List Rule)
  | addMissing (batch : List Rule)
  | replaceSource (source : Source) (batch : List Rule)
  | remove (domain : String)
  | removeSource (source : Source)
  | removeExpired (now : Instant)

/-- The store after a write, or why the write is refused. -/
def write (s : Store) : Write → Except Fault Store
  | .add batch => (s.add batch).map (·.1)
  | .addMissing batch => (s.addMissing batch).map (·.1)
  | .replaceSource source batch => (s.replaceSource source batch).map (·.1)
  | .remove domain => (s.tryRemove domain).map (·.1)
  | .removeSource source => (s.tryRemoveSource source).map (·.1)
  | .removeExpired now => (s.tryRemoveExpired now).map (·.1)

end Store

end DnsFilter
