import DnsFilter.Time.Calendar
import DnsFilter.Precedence
import DnsFilter.Upsert

/-! Query statistics: for each domain asked for, how often and when last. -/

namespace DnsFilter

structure QueryCounter where
  domain : String
  count : Nat
  lastQueried : Instant
  deriving DecidableEq, Repr

namespace QueryCounter

/-- Counters by count, greatest first, then by last query, latest first, then by name. -/
def comparison (a b : QueryCounter) : Ordering :=
  (compare b.count a.count).then
    ((compare b.lastQueried a.lastQueried).then (Precedence.compareText a.domain b.domain))

end QueryCounter

structure QueryStats where
  counters : List QueryCounter
  deriving DecidableEq, Repr

namespace QueryStats

def empty : QueryStats := ⟨[]⟩

def counter? (stats : QueryStats) (domain : String) : Option QueryCounter :=
  stats.counters.find? fun c => c.domain == domain

def count (stats : QueryStats) (domain : String) : Nat :=
  match stats.counter? domain with
  | some c => c.count
  | none => 0

/-- The count under the normal spelling of a name. -/
def countFor (stats : QueryStats) (name : String) : Nat := stats.count (Name.normalize name)

/-- The counter with one more query, or a new one; queries may be told in any order of time. -/
def tallied (domain : String) (at_ : Instant) : Option QueryCounter → QueryCounter
  | none => ⟨domain, 1, at_⟩
  | some c => ⟨domain, c.count + 1, max c.lastQueried at_⟩

/-- Counts one more query. -/
def tally (domain : String) (at_ : Instant) (counters : List QueryCounter) : List QueryCounter :=
  upsert (·.domain) domain (tallied domain at_) counters

def record (stats : QueryStats) (domain : String) (at_ : Instant) : QueryStats :=
  ⟨tally domain at_ stats.counters⟩

/-- The first `limit` counters in order. -/
def top (stats : QueryStats) (limit : Nat) : List QueryCounter :=
  (stats.counters.mergeSort fun a b => (a.comparison b).isLE).take limit

/-- Drops the counters last queried before `cutoff`; the answer counts them. -/
def removeOlder (stats : QueryStats) (cutoff : Instant) : QueryStats × Nat :=
  let kept := stats.counters.filter fun c => decide (cutoff ≤ c.lastQueried)
  (⟨kept⟩, stats.counters.length - kept.length)

/-- Drops the counters last queried more than `days` days before `now`. There is no answer if that
time lies before the calendar's first day. -/
def retain? (stats : QueryStats) (days : Nat) (now : Instant) : Option (QueryStats × Nat) :=
  let cutoff := now.daysBefore days
  if cutoff < Calendar.start then none else some (stats.removeOlder cutoff)

/-! ### Histories -/

/-- What is done to the counters. -/
inductive Call where
  | record (domain : String) (at_ : Instant)
  | prune (cutoff : Instant)

def Call.isRecord : Call → Bool
  | .record _ _ => true
  | .prune _ => false

def after (stats : QueryStats) : Call → QueryStats
  | .record domain at_ => stats.record domain at_
  | .prune cutoff => (stats.removeOlder cutoff).1

/-- The counters after a history, which starts without any. -/
def run (calls : List Call) : QueryStats := calls.foldl after empty

end QueryStats

end DnsFilter
