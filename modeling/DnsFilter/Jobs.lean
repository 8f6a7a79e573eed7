import DnsFilter.Cache.Basic
import DnsFilter.Coverage.Pass
import DnsFilter.Decision

/-! Background jobs. Each job makes a pass when it is started and one after every interval from then
on, until it is cancelled. Elapsed time is counted in whole seconds; jobs due in the same second
make their passes in the order of the list. The time of day and the cache's clock are told from
outside. Letting time pass costs as much as the passes that fall into it, however long it is, and
two spells of time in a row do what one of their sum does. -/

namespace DnsFilter

/-- The state the jobs work on. -/
structure Services (α : Type) where
  rules : Store
  policy : WildcardPolicy
  cache : Cache α
  stats : QueryStats
  deriving DecidableEq, Repr

/-- A check by the rules of the services, counted in their statistics. -/
def Services.check {α : Type} (s : Services α) (typed : String) (now : Instant) :
    Except Fault Decision × Services α :=
  let (answer, stats) := s.rules.view.checkCounted s.stats typed now
  (answer, { s with stats := stats })

inductive Job where
  | coverage
  | sweep
  | expiry
  | retention (days : Nat)
  deriving DecidableEq, Repr

namespace Job

variable {α : Type}

/-- The interval where none is stated, in seconds. -/
def standardInterval : Job → Nat
  | .coverage => 300
  | .sweep => 60
  | .expiry => 300
  | .retention _ => 3600

/-- One pass, at a time of day and a time of the cache's clock. There is no answer if the pass
cannot be made at all; a pass that is refused changes nothing. -/
def pass? (job : Job) (s : Services α) (now : Instant) (cacheNow : Nat) : Option (Services α) :=
  match job with
  | .coverage => some { s with rules := Coverage.passOrKeep Store.keeper s.rules s.policy now }
  | .sweep => some { s with cache := (s.cache.sweep cacheNow).1 }
  | .expiry => some { s with rules := (s.rules.removeExpired now).1 }
  | .retention days =>
      (s.stats.retain? days now).map fun p => { s with stats := p.1 }

end Job

/-- One pass of a job and what it depends on: the order in which the rules are listed to it, the wall
clock in nanoseconds from the start of 1970, which knows no leap seconds, and the clock of the cache. -/
structure Pass where
  job : Job
  order : Listing
  clock : Int
  cacheClock : Nat

namespace Pass

variable {α : Type}

def now (p : Pass) : Instant := .ofNanos p.clock

/-- The pass over the services; there is no answer if it cannot be made. -/
def run? (p : Pass) (s : Services α) : Option (Services α) :=
  if p.job = .coverage then
    some { s with rules := Coverage.passOrKeep p.order.keeper s.rules s.policy p.now }
  else p.job.pass? s p.now p.cacheClock

/-- Whether a pass is not later than another one, by both clocks. -/
def Before (p q : Pass) : Prop := p.clock ≤ q.clock ∧ p.cacheClock ≤ q.cacheClock

instance (p q : Pass) : Decidable (p.Before q) := inferInstanceAs (Decidable (_ ∧ _))

def isRetention (p : Pass) : Bool :=
  match p.job with
  | .retention _ => true
  | _ => false

/-! What a pass is there to drop. -/

def dropsRule (p : Pass) (r : Rule) : Bool := p.job == .expiry && r.isExpired p.now

def dropsEntry (p : Pass) (e : Cache.Entry α) : Bool := p.job == .sweep && e.isExpired p.cacheClock

def dropsCounter (p : Pass) (c : QueryCounter) : Bool :=
  match p.job with
  | .retention days =>
      decide (Calendar.start ≤ p.now.daysBefore days) &&
        decide (c.lastQueried < p.now.daysBefore days)
  | .coverage | .sweep | .expiry => false

end Pass

/-- The services after a pass. One that cannot be made leaves them as they are. -/
def Services.after {α : Type} (s : Services α) (p : Pass) : Services α := (p.run? s).getD s

/-- What a job listens to. Each comes with a token of its own, which nobody cancels; the jobs of a
run that can be cancelled share one. -/
inductive Token where
  | own
  | shared
  deriving DecidableEq, Repr

/-- A started job. It has ended when its token was cancelled, or when a pass could not be made. -/
structure JobHandle where
  job : Job
  interval : Nat
  token : Token
  ended : Bool
  deriving DecidableEq, Repr

namespace JobHandle

/-- A job with its interval in seconds, of which there is at least one. A token that it is given
takes the place of its own. -/
def start (job : Job) (interval : Nat) (given : Option Token) : JobHandle :=
  ⟨job, max interval 1, given.getD .own, false⟩

/-- The job after the shared token was cancelled. -/
def cancel (h : JobHandle) : JobHandle :=
  if h.token = .shared then { h with ended := true } else h

/-- Whether the handle makes a pass in the given second. -/
def isDue (second : Nat) (h : JobHandle) : Bool := !h.ended && second % h.interval == 0

/-- How many seconds go by after the given one before that of the next pass. -/
def idle (second : Nat) (h : JobHandle) : Nat := h.interval - 1 - second % h.interval

theorem idle_add {h : JobHandle} {second k : Nat} (hk : k ≤ h.idle second) :
    h.idle (second + k) = h.idle second - k := by
  unfold idle at *
  rcases Nat.eq_zero_or_pos h.interval with hi | hi
  · simp_all
  · have hr := Nat.mod_lt second hi
    have : (second + k) % h.interval = second % h.interval + k := by
      rw [Nat.add_mod, Nat.mod_eq_of_lt (a := k) (by omega), Nat.mod_eq_of_lt (by omega)]
    omega

end JobHandle

/-- Started jobs and the seconds since their start. -/
structure JobRun where
  handles : List JobHandle
  elapsed : Nat
  deriving DecidableEq, Repr

namespace JobRun

variable {α : Type}

/-- The passes of one second. -/
def tick (now : Instant) (cacheNow second : Nat) :
    List JobHandle → Services α → List JobHandle × Services α
  | [], s => ([], s)
  | h :: rest, s =>
      if h.isDue second then
        match h.job.pass? s now cacheNow with
        | some next =>
            let (rest, last) := tick now cacheNow second rest next
            (h :: rest, last)
        | none =>
            let (rest, last) := tick now cacheNow second rest s
            ({ h with ended := true } :: rest, last)
      else
        let (rest, last) := tick now cacheNow second rest s
        (h :: rest, last)

/-- Starts the jobs, each with its interval, and gives them one token if they can be cancelled; they
make their first passes. -/
def start (jobs : List (Job × Nat)) (cancellable : Bool) (s : Services α) (now : Instant)
    (cacheNow : Nat) : JobRun × Services α :=
  let given := if cancellable then some Token.shared else none
  let handles := jobs.map fun p => JobHandle.start p.1 p.2 given
  let (handles, s) := tick now cacheNow 0 handles s
  (⟨handles, 0⟩, s)

/-- How many seconds go by before that of the next pass of any job. Without a job that goes on there
is none. -/
def idle? (run : JobRun) : Option Nat :=
  ((run.handles.filter fun h => !h.ended).map (·.idle run.elapsed)).min?

theorem idle?_add {run : JobRun} {idle k : Nat} (h : run.idle? = some idle) (hk : k ≤ idle) :
    { run with elapsed := run.elapsed + k }.idle? = some (idle - k) := by
  unfold idle? at *
  rw [List.min?_eq_some_iff] at *
  simp only [List.mem_map] at *
  obtain ⟨⟨g, hg, rfl⟩, hle⟩ := h
  refine ⟨⟨g, hg, JobHandle.idle_add hk⟩, ?_⟩
  rintro _ ⟨q, hq, rfl⟩
  have := hle _ ⟨q, hq, rfl⟩
  rw [JobHandle.idle_add (by omega)]
  omega

theorem idle?_add_eq_none {run : JobRun} {k : Nat} (h : run.idle? = none) :
    { run with elapsed := run.elapsed + k }.idle? = none := by
  unfold idle? at *
  simpa [List.min?_eq_none_iff] using h

/-- Lets seconds pass. `clock` gives the time of day and `cacheClock` the time of the cache's clock
for each second since the start. -/
def advance (clock : Nat → Instant) (cacheClock : Nat → Nat) (n : Nat) :
    JobRun × Services α → JobRun × Services α
  | (run, s) =>
      match run.idle? with
      | some idle =>
          if idle < n then
            let second := run.elapsed + idle + 1
            let (handles, s) := tick (clock second) (cacheClock second) second run.handles s
            advance clock cacheClock (n - (idle + 1))
              ({ run with handles := handles, elapsed := second }, s)
          else ({ run with elapsed := run.elapsed + n }, s)
      | none => ({ run with elapsed := run.elapsed + n }, s)
termination_by n

theorem advance_add (clock : Nat → Instant) (cacheClock : Nat → Nat) (m n : Nat)
    (p : JobRun × Services α) :
    advance clock cacheClock (m + n) p =
      advance clock cacheClock n (advance clock cacheClock m p) := by
  fun_induction advance clock cacheClock m p with
  | case1 m run s idle h hm second handles s' ht ih =>
      simp only [second] at ht
      rw [advance.eq_1]
      simp only [h]
      rw [if_pos (by omega), show m + n - (idle + 1) = m - (idle + 1) + n by omega, ← ih, ht]
  | case2 m run s idle h hm =>
      have hs : run.elapsed + m + (idle - m) + 1 = run.elapsed + idle + 1 := by omega
      have hn : n - (idle - m + 1) = m + n - (idle + 1) := by omega
      have hc : idle - m < n ↔ idle < m + n := by omega
      rw [advance.eq_1, advance.eq_1 clock cacheClock n]
      simp only [h, idle?_add h (Nat.le_of_not_lt hm), hs, hn, hc, Nat.add_assoc run.elapsed m n]
  | case3 m run s h =>
      rw [advance.eq_1, advance.eq_1 clock cacheClock n]
      simp only [h, idle?_add_eq_none h, Nat.add_assoc]

/-- Cancels the shared token. -/
def cancel (run : JobRun) : JobRun := { run with handles := run.handles.map (·.cancel) }

def finished (run : JobRun) : Nat := (run.handles.filter (·.ended)).length

/-! ### What happens from outside -/

/-- What happens to started jobs. -/
inductive Event (α : Type) where
  /-- Time passes, in nanoseconds. -/
  | elapse (span : Nat)
  /-- Rules, policy, cache or counters are changed by somebody else. -/
  | change (f : Services α → Services α)
  /-- The shared token is cancelled. -/
  | cancel

def Event.change? : Event α → Option (Services α → Services α)
  | .change f => some f
  | .elapse _ | .cancel => none

/-- Jobs under way: with the nanoseconds that have gone by since the last full second, and with the
services they work on. -/
structure State (α : Type) where
  run : JobRun
  nanos : Nat
  services : Services α

namespace State

variable (clock : Nat → Instant) (cacheClock : Nat → Nat)

def start (jobs : List (Job × Nat)) (cancellable : Bool) (s : Services α) : State α :=
  let begun := JobRun.start jobs cancellable s (clock 0) (cacheClock 0)
  ⟨begun.1, 0, begun.2⟩

def elapse (span : Nat) (st : State α) : State α :=
  let total := st.nanos + span
  let later := advance clock cacheClock (total / Instant.nanosPerSecond) (st.run, st.services)
  ⟨later.1, total % Instant.nanosPerSecond, later.2⟩

def next (st : State α) : Event α → State α
  | .elapse span => st.elapse clock cacheClock span
  | .change f => { st with services := f st.services }
  | .cancel => { st with run := st.run.cancel }

def after (st : State α) (events : List (Event α)) : State α :=
  events.foldl (next clock cacheClock) st

end State

end JobRun

end DnsFilter
