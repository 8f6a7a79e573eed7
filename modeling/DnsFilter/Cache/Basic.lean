import DnsFilter.Cache.Clock
import DnsFilter.Cache.Key
import DnsFilter.Upsert

/-! The response cache. Answers are kept until their time to live is over or until the cache is full
and they are the oldest. Beside the entries stands a queue of all insertions in order; a pair in it
whose entry was replaced or removed since is stale and is dropped when it comes up, or all at once
when the queue has grown to twice its due. Times are those of a clock of any rate. -/

namespace DnsFilter

structure CacheLimits where
  maxEntries : Nat
  /-- The longest time to live, in seconds. -/
  maxTtl : Nat
  deriving DecidableEq, Repr

/-- The limits where none are stated. -/
def CacheLimits.standard : CacheLimits := ⟨10000, 86400⟩

namespace Cache

/-- A stored answer. `statedTtl` is the time to live it came with. -/
structure Entry (α : Type) where
  payload : α
  insertedAt : Nat
  expiresAt : Nat
  statedTtl : Int
  seq : Nat
  deriving DecidableEq, Repr

/-- An entry has expired from its expiry on. -/
def Entry.isExpired {α : Type} (e : Entry α) (now : Nat) : Bool := decide (e.expiresAt ≤ now)

def Entry.remaining {α : Type} (e : Entry α) (now : Nat) : Nat := e.expiresAt - now

structure Counters where
  hits : Nat
  misses : Nat
  evictions : Nat
  expirations : Nat
  insertions : Nat
  deriving DecidableEq, Repr

def Counters.zero : Counters := ⟨0, 0, 0, 0, 0⟩

/-- The share of the look-ups that were answered; none were answered of none. -/
def Counters.hitRate (c : Counters) : Float :=
  if c.hits + c.misses = 0 then 0.0 else Float.ofNat c.hits / Float.ofNat (c.hits + c.misses)

end Cache

structure Cache (α : Type) where
  limits : CacheLimits
  entries : List (Cache.Key × Cache.Entry α)
  /-- Every insertion that is not known to be stale, oldest first. -/
  queue : List (Nat × Cache.Key)
  nextSeq : Nat
  /-- No entry expires before this. -/
  nextExpiry : Option Nat
  counters : Cache.Counters
  deriving DecidableEq, Repr

namespace Cache

variable {α : Type}

def empty (limits : CacheLimits) : Cache α := ⟨limits, [], [], 0, none, Counters.zero⟩

def size (c : Cache α) : Nat := c.entries.length

def find? (entries : List (Key × Entry α)) (key : Key) : Option (Entry α) :=
  (entries.find? fun p => p.1 == key).map (·.2)

/-- The entry under a key, whether it has expired or not. -/
def peek (c : Cache α) (key : Key) : Option (Entry α) := find? c.entries key

def without (entries : List (Key × Entry α)) (key : Key) : List (Key × Entry α) :=
  entries.filter fun p => p.1 != key

theorem find?_without (entries : List (Key × Entry α)) (key other : Key) :
    find? (without entries key) other = if key = other then none else find? entries other := by
  unfold find? without
  induction entries with
  | nil => simp
  | cons p rest ih =>
      by_cases hp : p.1 = key
      · by_cases h : key = other <;> simp_all
      · by_cases h : p.1 = other
        · have : key ≠ other := fun e => hp (h.trans e.symm)
          simp_all
        · simp_all

/-- Whether the insertion `seq` of `key` is the one its entry stems from. -/
def isCurrent (entries : List (Key × Entry α)) (seq : Nat) (key : Key) : Bool :=
  (find? entries key).any fun e => e.seq == seq

def earlier : Option Nat → Nat → Option Nat
  | some t, u => some (min t u)
  | none, u => some u

/-- Drops every expired entry. -/
def purge (c : Cache α) (now : Nat) : Cache α :=
  let kept := c.entries.filter fun p => !p.2.isExpired now
  { c with
    entries := kept
    nextExpiry := kept.foldl (fun t p => earlier t p.2.expiresAt) none
    counters := { c.counters with
      expirations := c.counters.expirations + (c.entries.length - kept.length) } }

/-- Takes insertions from the front of the queue, dropping each entry that stems from one, until
there is room below `capacity`. -/
def evict (capacity : Nat) : List (Nat × Key) → List (Key × Entry α) → Nat →
    List (Nat × Key) × List (Key × Entry α) × Nat
  | [], entries, evictions => ([], entries, evictions)
  | (seq, key) :: rest, entries, evictions =>
      if entries.length < capacity then ((seq, key) :: rest, entries, evictions)
      else if isCurrent entries seq key then
        evict capacity rest (without entries key) (evictions + 1)
      else evict capacity rest entries evictions

/-- Makes room for one more entry: expired entries go first, then the oldest ones. -/
def makeRoom (c : Cache α) (now : Nat) : Cache α :=
  let c := if c.nextExpiry.any fun t => decide (t ≤ now) then c.purge now else c
  let (queue, entries, evictions) :=
    evict c.limits.maxEntries c.queue c.entries c.counters.evictions
  { c with
    queue := queue
    entries := entries
    counters := { c.counters with evictions := evictions } }

/-- The queue may hold this many pairs for each entry before stale ones are dropped; with few
entries it is let grow as if there were this many. -/
def queueSlack : Nat := 2

def queueFloor : Nat := 16

/-- Drops the stale pairs of a queue that has grown too long. -/
def compact (c : Cache α) : Cache α :=
  if c.queue.length ≤ max c.entries.length queueFloor * queueSlack then c
  else { c with queue := c.queue.filter fun p => isCurrent c.entries p.1 p.2 }

/-- Puts an entry in the place of the one under its key, or at the end. -/
def place (key : Key) (e : Entry α) (entries : List (Key × Entry α)) : List (Key × Entry α) :=
  upsert (·.1) key (fun _ => (key, e)) entries

/-- The seconds an answer is kept that comes with a time to live of `ttl`. -/
def CacheLimits.kept (limits : CacheLimits) (ttl : Int) : Nat := min ttl.toNat limits.maxTtl

/-- Stores an answer, whose time to live is given in seconds. One that would not live, or a cache
without room for any, changes nothing. -/
def put (c : Cache α) (now : Nat) (key : Key) (payload : α) (ttl : Int)
    (rate : ClockRate := .millis) : Cache α :=
  let seconds := CacheLimits.kept c.limits ttl
  if c.limits.maxEntries = 0 ∨ seconds = 0 then c
  else
    let c := if (c.peek key).isNone && c.limits.maxEntries ≤ c.size then c.makeRoom now else c
    let expiry := now + seconds * rate.perSecond
    compact { c with
      entries := place key ⟨payload, now, expiry, ttl, c.nextSeq⟩ c.entries
      queue := c.queue ++ [(c.nextSeq, key)]
      nextSeq := c.nextSeq + 1
      nextExpiry := earlier c.nextExpiry expiry
      counters := { c.counters with insertions := c.counters.insertions + 1 } }

/-- Looks an answer up. An expired one is dropped and counts as not there. -/
def get (c : Cache α) (now : Nat) (key : Key) : Cache α × Option α :=
  match c.peek key with
  | some e =>
      if e.isExpired now then
        ({ c with
          entries := without c.entries key
          counters := { c.counters with
            misses := c.counters.misses + 1
            expirations := c.counters.expirations + 1 } }, none)
      else
        ({ c with counters := { c.counters with hits := c.counters.hits + 1 } }, some e.payload)
  | none =>
      ({ c with counters := { c.counters with misses := c.counters.misses + 1 } }, none)

/-- Drops every expired entry; the answer counts them. -/
def sweep (c : Cache α) (now : Nat) : Cache α × Nat :=
  ((c.purge now).compact, c.size - (c.purge now).size)

/-- Drops every entry and starts the counters again. -/
def clear (c : Cache α) : Cache α :=
  { c with entries := [], queue := [], nextExpiry := none, counters := Counters.zero }

/-! ### Runs -/

inductive Call (α : Type) where
  | put (domain : String) (type : RecordType) (payload : α) (ttl : Int)
  | get (domain : String) (type : RecordType)
  | peek (domain : String) (type : RecordType)
  | sweep
  | clear
  | advance (steps : Nat)

/-- A cache under way, with its clock. -/
structure Run (α : Type) where
  cache : Cache α
  now : Nat
  rate : ClockRate

namespace Run

def start (limits : CacheLimits) (rate : ClockRate) (now : Nat) : Run α :=
  ⟨Cache.empty limits, now, rate⟩

def next (r : Run α) : Call α → Run α
  | .put domain type payload ttl =>
      { r with cache := r.cache.put r.now (.of domain type) payload ttl r.rate }
  | .get domain type => { r with cache := (r.cache.get r.now (.of domain type)).1 }
  | .peek _ _ => r
  | .sweep => { r with cache := (r.cache.sweep r.now).1 }
  | .clear => { r with cache := r.cache.clear }
  | .advance steps => { r with now := r.now + steps }

def after (r : Run α) (calls : List (Call α)) : Run α := calls.foldl next r

/-- What a look-up answers. Of the other calls none has an answer to compare. -/
def answer? (r : Run α) : Call α → Option (Option α)
  | .get domain type => some (r.cache.get r.now (.of domain type)).2
  | _ => none

/-- The answers of all look-ups of a run, in order. -/
def answers (r : Run α) : List (Call α) → List (Option α)
  | [] => []
  | call :: rest => (r.answer? call).toList ++ (r.next call).answers rest

end Run

end Cache

end DnsFilter
