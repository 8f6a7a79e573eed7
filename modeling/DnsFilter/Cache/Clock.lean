/-! The clocks of the cache. Each counts steps of its own length, of which so many make a second. -/

namespace DnsFilter.Cache

/-- How many steps of a clock make a second. -/
structure ClockRate where
  perSecond : Nat
  pos : 0 < perSecond

/-- The rate of a clock that counts milliseconds. -/
def ClockRate.millis : ClockRate := ⟨1000, by decide⟩

/-- A clock that moves only when it is told to. It counts whole milliseconds with 64 bits: after the
last one it starts over. -/
structure SteppedClock where
  millis : UInt64
  deriving DecidableEq, Repr

namespace SteppedClock

def zero : SteppedClock := ⟨0⟩

def now (c : SteppedClock) : Nat := c.millis.toNat

/-- Moves the clock. Of a step, what is less than a millisecond is lost. -/
def advance (c : SteppedClock) (micros : Nat) : SteppedClock :=
  ⟨c.millis + UInt64.ofNat (micros / 1000)⟩

theorem now_advance (c : SteppedClock) (micros : Nat) :
    (c.advance micros).now = (c.now + micros / 1000) % UInt64.size := by
  simp [advance, now, UInt64.toNat_add, UInt64.size]

end SteppedClock

end DnsFilter.Cache
