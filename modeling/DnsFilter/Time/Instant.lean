/-! Points in time. -/

namespace DnsFilter

/-- A point in time in UTC: whole seconds from the start of 1970, and nanoseconds. A leap second is
counted with the second before it, whose nanoseconds then go on from `10 ^ 9`. Nothing in the
library reads a clock: whatever depends on the time of day is given the instant it happens at. -/
structure Instant where
  second : Int
  nanos : Nat
  deriving DecidableEq, Repr

namespace Instant

def nanosPerSecond : Nat := 1000000000

def secondsPerDay : Nat := 86400

/-! ### Order -/

instance : LE Instant :=
  ⟨fun a b => a.second < b.second ∨ (a.second = b.second ∧ a.nanos ≤ b.nanos)⟩

instance : LT Instant :=
  ⟨fun a b => a.second < b.second ∨ (a.second = b.second ∧ a.nanos < b.nanos)⟩

theorem le_iff {a b : Instant} :
    a ≤ b ↔ a.second < b.second ∨ (a.second = b.second ∧ a.nanos ≤ b.nanos) := Iff.rfl

theorem lt_iff {a b : Instant} :
    a < b ↔ a.second < b.second ∨ (a.second = b.second ∧ a.nanos < b.nanos) := Iff.rfl

instance (a b : Instant) : Decidable (a ≤ b) := decidable_of_iff' _ le_iff

instance (a b : Instant) : Decidable (a < b) := decidable_of_iff' _ lt_iff

instance : Max Instant := maxOfLe

instance : Ord Instant :=
  ⟨fun a b => (compare a.second b.second).then (compare a.nanos b.nanos)⟩

theorem not_le {a b : Instant} : ¬ a ≤ b ↔ b < a := by
  rw [le_iff, lt_iff]
  omega

theorem le_total (a b : Instant) : a ≤ b ∨ b ≤ a := by
  rw [le_iff, le_iff]
  omega

/-! ### Other instants -/

/-- The instant some nanoseconds from the start of 1970. -/
def ofNanos (n : Int) : Instant :=
  ⟨n / nanosPerSecond, (n % nanosPerSecond).toNat⟩

/-- The instant some nanoseconds later. -/
def later (t : Instant) (n : Nat) : Instant :=
  ofNanos (t.second * nanosPerSecond + t.nanos + n)

/-- The instant whole days earlier. A day before a leap second it is the second after the one the
leap second was counted with. -/
def daysBefore (t : Instant) (days : Nat) : Instant :=
  if days = 0 then t
  else if t.nanos < nanosPerSecond then ⟨t.second - days * secondsPerDay, t.nanos⟩
  else ⟨t.second + 1 - days * secondsPerDay, t.nanos - nanosPerSecond⟩

end Instant

end DnsFilter
