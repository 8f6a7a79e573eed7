import DnsFilter.Time.Calendar

/-! Instants and the nanoseconds from the start of 1970 to them. Without leap seconds the two are the
same thing: they have the same order, and going back whole days takes the nanoseconds of these days away.
In a leap second the nanoseconds run into the next second, which is also where going back begins. -/

namespace DnsFilter

namespace Instant

variable {t u v : Instant} {m n : Int}

def nanosPerDay : Nat := secondsPerDay * nanosPerSecond

/-- The nanoseconds from the start of 1970 to an instant. -/
def sinceEpoch (t : Instant) : Int := t.second * nanosPerSecond + t.nanos

/-! ### Order -/

theorem le_trans (htu : t ≤ u) (huv : u ≤ v) : t ≤ v := by
  rw [le_iff] at *
  omega

theorem ofNanos_le_ofNanos_iff : ofNanos m ≤ ofNanos n ↔ m ≤ n := by
  simp only [le_iff, ofNanos, nanosPerSecond]
  omega

theorem ofNanos_lt_ofNanos_iff : ofNanos m < ofNanos n ↔ m < n := by
  rw [← not_le, ofNanos_le_ofNanos_iff, Int.not_le]

/-! ### Going back -/

theorem sinceEpoch_ofNanos (n : Int) : (ofNanos n).sinceEpoch = n := by
  simp only [sinceEpoch, ofNanos, nanosPerSecond]
  omega

theorem ofNanos_mul_add {a : Int} {b : Nat} (hb : b < nanosPerSecond) :
    ofNanos (a * nanosPerSecond + b) = ⟨a, b⟩ := by
  simp only [ofNanos, nanosPerSecond, mk.injEq] at *
  omega

theorem daysBefore_eq_ofNanos {days : Nat} (hdays : days ≠ 0) (ht : t.nanos < 2 * nanosPerSecond) :
    t.daysBefore days = ofNanos (t.sinceEpoch - days * nanosPerDay) := by
  have hday : (days * nanosPerDay : Int) = days * secondsPerDay * nanosPerSecond := by
    simp only [nanosPerDay, nanosPerSecond, secondsPerDay]
    omega
  by_cases hleap : t.nanos < nanosPerSecond
  · calc
      t.daysBefore days = ⟨t.second - days * secondsPerDay, t.nanos⟩ := by
        rw [daysBefore, if_neg hdays, if_pos hleap]
      _ = ofNanos ((t.second - days * secondsPerDay) * nanosPerSecond + t.nanos) :=
        (ofNanos_mul_add hleap).symm
      _ = ofNanos (t.sinceEpoch - days * nanosPerDay) := by
        rw [sinceEpoch, hday, Int.sub_mul]
        congr 1
        omega
  · have hrest : t.nanos - nanosPerSecond < nanosPerSecond := by omega
    calc
      t.daysBefore days =
          ⟨t.second + 1 - days * secondsPerDay, t.nanos - nanosPerSecond⟩ := by
        rw [daysBefore, if_neg hdays, if_neg hleap]
      _ = ofNanos ((t.second + 1 - days * secondsPerDay) * nanosPerSecond +
          (t.nanos - nanosPerSecond : Nat)) := (ofNanos_mul_add hrest).symm
      _ = ofNanos (t.sinceEpoch - days * nanosPerDay) := by
        rw [sinceEpoch, hday, Int.sub_mul, Int.add_mul]
        congr 1
        omega

theorem daysBefore_ofNanos (n : Int) (days : Nat) :
    (ofNanos n).daysBefore days = ofNanos (n - days * nanosPerDay) := by
  by_cases hdays : days = 0
  · subst hdays
    simp [daysBefore]
  · have hnanos : (ofNanos n).nanos < 2 * nanosPerSecond := by
      simp only [ofNanos, nanosPerSecond]
      omega
    rw [daysBefore_eq_ofNanos hdays hnanos, sinceEpoch_ofNanos]

end Instant

namespace Calendar

open Instant

/-- An instant in the years from `first` to `last`, which may be in a leap second. -/
structure InYears (first last : Int) (t : Instant) : Prop where
  start_le : startOfDay (dayNumber ⟨first, 1, 1⟩) ≤ t
  lt_finish : t < startOfDay (dayNumber ⟨last + 1, 1, 1⟩)
  nanos_lt : t.nanos < 2 * nanosPerSecond

theorem InYears.le_sinceEpoch {first last : Int} {t : Instant} (h : InYears first last t) :
    dayNumber ⟨first, 1, 1⟩ * nanosPerDay ≤ t.sinceEpoch := by
  have hstart := h.start_le
  rw [le_iff] at hstart
  simp only [startOfDay, sinceEpoch, nanosPerDay, nanosPerSecond, secondsPerDay] at *
  omega

end Calendar

end DnsFilter
