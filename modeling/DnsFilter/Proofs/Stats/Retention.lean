import DnsFilter.Config.Basic
import DnsFilter.Proofs.Time.Elapsed
import DnsFilter.QueryStats
import Mathlib.Data.List.Basic

/-! What is left of the query counters after a retention pass. The time up to which counters are dropped
has to be in the calendar, which the check of a configuration does not see to: it takes any number of
days but none. -/

namespace DnsFilter

theorem Config.retentionDays_ne_zero {c : Config} (h : c.fault? = none) :
    c.jobs.retentionDays ≠ 0 := by
  intro hdays
  unfold fault? at h
  simp only [hdays, if_true] at h
  split_ifs at h

namespace QueryStats

open Instant

variable {stats : QueryStats} {days : Nat} {now cutoff : Instant} {q : QueryCounter}

/-! ### Dropping what is old -/

theorem removeOlder_eq (stats : QueryStats) (cutoff : Instant) :
    stats.removeOlder cutoff =
      (⟨stats.counters.filter fun q => !decide (q.lastQueried < cutoff)⟩,
        stats.counters.countP fun q => decide (q.lastQueried < cutoff)) := by
  have hkept : (fun q : QueryCounter => decide (cutoff ≤ q.lastQueried)) =
      fun q => !decide (q.lastQueried < cutoff) := by
    funext q
    rw [← decide_not, decide_eq_decide, ← not_le, not_not]
  have hsplit := stats.counters.length_eq_length_filter_add
    fun q => decide (q.lastQueried < cutoff)
  rw [removeOlder, hkept, List.countP_eq_length_filter, hsplit, Nat.add_sub_cancel]

/-! ### Whether a pass can be made -/

theorem start_eq_ofNanos : Calendar.start = ofNanos Calendar.start.sinceEpoch := by
  decide

theorem retain?_eq (hdays : days ≠ 0) (hnow : now.nanos < 2 * nanosPerSecond) :
    stats.retain? days now =
      if now.sinceEpoch - days * nanosPerDay < Calendar.start.sinceEpoch then none
      else some (stats.removeOlder (ofNanos (now.sinceEpoch - days * nanosPerDay))) := by
  have hearly : ofNanos (now.sinceEpoch - days * nanosPerDay) < Calendar.start ↔
      now.sinceEpoch - days * nanosPerDay < Calendar.start.sinceEpoch := by
    rw [start_eq_ofNanos, ofNanos_lt_ofNanos_iff, sinceEpoch_ofNanos]
  unfold retain?
  simp only [daysBefore_eq_ofNanos hdays hnow, hearly]

theorem isSome_retain?_iff (hdays : days ≠ 0) (hnow : now.nanos < 2 * nanosPerSecond) :
    (stats.retain? days now).isSome = true ↔
      Calendar.start.sinceEpoch ≤ now.sinceEpoch - days * nanosPerDay := by
  rw [retain?_eq hdays hnow, ← Int.not_lt]
  split_ifs with hearly <;> simpa using hearly

/-- A pass for this many days can be made at every time from 1970 on exactly if the calendar has them
before 1970. -/
theorem forall_isSome_retain?_iff (stats : QueryStats) (hdays : days ≠ 0) :
    (∀ now, Calendar.InYears 1970 9999 now → (stats.retain? days now).isSome = true) ↔
      days ≤ 96465292 := by
  have hstart : Calendar.start.sinceEpoch = -(96465292 * nanosPerDay) := by decide
  have h1970 : Calendar.dayNumber ⟨1970, 1, 1⟩ = 0 := by decide
  have hfits (n : Int) : Calendar.start.sinceEpoch ≤ n - days * nanosPerDay ↔
      (days - 96465292) * nanosPerDay ≤ n := by
    rw [hstart, Int.sub_mul]
    omega
  constructor
  · intro hmade
    have hfirst : Calendar.InYears 1970 9999 ⟨0, 0⟩ := ⟨by decide, by decide, by decide⟩
    have h := (isSome_retain?_iff hdays hfirst.nanos_lt).mp (hmade _ hfirst)
    rw [hfits] at h
    simp only [sinceEpoch, nanosPerDay, nanosPerSecond, secondsPerDay] at h
    omega
  · intro hfew now hnow
    have hepoch := hnow.le_sinceEpoch
    rw [h1970, Int.zero_mul] at hepoch
    rw [isSome_retain?_iff hdays hnow.nanos_lt, hfits]
    simp only [nanosPerDay, nanosPerSecond, secondsPerDay]
    omega

/-- A retention pass drops just the counters last queried more than the configured days before it, if
the calendar goes back as far as that; otherwise the pass cannot be made. So it can be made at every
time of the years 1970 to 9999 only if the configuration asks for no more days than the calendar has
before 1970. -/
theorem retain?_exact_within_calendar (c : Config) (hvalid : c.fault? = none) (stats : QueryStats) :
    (∀ now : Instant, now.nanos < 2 * nanosPerSecond →
      let cutoff := now.sinceEpoch - c.jobs.retentionDays * nanosPerDay
      (Calendar.start.sinceEpoch ≤ cutoff →
        stats.retain? c.jobs.retentionDays now =
          some (⟨stats.counters.filter fun q => !decide (q.lastQueried < ofNanos cutoff)⟩,
            stats.counters.countP fun q => decide (q.lastQueried < ofNanos cutoff))) ∧
      (cutoff < Calendar.start.sinceEpoch → stats.retain? c.jobs.retentionDays now = none)) ∧
    ((∀ now, Calendar.InYears 1970 9999 now →
        (stats.retain? c.jobs.retentionDays now).isSome = true) ↔
      c.jobs.retentionDays ≤ 96465292) := by
  have hdays := Config.retentionDays_ne_zero hvalid
  refine ⟨?_, forall_isSome_retain?_iff stats hdays⟩
  intro now hnow cutoff
  constructor
  · intro hcutoff
    rw [retain?_eq hdays hnow, if_neg (Int.not_lt.mpr hcutoff), removeOlder_eq]
  · intro hcutoff
    rw [retain?_eq hdays hnow, if_pos hcutoff]

/-- The standard configuration with this many days of retention. -/
def retaining (days : Nat) : Config :=
  { Config.standard with jobs := { JobSettings.standard with retentionDays := days } }

/-- One name asked for on the second day of 1970, another one on the eighth. -/
def sampleStats : QueryStats :=
  (empty.record "old.com" ⟨86400, 0⟩).record "new.com" ⟨604800, 0⟩

/-- With three days of retention the first name is dropped on the tenth day. -/
theorem retain?_exact_sample : (retaining 3).fault? = none ∧
    sampleStats.retain? 3 ⟨777600, 0⟩ = some (⟨[⟨"new.com", 1, ⟨604800, 0⟩⟩]⟩, 1) ∧
    ∀ now, Calendar.InYears 1970 9999 now → (sampleStats.retain? 3 now).isSome = true := by
  have hvalid : (retaining 3).fault? = none := by decide
  obtain ⟨hmade, hbound⟩ := retain?_exact_within_calendar (retaining 3) hvalid sampleStats
  exact ⟨hvalid, (hmade ⟨777600, 0⟩ (by decide)).1 (by decide), hbound.mpr (by decide)⟩

/-- With as many days as the setting can hold, which the check accepts, no pass can be made. -/
theorem retain?_fails_for_valid : (retaining 4294967295).fault? = none ∧
    Calendar.InYears 1970 9999 ⟨777600, 0⟩ ∧
    sampleStats.retain? (retaining 4294967295).jobs.retentionDays ⟨777600, 0⟩ = none :=
  ⟨by decide, ⟨by decide, by decide, by decide⟩, by decide⟩

end QueryStats

end DnsFilter
