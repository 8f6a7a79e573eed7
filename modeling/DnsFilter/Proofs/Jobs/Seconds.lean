import DnsFilter.Jobs

/-! Time passing for started jobs, second by second. Letting many seconds pass skips those without a
pass; it comes to the same as going through each of them. In one second every job that is due makes its
pass, in the order of the list, and what becomes of a job does not depend on the services it works on:
it goes on after a pass that was refused, and is over only after one that could not be made. -/

namespace DnsFilter

variable {α : Type}

namespace Job

/-- Whether a pass can be made at a time of day. A retention pass cannot if it would look back beyond
the start of the calendar. -/
def isPossible (job : Job) (now : Instant) : Bool :=
  match job with
  | .retention days => decide (Calendar.start ≤ now.daysBefore days)
  | .coverage | .sweep | .expiry => true

/-- The services after a pass. One that cannot be made leaves them as they are. -/
def passOrKeep (job : Job) (now : Instant) (cacheNow : Nat) (s : Services α) : Services α :=
  (job.pass? s now cacheNow).getD s

theorem isSome_pass? (job : Job) (s : Services α) (now : Instant) (cacheNow : Nat) :
    (job.pass? s now cacheNow).isSome = job.isPossible now := by
  cases job with
  | coverage => rfl
  | sweep => rfl
  | expiry => rfl
  | retention days =>
      rw [pass?, Option.isSome_map, isPossible, QueryStats.retain?]
      by_cases hstart : Calendar.start ≤ now.daysBefore days
      · have hearly : ¬ now.daysBefore days < Calendar.start :=
          fun h => Instant.not_le.mpr h hstart
        simp [hearly, hstart]
      · have hearly : now.daysBefore days < Calendar.start := Instant.not_le.mp hstart
        simp [hearly, hstart]

end Job

namespace JobHandle

/-- The job after a second: over if its pass could not be made. -/
def settle (now : Instant) (second : Nat) (h : JobHandle) : JobHandle :=
  if h.isDue second && !h.job.isPossible now then { h with ended := true } else h

theorem settle_of_not_isDue {h : JobHandle} {second : Nat} (hdue : h.isDue second = false)
    (now : Instant) : h.settle now second = h := by
  rw [settle, hdue, Bool.false_and, if_neg Bool.false_ne_true]

/-- A job that still waits at the end of a second has no pass in the next one. -/
theorem isDue_succ_eq_false {h : JobHandle} {second : Nat} (hidle : 0 < h.idle second) :
    h.isDue (second + 1) = false := by
  unfold idle at hidle
  have hnext : (second + 1) % h.interval = second % h.interval + 1 := by
    rw [Nat.add_mod, Nat.mod_eq_of_lt (a := 1) (by omega), Nat.mod_eq_of_lt (by omega)]
  rw [isDue, hnext]
  simp

end JobHandle

namespace JobRun

/-- One second: each job that is due makes its pass. -/
theorem tick_eq (now : Instant) (cacheNow second : Nat) (handles : List JobHandle)
    (s : Services α) :
    tick now cacheNow second handles s =
      (handles.map (·.settle now second),
        (handles.filter (·.isDue second)).foldl (fun s h => h.job.passOrKeep now cacheNow s) s) := by
  induction handles generalizing s with
  | nil => rfl
  | cons h rest ih =>
      rw [tick]
      cases hdue : h.isDue second with
      | false => simp [ih, hdue, JobHandle.settle_of_not_isDue hdue]
      | true =>
          have hpossible := h.job.isSome_pass? s now cacheNow
          cases hpass : h.job.pass? s now cacheNow with
          | none =>
              rw [hpass, Option.isSome_none] at hpossible
              simp [ih, hdue, JobHandle.settle, ← hpossible, Job.passOrKeep, hpass]
          | some next =>
              rw [hpass, Option.isSome_some] at hpossible
              simp [ih, hdue, JobHandle.settle, ← hpossible, Job.passOrKeep, hpass]

theorem tick_of_idle {second : Nat} {handles : List JobHandle}
    (hidle : ∀ h ∈ handles, h.isDue second = false) (now : Instant) (cacheNow : Nat)
    (s : Services α) : tick now cacheNow second handles s = (handles, s) := by
  have hkept : handles.map (·.settle now second) = handles := by
    calc
      handles.map (·.settle now second) = handles.map id :=
        List.map_congr_left fun h hh => JobHandle.settle_of_not_isDue (hidle h hh) now
      _ = handles := List.map_id handles
  have hnone : handles.filter (·.isDue second) = [] := by
    apply List.filter_eq_nil_iff.mpr
    intro h hh
    rw [hidle h hh]
    exact Bool.false_ne_true
  rw [tick_eq, hkept, hnone, List.foldl_nil]

theorem isDue_succ_of_idle? (run : JobRun) (hidle : ∀ idle ∈ run.idle?, 0 < idle) :
    ∀ h ∈ run.handles, h.isDue (run.elapsed + 1) = false := by
  intro h hh
  cases hended : h.ended with
  | true => rw [JobHandle.isDue, hended, Bool.not_true, Bool.false_and]
  | false =>
      have hwaits : h.idle run.elapsed ∈
          (run.handles.filter fun h => !h.ended).map (·.idle run.elapsed) :=
        List.mem_map_of_mem (List.mem_filter.mpr ⟨hh, by rw [hended]; rfl⟩)
      obtain ⟨idle, hmin⟩ := Option.isSome_iff_exists.mp (List.isSome_min?_of_mem hwaits)
      apply JobHandle.isDue_succ_eq_false
      calc
        0 < idle := hidle idle hmin
        _ ≤ h.idle run.elapsed := (List.min?_eq_some_iff.mp hmin).2 _ hwaits

section Seconds

variable (clock : Nat → Instant) (cacheClock : Nat → Nat)

theorem advance_zero (p : JobRun × Services α) : advance clock cacheClock 0 p = p := by
  rw [advance.eq_1]
  split <;> simp

/-- One second passes, whether or not a job is due in it. -/
theorem advance_one (run : JobRun) (s : Services α) :
    advance clock cacheClock 1 (run, s) =
      let second := run.elapsed + 1
      (⟨run.handles.map (·.settle (clock second) second), second⟩,
        (run.handles.filter (·.isDue second)).foldl
          (fun s h => h.job.passOrKeep (clock second) (cacheClock second) s) s) := by
  have hsecond : advance clock cacheClock 1 (run, s) =
      let second := run.elapsed + 1
      let after := tick (clock second) (cacheClock second) second run.handles s
      (⟨after.1, second⟩, after.2) := by
    rw [advance.eq_1]
    cases hidle : run.idle? with
    | none =>
        have hnone := isDue_succ_of_idle? run (by simp [hidle])
        simp only [tick_of_idle hnone]
    | some idle =>
        by_cases hpos : 0 < idle
        · have hnone := isDue_succ_of_idle? run (by simpa [hidle] using hpos)
          simp only [tick_of_idle hnone, if_neg (show ¬ idle < 1 by omega)]
        · obtain rfl : idle = 0 := by omega
          simp only [if_pos Nat.one_pos, Nat.add_zero, Nat.zero_add, Nat.sub_self, advance_zero]
  rw [hsecond]
  simp only [tick_eq]

theorem advance_succ (n : Nat) (p : JobRun × Services α) :
    advance clock cacheClock (n + 1) p =
      advance clock cacheClock n (advance clock cacheClock 1 p) := by
  rw [Nat.add_comm, advance_add]

end Seconds

end JobRun

end DnsFilter
