import DnsFilter.Proofs.Jobs.History
import Mathlib.Algebra.Order.Group.Nat
import Mathlib.Data.Nat.ModEq

/-! The timetable of started jobs. A job makes a pass in each second that is a multiple of its interval,
refused or not, up to the first that cannot be made: that one ends it. Main statement: what the jobs of a
run have done is their timetables, merged in the order of time, and how a span of time is cut into pieces
makes no difference. -/

namespace DnsFilter

variable {α : Type}

/-- Whether a job makes a pass in a second since its start. -/
def Job.IsTimely (job : Job) (interval : Nat) (clock : Nat → Instant) (second : Nat) : Prop :=
  interval ∣ second ∧ ∀ t < second, interval ∣ t → job.isPossible (clock t) = true

instance (job : Job) (interval : Nat) (clock : Nat → Instant) (second : Nat) :
    Decidable (job.IsTimely interval clock second) :=
  inferInstanceAs (Decidable (_ ∧ _))

namespace JobHandle

variable {clock : Nat → Instant} {h : JobHandle} {second : Nat}

/-- The job still goes on in a second exactly if all its passes before could be made. -/
def Follows (clock : Nat → Instant) (second : Nat) (h : JobHandle) : Prop :=
  h.ended = false ↔ ∀ t < second, h.interval ∣ t → h.job.isPossible (clock t) = true

theorem follows_start (clock : Nat → Instant) (job : Job) (interval : Nat)
    (given : Option Token) : (start job interval given).Follows clock 0 :=
  iff_of_true rfl fun t ht => absurd ht (Nat.not_lt_zero t)

theorem isDue_eq_true_iff : h.isDue second = true ↔ h.ended = false ∧ h.interval ∣ second := by
  rw [isDue, Bool.and_eq_true, Bool.not_eq_true', beq_iff_eq, Nat.dvd_iff_mod_eq_zero]

theorem Follows.isDue_iff (hfollows : h.Follows clock second) :
    h.isDue second = true ↔ h.job.IsTimely h.interval clock second := by
  unfold Follows at hfollows
  rw [isDue_eq_true_iff, hfollows, and_comm]
  rfl

theorem Follows.settle (hfollows : h.Follows clock second) :
    (h.settle (clock second) second).Follows clock (second + 1) := by
  unfold Follows at *
  unfold JobHandle.settle
  split
  · rename_i hfails
    rw [Bool.and_eq_true, isDue_eq_true_iff, Bool.not_eq_true'] at hfails
    apply iff_of_false Bool.true_eq_false.mp
    intro hall
    have hpossible := hall second (Nat.lt_succ_self _) hfails.1.2
    rw [hfails.2] at hpossible
    cases hpossible
  · rename_i hholds
    rw [Nat.forall_lt_succ_right, ← hfollows, iff_self_and]
    intro hgoing hdivides
    by_contra hfails
    apply hholds
    rw [Bool.and_eq_true, isDue_eq_true_iff, Bool.not_eq_true', ← Bool.not_eq_true (Job.isPossible _ _)]
    exact ⟨⟨hgoing, hdivides⟩, hfails⟩

theorem Follows.later (hfollows : h.Follows clock (second + 1)) (n : Nat) :
    (h.later clock second n).Follows clock (second + n + 1) := by
  induction n generalizing h second with
  | zero => exact hfollows
  | succ n ih =>
      rw [JobHandle.later, show second + (n + 1) = second + 1 + n by omega]
      exact ih hfollows.settle

theorem eq_of_fresh_eq {g : JobHandle} (hfresh : g.fresh = h.fresh) :
    g.job = h.job ∧ g.interval = h.interval := by
  simp only [fresh, mk.injEq] at hfresh
  exact ⟨hfresh.1, hfresh.2.1⟩

end JobHandle

namespace JobRun

variable (clock : Nat → Instant) (cacheClock : Nat → Nat)

/-! ### Turns of seconds and of events -/

/-- The passes that a job makes in some seconds. -/
def timetable (place : Nat) (job : Job) (interval : Nat) (seconds : List Nat) : List Turn :=
  (seconds.filter fun t => decide (job.IsTimely interval clock t)).map fun t => ⟨place, job, t⟩

theorem timetable_append (place : Nat) (job : Job) (interval : Nat) (front back : List Nat) :
    timetable clock place job interval (front ++ back) =
      timetable clock place job interval front ++ timetable clock place job interval back := by
  rw [timetable, List.filter_append, List.map_append]
  rfl

/-- The passes that the job at a place makes in some seconds. At the other places there is none. -/
def timetableAt (place : Nat) (handles : List JobHandle) (seconds : List Nat) : List Turn :=
  handles[place]?.toList.flatMap fun h => timetable clock place h.job h.interval seconds

theorem timetableAt_append (place : Nat) (handles : List JobHandle) (front back : List Nat) :
    timetableAt clock place handles (front ++ back) =
      timetableAt clock place handles front ++ timetableAt clock place handles back := by
  unfold timetableAt
  cases handles[place]? with
  | none => rfl
  | some h => simp [timetable_append]

theorem timetableAt_map (place : Nat) {handles : List JobHandle} {f : JobHandle → JobHandle}
    (hfresh : ∀ h, (f h).fresh = h.fresh) (seconds : List Nat) :
    timetableAt clock place (handles.map f) seconds =
      timetableAt clock place handles seconds := by
  unfold timetableAt
  rw [List.getElem?_map]
  cases handles[place]? with
  | none => rfl
  | some h =>
      obtain ⟨hjob, hinterval⟩ := JobHandle.eq_of_fresh_eq (hfresh h)
      simp [hjob, hinterval]

theorem filter_turnsIn_of_follows {handles : List JobHandle} {second : Nat}
    (hfollows : ∀ h ∈ handles, h.Follows clock second) (place : Nat) :
    (turnsIn second handles).filter (·.place == place) =
      timetableAt clock place handles [second] := by
  rw [filter_turnsIn, timetableAt]
  cases hplace : handles[place]? with
  | none => rfl
  | some h =>
      have hdue := (hfollows h (List.mem_of_getElem? hplace)).isDue_iff
      by_cases hsecond : h.job.IsTimely h.interval clock second
      · simp [timetable, hsecond, hdue.mpr hsecond]
      · simp [timetable, hsecond, mt hdue.mp hsecond]

theorem filter_turns (n : Nat) (run : JobRun) (s : Services α)
    (hfollows : ∀ h ∈ run.handles, h.Follows clock (run.elapsed + 1)) (place : Nat) :
    (turns clock cacheClock n (run, s)).filter (·.place == place) =
      timetableAt clock place run.handles (List.range' (run.elapsed + 1) n) := by
  induction n generalizing run s with
  | zero =>
      unfold timetableAt
      cases run.handles[place]? <;> rfl
  | succ n ih =>
      have hsettled : ∀ h ∈ run.handles.map
          (·.settle (clock (run.elapsed + 1)) (run.elapsed + 1)),
          h.Follows clock (run.elapsed + 1 + 1) := by
        intro h hh
        obtain ⟨g, hg, rfl⟩ := List.mem_map.mp hh
        exact (hfollows g hg).settle
      rw [turns, List.filter_append, filter_turnsIn_of_follows clock hfollows, advance_one,
        ih _ _ hsettled, timetableAt_map clock place (JobHandle.fresh_settle _ _),
        ← timetableAt_append]
      rfl

/-- The passes among what was done. -/
def turnsOf (deeds : List (Deed α)) : List Turn := deeds.filterMap (·.turn?)

theorem turnsOf_append (front back : List (Deed α)) :
    turnsOf (front ++ back) = turnsOf front ++ turnsOf back :=
  List.filterMap_append

theorem turnsOf_map_pass (ts : List Turn) : turnsOf (ts.map (Deed.pass (α := α))) = ts := by
  rw [turnsOf, List.filterMap_map]
  exact List.filterMap_some

def Event.span : Event α → Nat
  | .elapse span => span
  | .change _ | .cancel => 0

namespace State

/-- The seconds that end within a span of time, whole or in part. -/
def seconds (st : State α) (span : Nat) : Nat := (st.nanos + span) / Instant.nanosPerSecond

theorem run_elapse (st : State α) (span : Nat) : (st.elapse clock cacheClock span).run =
    ⟨st.run.handles.map (·.later clock st.run.elapsed (st.seconds span)),
      st.run.elapsed + st.seconds span⟩ :=
  run_advance clock cacheClock (st.seconds span) st.run st.services

theorem seconds_add (st : State α) (span rest : Nat) : st.seconds (span + rest) =
    st.seconds span + (st.elapse clock cacheClock span).seconds rest := by
  simp only [seconds, elapse, Instant.nanosPerSecond]
  omega

/-- Time may be cut into pieces anywhere. -/
theorem elapse_add (st : State α) (span rest : Nat) : st.elapse clock cacheClock (span + rest) =
    (st.elapse clock cacheClock span).elapse clock cacheClock rest := by
  have hseconds := seconds_add clock cacheClock st span rest
  have hnanos : (st.nanos + (span + rest)) % Instant.nanosPerSecond =
      ((st.elapse clock cacheClock span).nanos + rest) % Instant.nanosPerSecond := by
    simp only [elapse, Instant.nanosPerSecond]
    omega
  unfold seconds at hseconds
  rw [elapse, hseconds, hnanos, advance_add]
  rfl

theorem filter_deedsAfter (st : State α) {events : List (Event α)}
    (hgoing : ∀ event ∈ events, event ≠ .cancel) (hnanos : st.nanos < Instant.nanosPerSecond)
    (hfollows : ∀ h ∈ st.run.handles, h.Follows clock (st.run.elapsed + 1)) (place : Nat) :
    (turnsOf (st.deedsAfter clock cacheClock events)).filter (·.place == place) =
      timetableAt clock place st.run.handles
        (List.range' (st.run.elapsed + 1) (st.seconds (events.map (·.span)).sum)) := by
  induction events generalizing st with
  | nil =>
      have hnone : st.seconds 0 = 0 := Nat.div_eq_of_lt hnanos
      rw [List.map_nil, List.sum_nil, hnone]
      unfold timetableAt
      cases st.run.handles[place]? <;> rfl
  | cons event rest ih =>
      rw [List.forall_mem_cons] at hgoing
      rw [deedsAfter, turnsOf_append, List.filter_append, List.map_cons, List.sum_cons]
      cases event with
      | elapse span =>
          have hrun := run_elapse clock cacheClock st span
          have hlater : ∀ h ∈ (st.elapse clock cacheClock span).run.handles,
              h.Follows clock ((st.elapse clock cacheClock span).run.elapsed + 1) := by
            rw [hrun]
            intro h hh
            obtain ⟨g, hg, rfl⟩ := List.mem_map.mp hh
            exact (hfollows g hg).later (st.seconds span)
          have hrest := ih (st.elapse clock cacheClock span) hgoing.2
            (Nat.mod_lt _ (by decide)) hlater
          have hspan := filter_turns clock cacheClock (st.seconds span) st.run st.services
            hfollows place
          rw [hrun, timetableAt_map clock place (JobHandle.fresh_later clock _ _)] at hrest
          rw [Event.span, seconds_add clock cacheClock, ← List.range'_append_1,
            timetableAt_append, next, hrest, deeds, turnsOf_map_pass, ← seconds, hspan,
            Nat.add_right_comm st.run.elapsed 1]
      | change f =>
          rw [Event.span, Nat.zero_add]
          exact ih (st.next clock cacheClock (.change f)) hgoing.2 hnanos hfollows
      | cancel => exact absurd rfl hgoing.1

end State

/-! ### The order of time -/

/-- Passes in the order of time, made after one second and not after another. -/
structure Within (first last : Nat) (ts : List Turn) : Prop where
  le : first ≤ last
  ordered : ts.Pairwise Turn.Before
  bounds : ∀ t ∈ ts, first < t.second ∧ t.second ≤ last

theorem Within.append {first middle last : Nat} {ts us : List Turn} (hts : Within first middle ts)
    (hus : Within middle last us) : Within first last (ts ++ us) where
  le := Nat.le_trans hts.le hus.le
  ordered := by
    refine List.pairwise_append.mpr ⟨hts.ordered, hus.ordered, ?_⟩
    intro t ht u hu
    exact .inl (Nat.lt_of_le_of_lt (hts.bounds t ht).2 (hus.bounds u hu).1)
  bounds := by
    intro t ht
    rcases List.mem_append.mp ht with hfront | hback
    · exact ⟨(hts.bounds t hfront).1, Nat.le_trans (hts.bounds t hfront).2 hus.le⟩
    · exact ⟨Nat.lt_of_le_of_lt hts.le (hus.bounds t hback).1, (hus.bounds t hback).2⟩

theorem within_nil (second : Nat) : Within second second [] where
  le := Nat.le_refl _
  ordered := List.Pairwise.nil
  bounds := by simp

theorem within_turnsIn (second : Nat) (handles : List JobHandle) :
    Within second (second + 1) (turnsIn (second + 1) handles) where
  le := Nat.le_succ _
  ordered := pairwise_turnsIn _ _
  bounds := by
    intro t ht
    rw [second_of_mem_turnsIn ht]
    exact ⟨Nat.lt_succ_self _, Nat.le_refl _⟩

theorem within_turns (n : Nat) (run : JobRun) (s : Services α) :
    Within run.elapsed (run.elapsed + n) (turns clock cacheClock n (run, s)) := by
  induction n generalizing run s with
  | zero => exact within_nil _
  | succ n ih =>
      rw [turns, advance_one, Nat.add_comm n 1, ← Nat.add_assoc]
      exact (within_turnsIn _ _).append (ih ⟨_, run.elapsed + 1⟩ _)

namespace State

theorem within_deeds (st : State α) (event : Event α) : Within st.run.elapsed
    (st.next clock cacheClock event).run.elapsed (turnsOf (st.deeds clock cacheClock event)) := by
  cases event with
  | elapse span =>
      rw [next, run_elapse, deeds, turnsOf_map_pass]
      exact within_turns clock cacheClock _ st.run st.services
  | change f => exact within_nil _
  | cancel => exact within_nil _

theorem within_deedsAfter (st : State α) (events : List (Event α)) : Within st.run.elapsed
    (st.after clock cacheClock events).run.elapsed
    (turnsOf (st.deedsAfter clock cacheClock events)) := by
  induction events generalizing st with
  | nil => exact within_nil _
  | cons event rest ih =>
      rw [deedsAfter, turnsOf_append]
      exact (within_deeds clock cacheClock st event).append (ih _)

end State

/-- The multiples of an interval. -/
theorem filter_dvd_range (interval n : Nat) :
    (List.range (n + 1)).filter (fun t => decide (interval ∣ t)) =
      (List.range (1 + n / interval)).map (· * interval) := by
  induction n with
  | zero => simp
  | succ n ih =>
      rw [List.range_succ, List.filter_append, ih, Nat.succ_div]
      by_cases hdivides : interval ∣ n + 1
      · have hlast : (1 + n / interval) * interval = n + 1 := by
          have hdiv := Nat.succ_div_of_dvd hdivides
          rw [Nat.add_comm 1, ← hdiv, Nat.div_mul_cancel hdivides]
        simp [hdivides, ← Nat.add_assoc, List.range_succ, hlast]
      · simp [hdivides]

theorem timetable_of_possible {job : Job} {interval n : Nat}
    (hpossible : ∀ t, interval ∣ t → t + interval ≤ n → job.isPossible (clock t) = true)
    (place : Nat) : timetable clock place job interval (List.range (n + 1)) =
      (List.range (1 + n / interval)).map fun k => ⟨place, job, k * interval⟩ := by
  have htimely : ∀ t ∈ List.range (n + 1),
      decide (job.IsTimely interval clock t) = decide (interval ∣ t) := by
    intro t ht
    rw [List.mem_range, Nat.lt_succ_iff] at ht
    apply decide_eq_decide.mpr
    refine and_iff_left_of_imp fun hdivides earlier hearlier hdivided => ?_
    apply hpossible earlier hdivided
    have hgap : interval ≤ t - earlier :=
      Nat.le_of_dvd (Nat.sub_pos_of_lt hearlier) (Nat.dvd_sub hdivides hdivided)
    omega
  rw [timetable, List.filter_congr htimely, filter_dvd_range, List.map_map]
  rfl

/-- A job makes all the passes that fall into its time exactly if all but the last can be made. -/
theorem timetable_eq_iff {job : Job} {interval n : Nat} (hpos : 0 < interval) (place : Nat) :
    timetable clock place job interval (List.range (n + 1)) =
        (List.range (1 + n / interval)).map (fun k => ⟨place, job, k * interval⟩) ↔
      ∀ t, interval ∣ t → t + interval ≤ n → job.isPossible (clock t) = true := by
  refine ⟨?_, fun hpossible => timetable_of_possible clock hpossible place⟩
  intro hall t hdivides hroom
  have hlast : (⟨place, job, n / interval * interval⟩ : Turn) ∈
      timetable clock place job interval (List.range (n + 1)) := by
    rw [hall]
    exact List.mem_map.mpr ⟨n / interval, List.mem_range.mpr (by omega), rfl⟩
  obtain ⟨last, hmem, hturn⟩ := List.mem_map.mp hlast
  obtain rfl : last = n / interval * interval := congrArg Turn.second hturn
  have htimely := of_decide_eq_true (List.mem_filter.mp hmem).2
  apply htimely.2 t _ hdivides
  obtain ⟨k, rfl⟩ := hdivides
  have hk : k + 1 ≤ n / interval := by
    rw [Nat.le_div_iff_mul_le hpos, Nat.add_mul, Nat.one_mul, Nat.mul_comm]
    exact hroom
  calc
    interval * k = k * interval := Nat.mul_comm _ _
    _ < (k + 1) * interval := Nat.mul_lt_mul_of_pos_right (Nat.lt_succ_self k) hpos
    _ ≤ n / interval * interval := Nat.mul_le_mul_right _ hk

namespace State

theorem filter_history (jobs : List (Job × Nat)) (cancellable : Bool) (s : Services α)
    {events : List (Event α)} (hgoing : ∀ event ∈ events, event ≠ .cancel) (place : Nat) :
    (turnsOf (history clock cacheClock jobs cancellable s events)).filter (·.place == place) =
      jobs[place]?.toList.flatMap fun p => timetable clock place p.1 (max p.2 1)
        (List.range ((events.map (·.span)).sum / Instant.nanosPerSecond + 1)) := by
  let given := if cancellable then some Token.shared else none
  let begun := start clock cacheClock jobs cancellable s
  let handles := jobs.map fun p => JobHandle.start p.1 p.2 given
  have hfresh : ∀ h ∈ handles, h.Follows clock 0 := by
    intro h hh
    obtain ⟨p, -, rfl⟩ := List.mem_map.mp hh
    exact JobHandle.follows_start clock p.1 p.2 given
  have hhandles : begun.run.handles = handles.map (·.settle (clock 0) 0) := by
    simp only [begun, start, JobRun.start, tick_eq]
    rfl
  have hsettled : ∀ h ∈ begun.run.handles, h.Follows clock (begun.run.elapsed + 1) := by
    rw [hhandles]
    intro h hh
    obtain ⟨g, hg, rfl⟩ := List.mem_map.mp hh
    exact (hfresh g hg).settle
  have hrest := filter_deedsAfter clock cacheClock begun hgoing
    (show 0 < Instant.nanosPerSecond by decide) hsettled place
  have hseconds : begun.seconds (events.map (·.span)).sum =
      (events.map (·.span)).sum / Instant.nanosPerSecond := by
    rw [seconds, show begun.nanos = 0 from rfl, Nat.zero_add]
  rw [hhandles, timetableAt_map clock place (JobHandle.fresh_settle _ _), hseconds] at hrest
  rw [history, turnsOf_append, turnsOf_map_pass, List.filter_append,
    filter_turnsIn_of_follows clock hfresh, hrest, ← timetableAt_append, timetableAt,
    List.getElem?_map, List.range_eq_range', List.range'_succ]
  cases jobs[place]? <;> rfl

theorem pairwise_history (jobs : List (Job × Nat)) (cancellable : Bool) (s : Services α)
    (events : List (Event α)) :
    (turnsOf (history clock cacheClock jobs cancellable s events)).Pairwise Turn.Before := by
  have hrest := within_deedsAfter clock cacheClock
    (start clock cacheClock jobs cancellable s) events
  rw [history, turnsOf_append, turnsOf_map_pass, List.pairwise_append]
  refine ⟨pairwise_turnsIn _ _, hrest.ordered, ?_⟩
  intro t ht u hu
  rw [Turn.Before, second_of_mem_turnsIn ht]
  exact .inl (Nat.lt_of_le_of_lt (Nat.zero_le _) (hrest.bounds u hu).1)

/-- What is done to the services of started jobs, without a cancel, are the changes of others and the
passes of the jobs, in the order of time and within a second in that of the list. Each job makes those on
its timetable: after an elapsed time these are one pass at the start and one for each full interval,
whether or not passes are refused, exactly if none but the last of them cannot be made at all. Time that
passes in two spells does what it does in one. -/
theorem passes_keep_time (jobs : List (Job × Nat)) (cancellable : Bool) (s : Services α)
    (events : List (Event α)) (hgoing : ∀ event ∈ events, event ≠ .cancel) :
    let elapsed := (events.map (·.span)).sum
    let second := Instant.nanosPerSecond
    let done := history clock cacheClock jobs cancellable s events
    ((start clock cacheClock jobs cancellable s).after clock cacheClock events).services =
        done.foldl (Deed.apply clock cacheClock) s ∧
      (turnsOf done).Pairwise Turn.Before ∧
      (∀ place, (turnsOf done).filter (·.place == place) = jobs[place]?.toList.flatMap fun p =>
        timetable clock place p.1 (max p.2 1) (List.range (elapsed / second + 1))) ∧
      (∀ place job interval, jobs[place]? = some (job, interval) →
        let period := max interval 1
        (turnsOf done).filter (·.place == place) =
            (List.range (1 + elapsed / (period * second))).map
              (fun k => ⟨place, job, k * period⟩) ↔
          ∀ t, period ∣ t → (t + period) * second ≤ elapsed → job.isPossible (clock t) = true) ∧
      ∀ (st : State α) span rest, st.elapse clock cacheClock (span + rest) =
        (st.elapse clock cacheClock span).elapse clock cacheClock rest := by
  intro elapsed second done
  have hturns := filter_history clock cacheClock jobs cancellable s hgoing
  refine ⟨services_start clock cacheClock jobs cancellable s events,
    pairwise_history clock cacheClock jobs cancellable s events, hturns, ?_,
    elapse_add clock cacheClock⟩
  intro place job interval hplace period
  have hpasses : elapsed / (period * second) = elapsed / second / period := by
    rw [Nat.mul_comm, Nat.div_div_eq_div_mul]
  have hroom (t : Nat) : (t + period) * second ≤ elapsed ↔ t + period ≤ elapsed / second :=
    (Nat.le_div_iff_mul_le (show 0 < Instant.nanosPerSecond by decide)).symm
  simp only [hroom, hpasses]
  rw [← timetable_eq_iff clock (show 0 < period by omega) place, hturns place, hplace,
    Option.toList_some, List.flatMap_singleton]

/-- Two jobs, one of them with no time between its passes to speak of. -/
def sampleJobs : List (Job × Nat) := [(.coverage, 0), (.retention 3, 2)]

def sampleServices : Services Nat :=
  ⟨.empty (some 5), ⟨.smart, true⟩, .empty ⟨10, 3600⟩, .empty⟩

/-- Two and a half seconds, a change of the policy, and a little more than one and a half. -/
def sampleEvents : List (Event Nat) :=
  [.elapse 2500000000, .change fun s => { s with policy := ⟨.subdomainsOnly, true⟩ },
    .elapse 1600000000]

/-- The time of day on the tenth day of 1970. -/
def sampleClock (second : Nat) : Instant := ⟨777600 + second, 0⟩

/-- In four seconds and a tenth the first job makes five passes and the second one three. -/
theorem passes_keep_time_sample : (∀ event ∈ sampleEvents, event ≠ .cancel) ∧
    sampleJobs[0]? = some (.coverage, 0) ∧ sampleJobs[1]? = some (.retention 3, 2) ∧
    (∀ t, 2 ∣ t → (t + 2) * Instant.nanosPerSecond ≤ 4100000000 →
      (Job.retention 3).isPossible (sampleClock t) = true) ∧
    let done := history sampleClock id sampleJobs true sampleServices sampleEvents
    (turnsOf done).filter (·.place == 0) =
      (List.range 5).map (fun second => ⟨0, .coverage, second⟩) ∧
    (turnsOf done).filter (·.place == 1) =
      [⟨1, .retention 3, 0⟩, ⟨1, .retention 3, 2⟩, ⟨1, .retention 3, 4⟩] := by
  have hgoing : ∀ event ∈ sampleEvents, event ≠ .cancel := by simp [sampleEvents]
  have hpossible : ∀ t, 2 ∣ t → (t + 2) * Instant.nanosPerSecond ≤ 4100000000 →
      (Job.retention 3).isPossible (sampleClock t) = true := by
    have hfirst : ∀ t < 3, (Job.retention 3).isPossible (sampleClock t) = true := by decide
    intro t _ hroom
    apply hfirst t
    simp only [Instant.nanosPerSecond] at hroom
    omega
  obtain ⟨-, -, -, hpasses, -⟩ :=
    passes_keep_time sampleClock id sampleJobs true sampleServices sampleEvents hgoing
  refine ⟨hgoing, rfl, rfl, hpossible, ?_, ?_⟩
  · exact (hpasses 0 .coverage 0 rfl).mpr fun _ _ _ => rfl
  · exact (hpasses 1 (.retention 3) 2 rfl).mpr hpossible

/-- A retention pass over more days than the calendar goes back is the last one of its job, even if the
time would be enough for two. -/
theorem retention_over_after_first :
    let jobs : List (Job × Nat) := [(.retention 4294967295, 5)]
    let elapsed := 6 * Instant.nanosPerSecond
    let done := history sampleClock id jobs true sampleServices [.elapse elapsed]
    1 + elapsed / (5 * Instant.nanosPerSecond) = 2 ∧
      (turnsOf done).filter (·.place == 0) = [⟨0, .retention 4294967295, 0⟩] ∧
      (start sampleClock id jobs true sampleServices).run.finished = 1 := by
  intro jobs elapsed done
  refine ⟨by decide, ?_, by decide⟩
  rw [filter_history sampleClock id jobs true sampleServices (by simp)]
  decide

end State

end JobRun

end DnsFilter
