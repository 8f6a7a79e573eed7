import DnsFilter.Proofs.Jobs.Seconds

/-! Started jobs and what happens to them from outside: time passes, the services are changed, the shared
token is cancelled. Of a handle only whether it has ended ever changes, so that all handles of a run keep
the token they were given at the start. Main statement: cancelling ends every job of a run with a token
for good, and is nothing to a run without one. -/

namespace DnsFilter

variable {α : Type}

namespace JobHandle

/-- The handle as it was when it was started. -/
def fresh (h : JobHandle) : JobHandle := { h with ended := false }

/-- The handle some seconds after a second. -/
def later (clock : Nat → Instant) : Nat → Nat → JobHandle → JobHandle
  | _, 0, h => h
  | second, n + 1, h => later clock (second + 1) n (h.settle (clock (second + 1)) (second + 1))

theorem fresh_settle (now : Instant) (second : Nat) (h : JobHandle) :
    (h.settle now second).fresh = h.fresh := by
  unfold settle
  split <;> rfl

theorem fresh_later (clock : Nat → Instant) (second n : Nat) (h : JobHandle) :
    (h.later clock second n).fresh = h.fresh := by
  induction n generalizing second h with
  | zero => rfl
  | succ n ih => rw [later, ih, fresh_settle]

theorem fresh_cancel (h : JobHandle) : h.cancel.fresh = h.fresh := by
  unfold cancel
  split <;> rfl

theorem cancel_of_own {h : JobHandle} (htoken : h.token = .own) : h.cancel = h := by
  rw [cancel, htoken, if_neg (by decide)]

theorem ended_cancel_of_shared {h : JobHandle} (htoken : h.token = .shared) :
    h.cancel.ended = true := by
  rw [cancel, if_pos htoken]

theorem cancel_of_ended {h : JobHandle} (hended : h.ended = true) : h.cancel = h := by
  cases h
  cases hended
  unfold cancel
  split <;> rfl

end JobHandle

namespace JobRun

variable (clock : Nat → Instant) (cacheClock : Nat → Nat)

/-- What becomes of the jobs does not depend on the services. -/
theorem run_advance (n : Nat) (run : JobRun) (s : Services α) :
    (advance clock cacheClock n (run, s)).1 =
      ⟨run.handles.map (·.later clock run.elapsed n), run.elapsed + n⟩ := by
  induction n generalizing run s with
  | zero =>
      rw [advance_zero]
      simp [JobHandle.later]
  | succ n ih =>
      rw [advance_succ, advance_one, ih]
      simp [JobHandle.later, Nat.add_assoc, Nat.add_comm 1 n]

theorem advance_of_ended {run : JobRun} (hended : ∀ h ∈ run.handles, h.ended = true) (n : Nat)
    (s : Services α) :
    advance clock cacheClock n (run, s) = ({ run with elapsed := run.elapsed + n }, s) := by
  have hidle : run.idle? = none := by
    rw [idle?, List.min?_eq_none_iff, List.map_eq_nil_iff, List.filter_eq_nil_iff]
    intro h hh
    rw [hended h hh]
    exact Bool.false_ne_true
  rw [advance.eq_1, hidle]

/-! ### What happens from outside -/

namespace State

/-! ### What is kept of the handles -/

theorem map_fresh_next (st : State α) (event : Event α) :
    (st.next clock cacheClock event).run.handles.map (·.fresh) =
      st.run.handles.map (·.fresh) := by
  cases event with
  | elapse span =>
      simp only [next, elapse, run_advance, List.map_map]
      exact List.map_congr_left fun h _ => JobHandle.fresh_later clock _ _ h
  | change f => rfl
  | cancel =>
      simp only [next, JobRun.cancel, List.map_map]
      exact List.map_congr_left fun h _ => JobHandle.fresh_cancel h

theorem map_fresh_after (st : State α) (events : List (Event α)) :
    (st.after clock cacheClock events).run.handles.map (·.fresh) =
      st.run.handles.map (·.fresh) :=
  List.foldlRecOn (motive := fun last : State α =>
      last.run.handles.map (·.fresh) = st.run.handles.map (·.fresh)) events _ rfl
    fun last hlast event _ => (map_fresh_next clock cacheClock last event).trans hlast

theorem map_fresh_start (jobs : List (Job × Nat)) (cancellable : Bool) (s : Services α) :
    (start clock cacheClock jobs cancellable s).run.handles.map (·.fresh) =
      jobs.map fun p =>
        JobHandle.start p.1 p.2 (if cancellable then some .shared else none) := by
  simp only [start, JobRun.start, tick_eq, List.map_map]
  exact List.map_congr_left fun p _ => JobHandle.fresh_settle _ _ _

theorem length_handles (jobs : List (Job × Nat)) (cancellable : Bool) (s : Services α)
    (events : List (Event α)) : ((start clock cacheClock jobs cancellable s).after clock cacheClock
      events).run.handles.length = jobs.length := by
  have hkept := map_fresh_after clock cacheClock (start clock cacheClock jobs cancellable s) events
  rw [map_fresh_start] at hkept
  simpa using congrArg List.length hkept

/-- Every handle has the token of the run, if that has one. -/
theorem token_eq (jobs : List (Job × Nat)) (cancellable : Bool) (s : Services α)
    (events : List (Event α)) : ∀ h ∈ ((start clock cacheClock jobs cancellable s).after clock
      cacheClock events).run.handles, h.token = if cancellable then .shared else .own := by
  intro h hh
  have hkept := map_fresh_after clock cacheClock (start clock cacheClock jobs cancellable s) events
  rw [map_fresh_start] at hkept
  have hfresh := List.mem_map_of_mem (f := (·.fresh)) hh
  rw [hkept] at hfresh
  obtain ⟨p, -, hp⟩ := List.mem_map.mp hfresh
  have htoken : h.fresh.token = h.token := rfl
  rw [← htoken, ← hp]
  cases cancellable <;> rfl

/-! ### After a cancel -/

variable {st : State α}

theorem ended_next (hended : ∀ h ∈ st.run.handles, h.ended = true)
    (event : Event α) : ∀ h ∈ (st.next clock cacheClock event).run.handles, h.ended = true := by
  cases event with
  | elapse span =>
      simp only [next, elapse, advance_of_ended clock cacheClock hended]
      exact hended
  | change f => exact hended
  | cancel =>
      intro h hh
      obtain ⟨g, hg, rfl⟩ := List.mem_map.mp hh
      rw [JobHandle.cancel_of_ended (hended g hg)]
      exact hended g hg

theorem services_next (hended : ∀ h ∈ st.run.handles, h.ended = true)
    (event : Event α) : (st.next clock cacheClock event).services =
      event.change?.toList.foldl (fun s f => f s) st.services := by
  cases event with
  | elapse span =>
      simp only [next, elapse, advance_of_ended clock cacheClock hended]
      rfl
  | change f => rfl
  | cancel => rfl

/-- Jobs that have all ended stay so, and the services are left to everybody else. -/
theorem after_of_ended (hended : ∀ h ∈ st.run.handles, h.ended = true)
    (events : List (Event α)) :
    (∀ h ∈ (st.after clock cacheClock events).run.handles, h.ended = true) ∧
      (st.after clock cacheClock events).services =
        (events.filterMap (·.change?)).foldl (fun s f => f s) st.services := by
  induction events generalizing st with
  | nil => exact ⟨hended, rfl⟩
  | cons event rest ih =>
      obtain ⟨hlast, hservices⟩ := ih (ended_next clock cacheClock hended event)
      refine ⟨hlast, ?_⟩
      rw [after, List.foldl_cons, ← after, hservices, services_next clock cacheClock hended]
      cases hchange : event.change? <;> simp [hchange]

theorem ended_cancel (hshared : ∀ h ∈ st.run.handles, h.token = .shared) :
    ∀ h ∈ (st.next clock cacheClock .cancel).run.handles, h.ended = true := by
  intro h hh
  obtain ⟨g, hg, rfl⟩ := List.mem_map.mp hh
  exact JobHandle.ended_cancel_of_shared (hshared g hg)

theorem next_cancel_of_own (hown : ∀ h ∈ st.run.handles, h.token = .own) :
    st.next clock cacheClock .cancel = st := by
  have hkept : st.run.handles.map (·.cancel) = st.run.handles := by
    calc
      st.run.handles.map (·.cancel) = st.run.handles.map id :=
        List.map_congr_left fun h hh => JobHandle.cancel_of_own (hown h hh)
      _ = st.run.handles := List.map_id _
  rw [next, JobRun.cancel, hkept]

/-- There is a handle for each job, whatever happens. Once the token of a run is cancelled, all its jobs
have ended, and from then on the services are changed by nobody but others: no time that passes changes
them. For a run without a token, what happens is the same whether or not somebody cancels on the way. -/
theorem cancel_is_final (jobs : List (Job × Nat)) (s : Services α)
    (before later : List (Event α)) :
    let begun (cancellable : Bool) := start clock cacheClock jobs cancellable s
    let last := (begun true).after clock cacheClock (before ++ .cancel :: later)
    (∀ cancellable events,
      ((begun cancellable).after clock cacheClock events).run.handles.length = jobs.length) ∧
    ((∀ h ∈ last.run.handles, h.ended = true) ∧ last.run.finished = jobs.length ∧
      (∀ span, (last.elapse clock cacheClock span).services = last.services) ∧
      last.services = (later.filterMap (·.change?)).foldl (fun s f => f s)
        ((begun true).after clock cacheClock before).services) ∧
    (begun false).after clock cacheClock (before ++ .cancel :: later) =
      (begun false).after clock cacheClock (before ++ later) := by
  intro begun last
  have hlength (cancellable : Bool) (events : List (Event α)) :=
    length_handles clock cacheClock jobs cancellable s events
  have hsplit (cancellable : Bool) :
      (begun cancellable).after clock cacheClock (before ++ .cancel :: later) =
        ((((begun cancellable).after clock cacheClock before).next clock cacheClock
          .cancel).after clock cacheClock later) := by
    rw [after, List.foldl_append, List.foldl_cons]
    rfl
  refine ⟨hlength, ?_, ?_⟩
  · have hstopped := ended_cancel clock cacheClock (token_eq clock cacheClock jobs true s before)
    have hlast : last = _ := hsplit true
    obtain ⟨hended, hservices⟩ := after_of_ended clock cacheClock hstopped later
    rw [← hlast] at hended hservices
    refine ⟨hended, ?_, ?_, hservices⟩
    · rw [finished, List.filter_eq_self.mpr hended]
      exact hlength true _
    · intro span
      exact services_next clock cacheClock hended (.elapse span)
  · rw [hsplit, next_cancel_of_own clock cacheClock (token_eq clock cacheClock jobs false s before),
      after, after, after, List.foldl_append]

end State

end JobRun

end DnsFilter
