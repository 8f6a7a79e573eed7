import DnsFilter.Proofs.Jobs.Cancelling
import Mathlib.Data.List.Basic

/-! What started jobs have done. Everything that changes the services is written down: the passes that
jobs have made, each with its second, and the changes made by others. The services at the end are what
these make of the services at the beginning, one after the other, so that nothing is left out and nothing
is made up. -/

namespace DnsFilter

variable {α : Type}

namespace JobRun

/-- A pass that was made: by the job at a place of the list, in a second since the start. -/
structure Turn where
  place : Nat
  job : Job
  second : Nat
  deriving DecidableEq, Repr

/-- The order of seconds, and within one second the order of the list. -/
def Turn.Before (t u : Turn) : Prop :=
  t.second < u.second ∨ t.second = u.second ∧ t.place < u.place

/-- The passes of one second, made by the handles that are due in it. -/
def turnsIn (second : Nat) (handles : List JobHandle) : List Turn :=
  (handles.zipIdx.filter fun h => h.1.isDue second).map fun h => ⟨h.2, h.1.job, second⟩

/-- What was done to the services. -/
inductive Deed (α : Type) where
  | pass (turn : Turn)
  | change (f : Services α → Services α)

def Deed.turn? : Deed α → Option Turn
  | .pass turn => some turn
  | .change _ => none

section Clocks

variable (clock : Nat → Instant) (cacheClock : Nat → Nat)

/-- The passes made while seconds go by. -/
def turns : Nat → JobRun × Services α → List Turn
  | 0, _ => []
  | n + 1, p =>
      turnsIn (p.1.elapsed + 1) p.1.handles ++ turns n (advance clock cacheClock 1 p)

def Deed.apply (s : Services α) : Deed α → Services α
  | .pass turn => turn.job.passOrKeep (clock turn.second) (cacheClock turn.second) s
  | .change f => f s

namespace State

def deeds (st : State α) : Event α → List (Deed α)
  | .elapse span =>
      (turns clock cacheClock ((st.nanos + span) / Instant.nanosPerSecond)
        (st.run, st.services)).map .pass
  | .change f => [.change f]
  | .cancel => []

def deedsAfter (st : State α) : List (Event α) → List (Deed α)
  | [] => []
  | event :: rest =>
      st.deeds clock cacheClock event ++ (st.next clock cacheClock event).deedsAfter rest

/-- Everything done since the start, which makes the first passes. -/
def history (jobs : List (Job × Nat)) (cancellable : Bool) (s : Services α)
    (events : List (Event α)) : List (Deed α) :=
  let given := if cancellable then some Token.shared else none
  (turnsIn 0 (jobs.map fun p => JobHandle.start p.1 p.2 given)).map .pass ++
    (start clock cacheClock jobs cancellable s).deedsAfter clock cacheClock events

end State

/-! ### The services are what was done to them -/

theorem foldl_turnsIn (second : Nat) (handles : List JobHandle) (s : Services α) :
    ((turnsIn second handles).map .pass).foldl (Deed.apply clock cacheClock) s =
      (handles.filter (·.isDue second)).foldl
        (fun s h => h.job.passOrKeep (clock second) (cacheClock second) s) s := by
  have hdue : handles.filter (·.isDue second) =
      (handles.zipIdx.filter fun h => h.1.isDue second).map Prod.fst := by
    calc
      handles.filter (·.isDue second) =
          (handles.zipIdx.map Prod.fst).filter (·.isDue second) := by
        rw [List.zipIdx_map_fst]
      _ = _ := List.filter_map
  rw [hdue, turnsIn, List.foldl_map, List.foldl_map, List.foldl_map]
  rfl

theorem services_advance (n : Nat) (run : JobRun) (s : Services α) :
    (advance clock cacheClock n (run, s)).2 =
      ((turns clock cacheClock n (run, s)).map .pass).foldl (Deed.apply clock cacheClock) s := by
  induction n generalizing run s with
  | zero =>
      rw [advance_zero]
      rfl
  | succ n ih =>
      rw [turns, List.map_append, List.foldl_append, foldl_turnsIn, advance_succ, advance_one]
      exact ih _ _

namespace State

theorem services_next_eq (st : State α) (event : Event α) :
    (st.next clock cacheClock event).services =
      (st.deeds clock cacheClock event).foldl (Deed.apply clock cacheClock) st.services := by
  cases event with
  | elapse span => exact services_advance clock cacheClock _ st.run st.services
  | change f => rfl
  | cancel => rfl

theorem services_after (st : State α) (events : List (Event α)) :
    (st.after clock cacheClock events).services =
      (st.deedsAfter clock cacheClock events).foldl (Deed.apply clock cacheClock) st.services := by
  induction events generalizing st with
  | nil => rfl
  | cons event rest ih =>
      rw [deedsAfter, List.foldl_append, ← services_next_eq, ← ih]
      rfl

theorem services_start (jobs : List (Job × Nat)) (cancellable : Bool) (s : Services α)
    (events : List (Event α)) :
    ((start clock cacheClock jobs cancellable s).after clock cacheClock events).services =
      (history clock cacheClock jobs cancellable s events).foldl
        (Deed.apply clock cacheClock) s := by
  rw [history, List.foldl_append, foldl_turnsIn, services_after, start, JobRun.start]
  simp only [tick_eq]

end State

end Clocks

/-! ### The passes of one job -/

theorem filter_zipIdx {β : Type} (l : List β) (place first : Nat) :
    (l.zipIdx first).filter (fun b => b.2 == first + place) =
      l[place]?.toList.map (·, first + place) := by
  induction l generalizing place first with
  | nil => rfl
  | cons b rest ih =>
      have hlater (k : Nat) : (rest.zipIdx (first + 1)).filter (fun b => b.2 == first + k + 1) =
          rest[k]?.toList.map (·, first + k + 1) := by
        simpa [Nat.add_assoc, Nat.add_comm 1] using ih k (first + 1)
      cases place with
      | zero =>
          have hnone : (rest.zipIdx (first + 1)).filter (fun b => b.2 == first) = [] := by
            apply List.filter_eq_nil_iff.mpr
            intro c hc
            have hpast := List.le_snd_of_mem_zipIdx hc
            simp only [beq_iff_eq]
            omega
          simp [List.zipIdx_cons, hnone]
      | succ k =>
          simpa [List.zipIdx_cons, Nat.add_assoc] using hlater k

/-- In one second a job makes one pass if it is due, and none otherwise. -/
theorem filter_turnsIn (second place : Nat) (handles : List JobHandle) :
    (turnsIn second handles).filter (·.place == place) =
      (handles[place]?.toList.filter (·.isDue second)).map fun h => ⟨place, h.job, second⟩ := by
  have hplace := filter_zipIdx handles place 0
  simp only [Nat.zero_add] at hplace
  rw [turnsIn, List.filter_map, List.filter_filter]
  have hswap : (fun h : JobHandle × Nat => (((·.place == place) ∘ fun h : JobHandle × Nat =>
      (⟨h.2, h.1.job, second⟩ : Turn)) h && h.1.isDue second)) =
      fun h => h.1.isDue second && h.2 == place := by
    funext h
    exact Bool.and_comm _ _
  rw [hswap, ← List.filter_filter, hplace, List.filter_map, List.map_map]
  rfl

theorem pairwise_turnsIn (second : Nat) (handles : List JobHandle) :
    (turnsIn second handles).Pairwise Turn.Before := by
  have hplaces : handles.zipIdx.Pairwise fun a b => a.2 < b.2 := by
    rw [← List.pairwise_map (f := Prod.snd) (R := (· < ·)), List.zipIdx_map_snd]
    exact List.pairwise_lt_range'
  exact List.pairwise_map.mpr ((hplaces.filter _).imp fun h => .inr ⟨rfl, h⟩)

theorem second_of_mem_turnsIn {second : Nat} {handles : List JobHandle} {t : Turn}
    (ht : t ∈ turnsIn second handles) : t.second = second := by
  obtain ⟨h, -, rfl⟩ := List.mem_map.mp ht
  rfl

end JobRun

end DnsFilter
