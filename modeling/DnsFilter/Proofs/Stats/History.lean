import DnsFilter.Proofs.Lookup
import DnsFilter.Proofs.Stats.Retention
import DnsFilter.Proofs.Time.Order
import Mathlib.Data.Finset.Card
import Mathlib.Data.List.Induction

/-! What a query counter tells of the past. Queries are counted in whatever order they are told, and
counters that are old are dropped now and then. The counter of a name knows the queries since it was
last dropped: how many they were and when the latest was. A name without such a query has no counter. -/

namespace DnsFilter.QueryStats

theorem run_append (earlier later : List Call) :
    run (earlier ++ later) = later.foldl after (run earlier) :=
  List.foldl_append

theorem run_concat (calls : List Call) (call : Call) :
    run (calls ++ [call]) = (run calls).after call :=
  run_append calls [call]

/-! ### One counter for a name -/

def Distinct (stats : QueryStats) : Prop := (stats.counters.map (·.domain)).Nodup

variable {stats : QueryStats} {calls earlier recent : List Call} {domain : String}
  {cutoff : Instant} {c : QueryCounter} {times : List Instant}

theorem domain_tallied (domain : String) (t : Instant) (before : Option QueryCounter) :
    (tallied domain t before).domain = domain := by
  cases before <;> rfl

theorem Distinct.after (h : stats.Distinct) (call : Call) : (stats.after call).Distinct := by
  unfold Distinct at *
  cases call with
  | record domain at_ => exact nodup_map_upsert (fun old _ => domain_tallied domain at_ old) h
  | prune cutoff => exact h.sublist (List.filter_sublist.map _)

theorem distinct_run (calls : List Call) : (run calls).Distinct := by
  unfold run
  exact List.foldlRecOn (motive := Distinct) calls QueryStats.after List.nodup_nil
    fun _ h call _ => h.after call

theorem Distinct.counter?_eq_some_iff (h : stats.Distinct) :
    stats.counter? domain = some c ↔ c ∈ stats.counters ∧ c.domain = domain :=
  find?_key_eq_some_iff h

/-! ### What is found after a call -/

/-- The counters found after a call, told from those found before. -/
def found (before : String → Option QueryCounter) : Call → String → Option QueryCounter
  | .record domain at_ => fun name =>
      if domain = name then some (tallied domain at_ (before name)) else before name
  | .prune cutoff => fun name => (before name).filter fun c => !decide (c.lastQueried < cutoff)

theorem counter?_record (stats : QueryStats) (domain : String) (t : Instant) (name : String) :
    (stats.record domain t).counter? name =
      if domain = name then some (tallied domain t (stats.counter? name))
      else stats.counter? name := by
  refine (find?_upsert (fun old _ => domain_tallied domain t old) stats.counters name).trans ?_
  by_cases hname : domain = name
  · rw [if_pos hname, if_pos hname, hname, counter?]
  · rw [if_neg hname, if_neg hname, counter?]

theorem Distinct.counter?_prune (h : stats.Distinct) (cutoff : Instant) (name : String) :
    (stats.removeOlder cutoff).1.counter? name =
      (stats.counter? name).filter fun c => !decide (c.lastQueried < cutoff) := by
  rw [removeOlder_eq]
  exact find?_key_filter h _ name

theorem Distinct.counter?_after (h : stats.Distinct) (call : Call) :
    (stats.after call).counter? = found stats.counter? call := by
  funext name
  cases call with
  | record domain at_ => exact counter?_record stats domain at_ name
  | prune cutoff => exact h.counter?_prune cutoff name

theorem Distinct.counter?_foldl (h : stats.Distinct) (calls : List Call) :
    (calls.foldl QueryStats.after stats).counter? = calls.foldl found stats.counter? := by
  induction calls generalizing stats with
  | nil => rfl
  | cons call rest ih =>
      rw [List.foldl_cons, List.foldl_cons, ih (h.after call), h.counter?_after]

/-! ### Queries told in another order -/

theorem tallied_comm (domain : String) (t u : Instant) (before : Option QueryCounter) :
    tallied domain u (some (tallied domain t before)) =
      tallied domain t (some (tallied domain u before)) := by
  cases before with
  | none => simp only [tallied, max_comm]
  | some c => simp only [tallied, max_right_comm]

theorem found_comm {call other : Call} (hcall : call.isRecord = true)
    (hother : other.isRecord = true) (before : String → Option QueryCounter) :
    found (found before call) other = found (found before other) call := by
  cases call with
  | prune cutoff => cases hcall
  | record domain t =>
      cases other with
      | prune cutoff => cases hother
      | record domain' u =>
          funext name
          by_cases h : domain = name
          · by_cases h' : domain' = name
            · subst h h'
              simp only [found, if_true, tallied_comm]
            · simp only [found, h, h', if_true, if_false]
          · by_cases h' : domain' = name <;> simp only [found, h, h', if_true, if_false]

theorem counter?_run_perm {records others : List Call} (hperm : records.Perm others)
    (hrecords : ∀ call ∈ records, call.isRecord = true) (earlier later : List Call) :
    (run (earlier ++ records ++ later)).counter? = (run (earlier ++ others ++ later)).counter? := by
  have hblock : records.foldl found (run earlier).counter? =
      others.foldl found (run earlier).counter? :=
    hperm.foldl_eq' (fun call hcall other hother before =>
      found_comm (hrecords call hcall) (hrecords other hother) before) _
  rw [List.append_assoc, List.append_assoc, run_append, run_append,
    (distinct_run earlier).counter?_foldl, (distinct_run earlier).counter?_foldl,
    List.foldl_append, List.foldl_append, hblock]

/-! ### Dropping counters -/

/-- Whether a prune at the end of a history drops the counter of a name: it is there before and not
after. -/
def Drops (earlier : List Call) (cutoff : Instant) (domain : String) : Prop :=
  (∃ c, (run earlier).counter? domain = some c) ∧
    (run (earlier ++ [.prune cutoff])).counter? domain = none

theorem counter?_run_prune (calls : List Call) (cutoff : Instant) (domain : String) :
    (run (calls ++ [.prune cutoff])).counter? domain =
      ((run calls).counter? domain).filter fun c => !decide (c.lastQueried < cutoff) := by
  rw [run_concat]
  exact (distinct_run calls).counter?_prune cutoff domain

theorem drops_iff : Drops calls cutoff domain ↔
    ∃ c, (run calls).counter? domain = some c ∧ c.lastQueried < cutoff := by
  rw [Drops, counter?_run_prune]
  cases (run calls).counter? domain <;> simp

theorem counter?_of_not_drops (h : ¬ Drops calls cutoff domain) :
    (run (calls ++ [.prune cutoff])).counter? domain = (run calls).counter? domain := by
  rw [drops_iff] at h
  rw [counter?_run_prune]
  cases hfound : (run calls).counter? domain with
  | none => rfl
  | some c =>
      have hlast : ¬ c.lastQueried < cutoff := fun hlast => h ⟨c, hfound, hlast⟩
      simp [hlast]

/-- A prune answers how many counters it drops. -/
theorem exists_dropped (calls : List Call) (cutoff : Instant) :
    ∃ dropped : Finset String, (∀ domain, domain ∈ dropped ↔ Drops calls cutoff domain) ∧
      ((run calls).removeOlder cutoff).2 = dropped.card := by
  have hdistinct := distinct_run calls
  let old := (run calls).counters.filter fun c => decide (c.lastQueried < cutoff)
  have hold : (old.map (·.domain)).Nodup := hdistinct.sublist (List.filter_sublist.map _)
  refine ⟨(old.map (·.domain)).toFinset, fun domain => ?_, ?_⟩
  · simp only [List.mem_toFinset, List.mem_map, old, List.mem_filter, decide_eq_true_eq, drops_iff,
      hdistinct.counter?_eq_some_iff]
    constructor
    · rintro ⟨c, ⟨hc, hlast⟩, rfl⟩
      exact ⟨c, ⟨hc, rfl⟩, hlast⟩
    · rintro ⟨c, ⟨hc, rfl⟩, hlast⟩
      exact ⟨c, ⟨hc, hlast⟩, rfl⟩
  · rw [removeOlder_eq, List.toFinset_card_of_nodup hold, List.length_map,
      List.countP_eq_length_filter]

/-! ### Since a counter was dropped -/

/-- The times at which a name was asked for, in the order in which they were told. -/
def timesOf (domain : String) (calls : List Call) : List Instant :=
  calls.filterMap fun
    | .record name t => if name = domain then some t else none
    | .prune _ => none

/-- A history `earlier ++ recent` is split where the counter of a name was dropped last: `earlier` ends
there, or is empty if it never was, and no prune in `recent` drops it. -/
structure SplitsAtDrop (domain : String) (earlier recent : List Call) : Prop where
  dropped : earlier = [] ∨
    ∃ before cutoff, earlier = before ++ [.prune cutoff] ∧ Drops before cutoff domain
  kept : ∀ before cutoff later, recent = before ++ .prune cutoff :: later →
    ¬ Drops (earlier ++ before) cutoff domain

/-- A counter tells how many queries there were and when the latest was; where there were none, there is
no counter. -/
def Tells (times : List Instant) : Option QueryCounter → Prop
  | none => times = []
  | some c => c.count = times.length ∧ c.lastQueried ∈ times ∧ ∀ t ∈ times, t ≤ c.lastQueried

theorem Tells.tallied {before : Option QueryCounter} (h : Tells times before) (domain : String)
    (t : Instant) : Tells (times ++ [t]) (some (tallied domain t before)) := by
  cases before with
  | none =>
      obtain rfl : times = [] := h
      exact ⟨rfl, List.mem_singleton_self t, by simp [QueryStats.tallied]⟩
  | some c =>
      obtain ⟨hcount, hmem, hlatest⟩ := h
      refine ⟨?_, ?_, ?_⟩
      · rw [List.length_append, ← hcount]
        rfl
      · show max c.lastQueried t ∈ times ++ [t]
        rcases max_choice c.lastQueried t with hmax | hmax
        · rw [hmax]
          exact List.mem_append_left _ hmem
        · rw [hmax]
          exact List.mem_append_right _ List.mem_cons_self
      · intro u hu
        rcases List.mem_append.mp hu with hold | hnew
        · exact (hlatest u hold).trans (le_max_left _ _)
        · rw [List.mem_singleton.mp hnew]
          exact le_max_right _ _

theorem timesOf_concat_record (calls : List Call) (name domain : String) (t : Instant) :
    timesOf domain (calls ++ [.record name t]) =
      if name = domain then timesOf domain calls ++ [t] else timesOf domain calls := by
  rw [timesOf, List.filterMap_append]
  split_ifs with h <;> simp [h, timesOf]

theorem timesOf_concat_prune (calls : List Call) (domain : String) (cutoff : Instant) :
    timesOf domain (calls ++ [.prune cutoff]) = timesOf domain calls := by
  rw [timesOf, List.filterMap_append]
  simp [timesOf]

theorem SplitsAtDrop.counter?_earlier (h : SplitsAtDrop domain earlier recent) :
    (run earlier).counter? domain = none := by
  rcases h.dropped with rfl | ⟨before, cutoff, rfl, hdrop⟩
  · rfl
  · exact hdrop.2

theorem SplitsAtDrop.of_concat {call : Call} (h : SplitsAtDrop domain earlier (recent ++ [call])) :
    SplitsAtDrop domain earlier recent where
  dropped := h.dropped
  kept := by
    rintro before cutoff later rfl
    exact h.kept before cutoff (later ++ [call]) (by simp)

theorem SplitsAtDrop.concat {call : Call} (h : SplitsAtDrop domain earlier recent)
    (hcall : ∀ cutoff, call = .prune cutoff → ¬ Drops (earlier ++ recent) cutoff domain) :
    SplitsAtDrop domain earlier (recent ++ [call]) where
  dropped := h.dropped
  kept := by
    intro before cutoff later hsplit
    rcases List.eq_nil_or_concat later with rfl | ⟨later, last, rfl⟩
    · obtain ⟨rfl, hlast⟩ := List.append_inj' hsplit rfl
      exact hcall cutoff (List.singleton_inj.mp hlast)
    · rw [List.concat_eq_append, ← List.cons_append, ← List.append_assoc] at hsplit
      exact h.kept before cutoff later (List.append_inj' hsplit rfl).1

/-- The counter of a name tells of the queries since it was dropped last. -/
theorem SplitsAtDrop.tells (h : SplitsAtDrop domain earlier recent) :
    Tells (timesOf domain recent) ((run (earlier ++ recent)).counter? domain) := by
  -- from the end: a query is counted, and a prune leaves the counter alone
  induction recent using List.reverseRecOn with
  | nil =>
      rw [List.append_nil, h.counter?_earlier]
      rfl
  | append_singleton recent call ih =>
      have htells := ih h.of_concat
      rw [← List.append_assoc]
      cases call with
      | record name t =>
          rw [run_concat, timesOf_concat_record]
          show Tells _ (((run (earlier ++ recent)).record name t).counter? domain)
          rw [counter?_record]
          split_ifs with hname
          · exact htells.tallied name t
          · exact htells
      | prune cutoff =>
          rw [timesOf_concat_prune, counter?_of_not_drops (h.kept recent cutoff [] rfl)]
          exact htells

theorem exists_splitsAtDrop (domain : String) (calls : List Call) :
    ∃ earlier recent, calls = earlier ++ recent ∧ SplitsAtDrop domain earlier recent := by
  induction calls using List.reverseRecOn with
  | nil => exact ⟨[], [], rfl, .inl rfl, by simp⟩
  | append_singleton calls call ih =>
      obtain ⟨earlier, recent, rfl, hsplit⟩ := ih
      by_cases hdrop : ∃ cutoff, call = .prune cutoff ∧ Drops (earlier ++ recent) cutoff domain
      · obtain ⟨cutoff, rfl, hdrop⟩ := hdrop
        exact ⟨earlier ++ recent ++ [.prune cutoff], [], by simp,
          .inr ⟨_, cutoff, rfl, hdrop⟩, by simp⟩
      · refine ⟨earlier, recent ++ [call], by simp, hsplit.concat fun cutoff hcall hdrops => ?_⟩
        exact hdrop ⟨cutoff, hcall, hdrops⟩

/-- After every history of queries, told in any order of time, and prunes: a history is always split
where the counter of a name was dropped last, and the name has no counter exactly if it was not asked for
since; otherwise its counter has the number of these queries and the time of the latest. A prune drops
just the counters that were last asked for before its cutoff, leaves all others as they are, and answers
how many it drops. Queries between two prunes may be told in another order: all counters are the same
then, and stay so. -/
theorem counters_tell_history (calls : List Call) :
    (∀ domain,
      (∃ earlier recent, calls = earlier ++ recent ∧ SplitsAtDrop domain earlier recent) ∧
      ∀ earlier recent, calls = earlier ++ recent → SplitsAtDrop domain earlier recent →
        ((run calls).counter? domain = none ↔ timesOf domain recent = []) ∧
        ∀ c, (run calls).counter? domain = some c →
          c.count = (timesOf domain recent).length ∧ c.lastQueried ∈ timesOf domain recent ∧
          ∀ t ∈ timesOf domain recent, t ≤ c.lastQueried) ∧
    (∀ cutoff,
      (∀ domain, Drops calls cutoff domain ↔
        ∃ c, (run calls).counter? domain = some c ∧ c.lastQueried < cutoff) ∧
      (∀ domain, ¬ Drops calls cutoff domain →
        (run (calls ++ [.prune cutoff])).counter? domain = (run calls).counter? domain) ∧
      ∃ dropped : Finset String, (∀ domain, domain ∈ dropped ↔ Drops calls cutoff domain) ∧
        ((run calls).removeOlder cutoff).2 = dropped.card) ∧
    ∀ records others later, records.Perm others → (∀ call ∈ records, call.isRecord = true) →
      ∀ domain, (run (calls ++ records ++ later)).counter? domain =
        (run (calls ++ others ++ later)).counter? domain := by
  refine ⟨fun domain => ⟨exists_splitsAtDrop domain calls, ?_⟩, fun cutoff => ⟨?_, ?_, ?_⟩, ?_⟩
  · rintro earlier recent rfl hsplit
    have htells := hsplit.tells
    cases hfound : (run (earlier ++ recent)).counter? domain with
    | none =>
        rw [hfound] at htells
        exact ⟨iff_of_true rfl htells, nofun⟩
    | some c =>
        rw [hfound] at htells
        refine ⟨iff_of_false (Option.some_ne_none c) (List.ne_nil_of_mem htells.2.1), ?_⟩
        intro c' hc'
        obtain rfl := Option.some.inj hc'
        exact htells
  · exact fun domain => drops_iff
  · exact fun domain => counter?_of_not_drops
  · exact exists_dropped calls cutoff
  · intro records others later hperm hrecords domain
    rw [counter?_run_perm hperm hrecords]

/-- A name that is dropped and asked for again starts from one, though its new time is an earlier one. -/
example : (run [.record "a.com" ⟨10, 0⟩, .record "a.com" ⟨3, 0⟩, .prune ⟨10, 0⟩, .prune ⟨11, 0⟩,
    .record "a.com" ⟨5, 0⟩]).counter? "a.com" = some ⟨"a.com", 1, ⟨5, 0⟩⟩ := by
  decide +kernel

end DnsFilter.QueryStats
