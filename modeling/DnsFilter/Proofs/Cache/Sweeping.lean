import DnsFilter.Proofs.Cache.Run

/-! Additional sweeps go unnoticed. Two caches that hold the same live entries may differ in what has
expired, in their queues and in when they will next look for expired entries. Still they answer the
same, and they run out of room for live entries at the same moment, with the same one as the oldest. -/

namespace DnsFilter.Cache

variable {α : Type} {c d : Cache α} {now : Nat} {key : Key} {payload : α} {ttl : Int}
  {rate : ClockRate}

/-- The counters, but for the one that every sweep changes. -/
def Counters.unswept (c : Counters) : Counters := { c with expirations := 0 }

theorem Counters.unswept_eq_iff {a b : Counters} :
    a.unswept = b.unswept ↔ a.hits = b.hits ∧ a.misses = b.misses ∧ a.insertions = b.insertions ∧
      a.evictions = b.evictions := by
  simp only [unswept, Counters.mk.injEq]
  tauto

/-! ### Room among the live entries -/

/-- A new entry under `key` has to push a live one out. -/
def Crowded (c : Cache α) (now : Nat) (key : Key) : Prop :=
  find? (c.live now) key = none ∧ (c.live now).length = c.limits.maxEntries

theorem Sound.live_eq_of_crowded (h : c.Sound) (hcrowded : Crowded c now key) :
    (∀ p ∈ c.entries, p.2.isExpired now = false) ∧ c.live now = c.entries := by
  have hlength : (c.live now).length = c.entries.length := by
    apply Nat.le_antisymm (List.length_filter_le _ _)
    exact Nat.le_trans h.fits (Nat.le_of_eq hcrowded.2.symm)
  have hlive : ∀ p ∈ c.entries, p.2.isExpired now = false := by
    intro p hp
    rw [← Bool.not_eq_true']
    exact List.length_filter_eq_length_iff.mp hlength p hp
  exact ⟨hlive, live_eq_entries hlive⟩

theorem Sound.withRoom_of_not_crowded (h : c.Sound) (hpos : 0 < c.limits.maxEntries)
    (hcrowded : ¬ Crowded c now key) :
    (c.withRoom now key).live now = c.live now ∧
      (c.withRoom now key).counters.unswept = c.counters.unswept := by
  obtain ⟨hroom, -, -⟩ := h.withRoom hpos now key
  generalize c.withRoom now key = r at hroom
  cases hroom with
  | ready _ => exact ⟨rfl, rfl⟩
  | purged _ _ _ => exact ⟨live_purge c now, rfl⟩
  | evicted habsent hfull hlive _ _ _ =>
      refine absurd ?_ hcrowded
      rw [Crowded, live_eq_entries hlive]
      exact ⟨habsent, hfull⟩

theorem Sound.withRoom_of_crowded (h : c.Sound) (hpos : 0 < c.limits.maxEntries)
    (hcrowded : Crowded c now key) :
    ∃ victim, IsOldest (c.live now) victim ∧
      (c.withRoom now key).live now = without (c.live now) victim.1 ∧
      (c.withRoom now key).counters.unswept =
        { c.counters.unswept with evictions := c.counters.evictions + 1 } := by
  obtain ⟨hnone, hentries⟩ := h.live_eq_of_crowded hcrowded
  obtain ⟨hroom, -, -⟩ := h.withRoom hpos now key
  generalize c.withRoom now key = r at hroom
  rw [Crowded, hentries] at hcrowded
  cases hroom with
  | ready hready => exact absurd hcrowded.2 (Nat.ne_of_lt (hready hcrowded.1))
  | purged _ _ hexpired =>
      obtain ⟨p, hp, hpexpired⟩ := hexpired
      rw [hnone p hp] at hpexpired
      cases hpexpired
  | evicted _ _ _ hvictim _ _ =>
      refine ⟨_, hentries ▸ hvictim, ?_, rfl⟩
      exact (without_filter _).symm

theorem Sound.live_put (h : c.Sound) (hstores : Stores c.limits ttl) (now : Nat) (key : Key)
    (payload : α) :
    ((c.put now key payload ttl rate).live now).Perm
      ((key, c.entryFor now payload ttl rate) :: without ((c.withRoom now key).live now) key) := by
  obtain ⟨-, hsound, -⟩ := h.withRoom hstores.2.2 now key
  have hlive : (c.entryFor now payload ttl rate).isExpired now = false := by
    have hkept : 0 < CacheLimits.kept c.limits ttl * rate.perSecond :=
      Nat.mul_pos hstores.2.1 rate.pos
    have hlater : ¬ now + CacheLimits.kept c.limits ttl * rate.perSecond ≤ now := by omega
    exact decide_eq_false hlater
  have hplace := hsound.keyed.place_perm key (c.entryFor now payload ttl rate)
  rw [h.put_of_stores hstores]
  unfold live
  rw [compact_entries, without_filter]
  refine (hplace.filter _).trans (List.Perm.of_eq ?_)
  exact List.filter_cons_of_pos (by rw [hlive]; rfl)

theorem Sound.counters_put (h : c.Sound) (hstores : Stores c.limits ttl) (now : Nat) (key : Key)
    (payload : α) :
    (c.put now key payload ttl rate).counters.unswept =
      let counters := (c.withRoom now key).counters.unswept
      { counters with insertions := counters.insertions + 1 } := by
  rw [h.put_of_stores hstores, compact_counters]
  rfl

theorem Sound.counters_get (h : c.Sound) (now : Nat) (key : Key) :
    (c.get now key).1.counters.unswept =
      let counters := c.counters.unswept
      if (find? (c.live now) key).isSome then { counters with hits := counters.hits + 1 }
      else { counters with misses := counters.misses + 1 } := by
  rw [h.find?_live]
  rcases get_cases c now key with ⟨e, hpeek, hlive, hget⟩ | ⟨e, hpeek, hexpired, hget⟩ | ⟨hpeek, hget⟩
  · rw [hget, hpeek, Option.filter_some, hlive]
    rfl
  · rw [hget, hpeek, Option.filter_some, hexpired]
    rfl
  · rw [hget, hpeek]
    rfl

/-! ### Caches that differ in what has expired -/

structure Mirror (c d : Cache α) (now : Nat) : Prop where
  left : c.Sound
  right : d.Sound
  limits : c.limits = d.limits
  nextSeq : c.nextSeq = d.nextSeq
  live : (c.live now).Perm (d.live now)
  counters : c.counters.unswept = d.counters.unswept

theorem Mirror.find?_live (h : Mirror c d now) (key : Key) :
    find? (c.live now) key = find? (d.live now) key :=
  (h.left.keyed_live now).find?_perm h.live

theorem Mirror.crowded_iff (h : Mirror c d now) : Crowded c now key ↔ Crowded d now key := by
  rw [Crowded, Crowded, h.find?_live, h.live.length_eq, h.limits]

/-- The same live entry has to go, if one has to. -/
theorem Mirror.withRoom (h : Mirror c d now) (hpos : 0 < c.limits.maxEntries) (key : Key) :
    ((c.withRoom now key).live now).Perm ((d.withRoom now key).live now) ∧
      (c.withRoom now key).counters.unswept = (d.withRoom now key).counters.unswept := by
  have hposd : 0 < d.limits.maxEntries := h.limits ▸ hpos
  by_cases hcrowded : Crowded c now key
  · obtain ⟨p, hp, hplive, hpcounters⟩ := h.left.withRoom_of_crowded hpos hcrowded
    obtain ⟨q, hq, hqlive, hqcounters⟩ :=
      h.right.withRoom_of_crowded hposd (h.crowded_iff.mp hcrowded)
    have hpq : p = q := h.right.isOldest_unique List.filter_sublist.subset (hp.perm h.live) hq
    obtain ⟨-, -, -, hevictions⟩ := Counters.unswept_eq_iff.mp h.counters
    rw [hplive, hqlive, hpcounters, hqcounters, hpq, h.counters, hevictions]
    exact ⟨without_perm h.live, rfl⟩
  · obtain ⟨hclive, hccounters⟩ := h.left.withRoom_of_not_crowded hpos hcrowded
    obtain ⟨hdlive, hdcounters⟩ :=
      h.right.withRoom_of_not_crowded hposd (mt h.crowded_iff.mpr hcrowded)
    rw [hclive, hdlive, hccounters, hdcounters]
    exact ⟨h.live, h.counters⟩

theorem Mirror.put (h : Mirror c d now) (key : Key) (payload : α) (ttl : Int) :
    Mirror (c.put now key payload ttl rate) (d.put now key payload ttl rate) now := by
  by_cases hstores : Stores c.limits ttl
  · have hstoresd : Stores d.limits ttl := h.limits ▸ hstores
    obtain ⟨hlive, hcounters⟩ := h.withRoom hstores.2.2 key
    have hentry : c.entryFor now payload ttl rate = d.entryFor now payload ttl rate := by
      rw [entryFor, entryFor, h.limits, h.nextSeq]
    constructor
    case left => exact h.left.put now key payload ttl
    case right => exact h.right.put now key payload ttl
    case limits => rw [h.left.limits_put, h.right.limits_put, h.limits]
    case nextSeq => rw [h.left.nextSeq_put hstores, h.right.nextSeq_put hstoresd, h.nextSeq]
    case live =>
      refine (h.left.live_put hstores now key payload).trans ?_
      refine List.Perm.trans ?_ (h.right.live_put hstoresd now key payload).symm
      rw [hentry]
      exact (without_perm hlive).cons _
    case counters => rw [h.left.counters_put hstores, h.right.counters_put hstoresd, hcounters]
  · have hstoresd : ¬ Stores d.limits ttl := h.limits ▸ hstores
    rw [put_of_not_stores hstores, put_of_not_stores hstoresd]
    exact h

theorem Mirror.get (h : Mirror c d now) (key : Key) :
    Mirror (c.get now key).1 (d.get now key).1 now where
  left := h.left.get now key
  right := h.right.get now key
  limits := by rw [limits_get, limits_get, h.limits]
  nextSeq := by rw [nextSeq_get, nextSeq_get, h.nextSeq]
  live := by
    rw [h.left.live_get, h.right.live_get]
    exact h.live
  counters := by rw [h.left.counters_get, h.right.counters_get, h.find?_live, h.counters]

theorem Mirror.answer_eq (h : Mirror c d now) (key : Key) : (c.get now key).2 = (d.get now key).2 := by
  rw [h.left.get_answer, h.right.get_answer, h.find?_live]

/-- Only one of two caches is swept, and they stay alike. -/
theorem Mirror.sweep_left (h : Mirror c d now) : Mirror (c.sweep now).1 d now where
  left := h.left.sweep now
  right := h.right
  limits := (compact_limits _).trans h.limits
  nextSeq := (compact_nextSeq _).trans h.nextSeq
  live := by
    rw [live_sweep]
    exact h.live
  counters := by
    rw [sweep, compact_counters]
    exact h.counters

theorem Mirror.symm (h : Mirror c d now) : Mirror d c now :=
  ⟨h.right, h.left, h.limits.symm, h.nextSeq.symm, h.live.symm, h.counters.symm⟩

theorem Mirror.clear (h : Mirror c d now) : Mirror c.clear d.clear now :=
  ⟨h.left.clear, h.right.clear, h.limits, h.nextSeq, List.Perm.refl _, rfl⟩

theorem Mirror.later (h : Mirror c d now) (steps : Nat) : Mirror c d (now + steps) where
  left := h.left
  right := h.right
  limits := h.limits
  nextSeq := h.nextSeq
  live := by
    have hle : now ≤ now + steps := Nat.le_add_right now steps
    rw [live_eq_filter_live hle, @live_eq_filter_live _ d _ _ hle]
    exact h.live.filter _
  counters := h.counters

/-! ### Runs with additional sweeps -/

namespace Run

def Mirrors (r s : Run α) : Prop :=
  r.now = s.now ∧ r.rate = s.rate ∧ Mirror r.cache s.cache r.now

variable {r s : Run α}

theorem Mirrors.next (h : Mirrors r s) (call : Call α) : Mirrors (r.next call) (s.next call) := by
  obtain ⟨cache, now, rate⟩ := s
  obtain ⟨rfl, rfl, h⟩ := h
  cases call with
  | put domain type payload ttl => exact ⟨rfl, rfl, h.put (.of domain type) payload ttl⟩
  | get domain type => exact ⟨rfl, rfl, h.get (.of domain type)⟩
  | peek domain type => exact ⟨rfl, rfl, h⟩
  | sweep => exact ⟨rfl, rfl, h.sweep_left.symm.sweep_left.symm⟩
  | clear => exact ⟨rfl, rfl, h.clear⟩
  | advance steps => exact ⟨rfl, rfl, h.later steps⟩

theorem Mirrors.sweep_left (h : Mirrors r s) : Mirrors (r.next .sweep) s :=
  ⟨h.1, h.2.1, h.2.2.sweep_left⟩

theorem Mirrors.answer?_eq (h : Mirrors r s) (call : Call α) : r.answer? call = s.answer? call := by
  obtain ⟨cache, now, rate⟩ := s
  obtain ⟨rfl, -, h⟩ := h
  cases call with
  | get domain type => exact congrArg some (h.answer_eq (.of domain type))
  | put _ _ _ _ => rfl
  | peek _ _ => rfl
  | sweep => rfl
  | clear => rfl
  | advance _ => rfl

/-- A script of calls, where `none` stands for an additional sweep. -/
abbrev Script (α : Type) := List (Option (Call α))

/-- The calls of a script without the additional sweeps. -/
def Script.plain (script : Script α) : List (Call α) := script.filterMap id

/-- The calls of a script with the additional sweeps. -/
def Script.swept (script : Script α) : List (Call α) := script.map fun call => call.getD .sweep

theorem Mirrors.after (h : Mirrors r s) (script : Script α) :
    Mirrors (r.after script.swept) (s.after script.plain) := by
  induction script generalizing r s with
  | nil => exact h
  | cons call rest ih =>
      cases call with
      | none => exact ih h.sweep_left
      | some call => exact ih (h.next call)

theorem Mirrors.answers_eq (h : Mirrors r s) (script : Script α) :
    r.answers script.swept = s.answers script.plain := by
  induction script generalizing r s with
  | nil => rfl
  | cons call rest ih =>
      cases call with
      | none => exact ih h.sweep_left
      | some call =>
          show (r.answer? call).toList ++ (r.next call).answers (Script.swept rest) =
            (s.answer? call).toList ++ (s.next call).answers (Script.plain rest)
          rw [h.answer?_eq, ih (h.next call)]

theorem mirrors_start (limits : CacheLimits) (rate : ClockRate) (now : Nat) :
    Mirrors (start limits rate now : Run α) (start limits rate now) :=
  ⟨rfl, rfl, sound_empty limits, sound_empty limits, rfl, rfl, List.Perm.refl _, rfl⟩

/-- Wherever a run is swept in addition, its look-ups answer the same, and at each of its moments its
counters, but for the one of expirations, and its live entries are the same. -/
theorem additional_sweeps_unseen (limits : CacheLimits) (rate : ClockRate) (now : Nat)
    (script : Script α) :
    (start limits rate now).answers script.swept = (start limits rate now).answers script.plain ∧
    ∀ moment : Nat,
      let part : Script α := script.take moment
      let swept := (start limits rate now).after part.swept
      let plain := (start limits rate now).after part.plain
      swept.cache.counters.hits = plain.cache.counters.hits ∧
      swept.cache.counters.misses = plain.cache.counters.misses ∧
      swept.cache.counters.insertions = plain.cache.counters.insertions ∧
      swept.cache.counters.evictions = plain.cache.counters.evictions ∧
      swept.now = plain.now ∧
      ∀ key, find? (swept.cache.live swept.now) key = find? (plain.cache.live plain.now) key := by
  have hstart : Mirrors (start limits rate now : Run α) (start limits rate now) :=
    mirrors_start limits rate now
  refine ⟨hstart.answers_eq script, fun moment => ?_⟩
  obtain ⟨hnow, -, hmirror⟩ := hstart.after (script.take moment)
  obtain ⟨hhits, hmisses, hinsertions, hevictions⟩ :=
    Counters.unswept_eq_iff.mp hmirror.counters
  refine ⟨hhits, hmisses, hinsertions, hevictions, hnow, fun key => ?_⟩
  rw [← hnow]
  exact hmirror.find?_live key

/-- The runs are not the same: what has expired is gone only from the one that was swept. -/
example :
    let script : Script Nat := [some (.put "ads.com" .a 1 5), some (.advance 6000), none]
    ((start ⟨2, 100⟩ .millis 0).after script.swept).cache.size = 0 ∧
      ((start ⟨2, 100⟩ .millis 0).after script.plain).cache.size = 1 := by
  decide +kernel

end Run

end DnsFilter.Cache
