import DnsFilter.Proofs.Cache.Displacement

/-! The books of the response cache. Every insertion is of an entry that is still there, was stored
over, or went as an eviction or an expiration, each of which is counted once; every look-up is a hit
or a miss. This holds at every moment of every run, counted from the last clearing on. -/

namespace DnsFilter.Cache

variable {α : Type} {c d : Cache α} {now : Nat} {key : Key} {payload : α} {ttl : Int}

/-- No counter of `a` is ahead of that of `b`. -/
structure Counters.UpTo (a b : Counters) : Prop where
  hits : a.hits ≤ b.hits
  misses : a.misses ≤ b.misses
  evictions : a.evictions ≤ b.evictions
  expirations : a.expirations ≤ b.expirations
  insertions : a.insertions ≤ b.insertions

theorem Counters.UpTo.refl (a : Counters) : a.UpTo a :=
  ⟨Nat.le_refl _, Nat.le_refl _, Nat.le_refl _, Nat.le_refl _, Nat.le_refl _⟩

theorem Counters.UpTo.trans {a b c : Counters} (hab : a.UpTo b) (hbc : b.UpTo c) : a.UpTo c where
  hits := Nat.le_trans hab.hits hbc.hits
  misses := Nat.le_trans hab.misses hbc.misses
  evictions := Nat.le_trans hab.evictions hbc.evictions
  expirations := Nat.le_trans hab.expirations hbc.expirations
  insertions := Nat.le_trans hab.insertions hbc.insertions

/-! ### Tallies -/

/-- What a run has asked of a cache since the last clearing: how often it looked something up, and how
often it stored an answer under a key that had an entry, expired or not. -/
structure Tally where
  lookups : Nat
  replacements : Nat
  deriving DecidableEq, Repr

def Tally.zero : Tally := ⟨0, 0⟩

structure Balanced (c : Cache α) (t : Tally) : Prop where
  insertions : c.counters.insertions =
    c.size + c.counters.evictions + c.counters.expirations + t.replacements
  lookups : c.counters.hits + c.counters.misses = t.lookups

/-- What bounds insertions and look-ups bounds every counter. -/
theorem Balanced.upTo {t : Tally} (hb : Balanced c t) {n : Nat} (hinsertions : c.counters.insertions ≤ n)
    (hlookups : c.counters.hits + c.counters.misses ≤ n) : c.counters.UpTo ⟨n, n, n, n, n⟩ := by
  have hspent := hb.insertions
  exact ⟨show c.counters.hits ≤ n by omega, show c.counters.misses ≤ n by omega,
    show c.counters.evictions ≤ n by omega, show c.counters.expirations ≤ n by omega, hinsertions⟩

theorem balanced_zero (h : c.size = 0) (hcounters : c.counters = Counters.zero) :
    Balanced c Tally.zero where
  insertions := by rw [h, hcounters]; rfl
  lookups := by rw [hcounters]; rfl

/-! ### Each call -/

/-- Making room only moves entries from the cache to the counters. -/
theorem Room.balance {r : Cache α} (h : Room c now key r) (hsound : c.Sound) :
    r.size + r.counters.evictions + r.counters.expirations =
        c.size + c.counters.evictions + c.counters.expirations ∧
      r.counters.hits = c.counters.hits ∧ r.counters.misses = c.counters.misses ∧
      r.counters.insertions = c.counters.insertions ∧ c.counters.UpTo r.counters := by
  cases h with
  | ready _ => exact ⟨rfl, rfl, rfl, rfl, .refl _⟩
  | purged _ _ _ =>
      have hsize := length_live_add_expiredCount c now
      rw [purge_counters]
      refine ⟨?_, rfl, rfl, rfl, Nat.le_refl _, Nat.le_refl _, Nat.le_refl _, Nat.le_add_right _ _,
        Nat.le_refl _⟩
      show (c.live now).length + c.counters.evictions +
          (c.counters.expirations + c.expiredCount now) =
        c.size + c.counters.evictions + c.counters.expirations
      omega
  | @evicted _ _ _ victim hvictim queue bound =>
      have hlength := hsound.keyed.length_without hvictim.mem
      refine ⟨?_, rfl, rfl, rfl, Nat.le_refl _, Nat.le_refl _, Nat.le_add_right _ _, Nat.le_refl _,
        Nat.le_refl _⟩
      show (without c.entries victim.1).length + (c.counters.evictions + 1) +
          c.counters.expirations = c.entries.length + c.counters.evictions + c.counters.expirations
      omega

/-- Room is never made by taking out the key that is to be stored under. -/
theorem Room.peek_key {r : Cache α} (h : Room c now key r) : r.peek key = c.peek key := by
  cases h with
  | ready _ => rfl
  | purged habsent _ _ =>
      have hnone : (c.purge now).peek key = none := by
        refine find?_eq_none_iff.mpr fun p hp => ?_
        exact find?_eq_none_iff.mp habsent p (List.mem_of_mem_filter hp)
      exact hnone.trans habsent.symm
  | @evicted habsent _ _ victim _ _ _ =>
      have hnone : find? (without c.entries victim.1) key = none := by
        refine find?_eq_none_iff.mpr fun p hp => ?_
        exact find?_eq_none_iff.mp habsent p (mem_without.mp hp).1
      exact hnone.trans habsent.symm

theorem Sound.size_put (h : c.Sound) (hstores : Stores c.limits ttl) (now : Nat) (key : Key)
    (payload : α) (rate : ClockRate) :
    (c.put now key payload ttl rate).size =
      if (c.peek key).isSome then (c.withRoom now key).size
      else (c.withRoom now key).size + 1 := by
  obtain ⟨hroom, hsound, -⟩ := h.withRoom hstores.2.2 now key
  have hpeek : find? (c.withRoom now key).entries key = c.peek key := hroom.peek_key
  rw [h.put_of_stores hstores, size, compact_entries]
  refine hsound.keyed.length_place.trans ?_
  rw [hpeek]
  cases c.peek key <;> rfl

theorem Balanced.put {t : Tally} (hb : Balanced c t) (h : c.Sound) (hstores : Stores c.limits ttl)
    (now : Nat) (key : Key) (payload : α) (rate : ClockRate) :
    Balanced (c.put now key payload ttl rate)
      { t with replacements := t.replacements + if (c.peek key).isSome then 1 else 0 } := by
  obtain ⟨hroom, -, -⟩ := h.withRoom hstores.2.2 now key
  obtain ⟨hentries, hhits, hmisses, hinsertions, -⟩ := hroom.balance h
  have hsize := h.size_put hstores now key payload rate
  have hold := hb.insertions
  constructor
  · rw [h.put_counters hstores]
    show (c.withRoom now key).counters.insertions + 1 =
      (c.put now key payload ttl rate).size + (c.withRoom now key).counters.evictions +
        (c.withRoom now key).counters.expirations +
        (t.replacements + if (c.peek key).isSome then 1 else 0)
    by_cases hpresent : (c.peek key).isSome = true
    · rw [if_pos hpresent] at hsize ⊢
      omega
    · rw [if_neg hpresent] at hsize ⊢
      omega
  · rw [h.put_counters hstores]
    show (c.withRoom now key).counters.hits + (c.withRoom now key).counters.misses = t.lookups
    rw [hhits, hmisses, hb.lookups]

theorem Balanced.get {t : Tally} (hb : Balanced c t) (h : c.Sound) (now : Nat) (key : Key) :
    Balanced (c.get now key).1 { t with lookups := t.lookups + 1 } := by
  have hinsertions := hb.insertions
  have hlookups := hb.lookups
  rcases get_cases c now key with ⟨e, -, -, hget⟩ | ⟨e, hpeek, -, hget⟩ | ⟨-, hget⟩
  all_goals rw [hget]
  · refine ⟨hinsertions, ?_⟩
    show c.counters.hits + 1 + c.counters.misses = t.lookups + 1
    omega
  · have hlength := h.keyed.length_without (mem_of_find? hpeek)
    constructor
    · show c.counters.insertions = (without c.entries key).length + c.counters.evictions +
        (c.counters.expirations + 1) + t.replacements
      unfold size at hinsertions
      omega
    · show c.counters.hits + (c.counters.misses + 1) = t.lookups + 1
      omega
  · refine ⟨hinsertions, ?_⟩
    show c.counters.hits + (c.counters.misses + 1) = t.lookups + 1
    omega

theorem sweep_counters (c : Cache α) (now : Nat) :
    (c.sweep now).1.counters =
      { c.counters with expirations := c.counters.expirations + c.expiredCount now } := by
  rw [sweep, compact_counters]
  exact purge_counters c now

theorem Balanced.sweep {t : Tally} (hb : Balanced c t) (now : Nat) :
    Balanced (c.sweep now).1 t := by
  have hsize : (c.sweep now).1.size = (c.live now).length := by
    rw [Cache.sweep, size, compact_entries]
    rfl
  have hlength := length_live_add_expiredCount c now
  have hinsertions := hb.insertions
  constructor
  · rw [sweep_counters]
    show c.counters.insertions = (c.sweep now).1.size + c.counters.evictions +
      (c.counters.expirations + c.expiredCount now) + t.replacements
    omega
  · rw [sweep_counters]
    exact hb.lookups

/-! ### Every run -/

namespace Run

/-- The tally after a call of a run. -/
def tallied (r : Run α) (t : Tally) : Call α → Tally
  | .put domain type _ ttl =>
      if Stores r.cache.limits ttl ∧ (r.cache.peek (.of domain type)).isSome then
        { t with replacements := t.replacements + 1 }
      else t
  | .get _ _ => { t with lookups := t.lookups + 1 }
  | .clear => Tally.zero
  | .peek _ _ | .sweep | .advance _ => t

/-- The tally after several calls of a run. -/
def tally (r : Run α) : Tally → List (Call α) → Tally
  | t, [] => t
  | t, call :: rest => (r.next call).tally (r.tallied t call) rest

theorem balanced_next {r : Run α} {t : Tally} (hb : Balanced r.cache t) (h : r.cache.Sound)
    (call : Call α) : Balanced (r.next call).cache (r.tallied t call) := by
  cases call with
  | put domain type payload ttl =>
      show Balanced (r.cache.put r.now (.of domain type) payload ttl r.rate)
        (if Stores r.cache.limits ttl ∧ (r.cache.peek (.of domain type)).isSome then
          { t with replacements := t.replacements + 1 } else t)
      by_cases hstores : Stores r.cache.limits ttl
      · have hput := hb.put h hstores r.now (.of domain type) payload r.rate
        by_cases hpresent : (r.cache.peek (.of domain type)).isSome = true
        · rw [if_pos hpresent] at hput
          rw [if_pos ⟨hstores, hpresent⟩]
          exact hput
        · rw [if_neg hpresent] at hput
          rw [if_neg (not_and_of_not_right _ hpresent)]
          exact hput
      · rw [if_neg (not_and_of_not_left _ hstores), put_of_not_stores hstores]
        exact hb
  | get domain type => exact hb.get h r.now (.of domain type)
  | peek domain type => exact hb
  | sweep => exact hb.sweep r.now
  | clear => exact balanced_zero rfl rfl
  | advance steps => exact hb

theorem balanced_after {r : Run α} {t : Tally} (hb : Balanced r.cache t) (h : r.cache.Sound)
    (calls : List (Call α)) : Balanced (r.after calls).cache (r.tally t calls) := by
  induction calls generalizing r t with
  | nil => exact hb
  | cons call rest ih => exact ih (balanced_next hb h call) (sound_next h call)

/-- Only a clearing takes a counter back. -/
theorem upTo_next {r : Run α} (h : r.cache.Sound) {call : Call α} (hcall : call ≠ .clear) :
    r.cache.counters.UpTo (r.next call).cache.counters := by
  cases call with
  | put domain type payload ttl =>
      show r.cache.counters.UpTo (r.cache.put r.now (.of domain type) payload ttl r.rate).counters
      by_cases hstores : Stores r.cache.limits ttl
      · obtain ⟨hroom, -, -⟩ := h.withRoom hstores.2.2 r.now (.of domain type)
        obtain ⟨-, -, -, -, hle⟩ := hroom.balance h
        refine hle.trans ?_
        rw [h.put_counters hstores]
        exact ⟨Nat.le_refl _, Nat.le_refl _, Nat.le_refl _, Nat.le_refl _, Nat.le_add_right _ 1⟩
      · rw [put_of_not_stores hstores]
        exact .refl _
  | get domain type =>
      show r.cache.counters.UpTo (r.cache.get r.now (.of domain type)).1.counters
      rcases get_cases r.cache r.now (.of domain type) with
        ⟨e, -, -, hget⟩ | ⟨e, -, -, hget⟩ | ⟨-, hget⟩
      all_goals rw [hget]
      · exact ⟨Nat.le_add_right _ 1, Nat.le_refl _, Nat.le_refl _, Nat.le_refl _, Nat.le_refl _⟩
      · exact ⟨Nat.le_refl _, Nat.le_add_right _ 1, Nat.le_refl _, Nat.le_add_right _ 1,
          Nat.le_refl _⟩
      · exact ⟨Nat.le_refl _, Nat.le_add_right _ 1, Nat.le_refl _, Nat.le_refl _, Nat.le_refl _⟩
  | peek domain type => exact .refl _
  | sweep =>
      show r.cache.counters.UpTo (r.cache.sweep r.now).1.counters
      rw [sweep_counters]
      exact ⟨Nat.le_refl _, Nat.le_refl _, Nat.le_refl _, Nat.le_add_right _ _, Nat.le_refl _⟩
  | clear => exact absurd rfl hcall
  | advance steps => exact .refl _

theorem upTo_after {r : Run α} (h : r.cache.Sound) {calls : List (Call α)}
    (hcalls : ∀ call ∈ calls, call ≠ .clear) :
    r.cache.counters.UpTo (r.after calls).cache.counters := by
  induction calls generalizing r with
  | nil => exact .refl _
  | cons call rest ih =>
      obtain ⟨hcall, hrest⟩ := List.forall_mem_cons.mp hcalls
      exact (upTo_next h hcall).trans (ih (sound_next h call) hrest)

/-- No call stores more than one answer, or looks up more than one. -/
theorem counters_next_le {r : Run α} (h : r.cache.Sound) (call : Call α) :
    (r.next call).cache.counters.insertions ≤ r.cache.counters.insertions + 1 ∧
      (r.next call).cache.counters.hits + (r.next call).cache.counters.misses ≤
        r.cache.counters.hits + r.cache.counters.misses + 1 := by
  have hsame : r.cache.counters.insertions ≤ r.cache.counters.insertions + 1 ∧
      r.cache.counters.hits + r.cache.counters.misses ≤
        r.cache.counters.hits + r.cache.counters.misses + 1 := ⟨Nat.le_succ _, Nat.le_succ _⟩
  cases call with
  | put domain type payload ttl =>
      rw [next]
      by_cases hstores : Stores r.cache.limits ttl
      · obtain ⟨hroom, -, -⟩ := h.withRoom hstores.2.2 r.now (.of domain type)
        obtain ⟨-, hhits, hmisses, hinsertions, -⟩ := hroom.balance h
        rw [h.put_counters hstores, hhits, hmisses, hinsertions]
        exact ⟨Nat.le_refl _, hsame.2⟩
      · rwa [put_of_not_stores hstores]
  | get domain type =>
      rw [next]
      rcases get_cases r.cache r.now (.of domain type) with
        ⟨e, -, -, hget⟩ | ⟨e, -, -, hget⟩ | ⟨-, hget⟩
      all_goals rw [hget]
      · exact ⟨hsame.1, Nat.le_of_eq (Nat.add_right_comm _ 1 _)⟩
      · exact ⟨hsame.1, Nat.le_refl _⟩
      · exact ⟨hsame.1, Nat.le_refl _⟩
  | peek domain type => exact hsame
  | sweep =>
      rw [next, sweep_counters]
      exact hsame
  | clear => exact ⟨Nat.zero_le _, Nat.zero_le _⟩
  | advance steps => exact hsame

theorem counters_after_le {r : Run α} (h : r.cache.Sound) (calls : List (Call α)) :
    (r.after calls).cache.counters.insertions ≤ r.cache.counters.insertions + calls.length ∧
      (r.after calls).cache.counters.hits + (r.after calls).cache.counters.misses ≤
        r.cache.counters.hits + r.cache.counters.misses + calls.length := by
  induction calls generalizing r with
  | nil => exact ⟨Nat.le_refl _, Nat.le_refl _⟩
  | cons call rest ih =>
      obtain ⟨hinsertions, hlookups⟩ := ih (sound_next h call)
      obtain ⟨hinsertion, hlookup⟩ := counters_next_le h call
      rw [List.length_cons]
      exact ⟨Nat.le_trans hinsertions (by omega), Nat.le_trans hlookups (by omega)⟩

/-- At every moment, counted since the last clearing: the insertions are the entries that are there,
those that were evicted, those that expired and those that were stored over, and the hits and misses
are the look-ups. Until the next clearing no counter goes back; none is ever more than the calls that were
made. A sweep answers how many entries had expired, and leaves none that has. -/
theorem books_balance (limits : CacheLimits) (rate : ClockRate) (now : Nat) (calls : List (Call α)) :
    let r := (start limits rate now).after calls
    let tally := (start limits rate now).tally Tally.zero calls
    let counters := r.cache.counters
    counters.insertions =
        r.cache.size + counters.evictions + counters.expirations + tally.replacements ∧
      counters.hits + counters.misses = tally.lookups ∧
      (∀ more : List (Call α), (∀ call ∈ more, call ≠ .clear) →
        counters.UpTo (r.after more).cache.counters) ∧
      counters.UpTo ⟨calls.length, calls.length, calls.length, calls.length, calls.length⟩ ∧
      (r.cache.sweep r.now).2 = r.cache.expiredCount r.now ∧
      (r.next .sweep).cache.expiredCount r.now = 0 := by
  intro r tally counters
  have hsound : r.cache.Sound := sound_after (sound_empty limits) calls
  have hbalanced : Balanced r.cache tally :=
    balanced_after (balanced_zero rfl rfl) (sound_empty limits) calls
  have hbound : counters.insertions ≤ 0 + calls.length ∧
      counters.hits + counters.misses ≤ 0 + calls.length :=
    counters_after_le (sound_empty limits) calls
  rw [Nat.zero_add] at hbound
  refine ⟨hbalanced.insertions, hbalanced.lookups, fun more hmore => upTo_after hsound hmore,
    hbalanced.upTo hbound.1 hbound.2, ?_, ?_⟩
  · have hlength := length_live_add_expiredCount r.cache r.now
    show r.cache.size - (r.cache.live r.now).length = r.cache.expiredCount r.now
    omega
  · refine expiredCount_eq_zero_iff.mpr fun p hp => ?_
    have hlive : p ∈ r.cache.live r.now := by
      rw [← purge_entries, ← compact_entries]
      exact hp
    exact (mem_live.mp hlive).2

theorem books_balance_sample :
    let calls : List (Call Nat) :=
      [.put "a.com" .a 1 5, .get "a.com" .a, .put "a.com" .a 2 5, .advance 5000, .get "a.com" .a,
        .put "b.org" .a 3 9, .put "c.net" .a 4 9]
    let more : List (Call Nat) := [.advance 9000, .sweep]
    let r := (start ⟨1, 100⟩ .millis 0).after calls
    (∀ call ∈ more, call ≠ .clear) ∧ r.cache.counters.UpTo (r.after more).cache.counters ∧
      r.cache.counters = ⟨1, 1, 1, 1, 4⟩ ∧ (r.after more).cache.counters = ⟨1, 1, 1, 2, 4⟩ := by
  intro calls more r
  have hmore : ∀ call ∈ more, call ≠ .clear := by
    intro call hcall
    rcases List.mem_pair.mp hcall with rfl | rfl
    · exact nofun
    · exact nofun
  obtain ⟨-, -, hupTo, -, -, -⟩ := books_balance ⟨1, 100⟩ .millis 0 calls
  exact ⟨hmore, hupTo more hmore, by decide +kernel, by decide +kernel⟩

end Run

end DnsFilter.Cache
