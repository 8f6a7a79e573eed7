import DnsFilter.Proofs.Cache.Recency

/-! What storing an answer displaces. Nothing goes for a key that has an entry already, or while
there is room. Otherwise the expired entries go, all of them, and only if there are none, one entry
that has not expired: the one that was stored least recently. The counters tell which it was. -/

namespace DnsFilter.Cache

variable {α : Type} {c d : Cache α} {now : Nat} {key other : Key} {payload : α} {ttl : Int}
  {rate : ClockRate}

/-- How many entries have expired. -/
def expiredCount (c : Cache α) (now : Nat) : Nat := c.entries.countP fun p => p.2.isExpired now

theorem expiredCount_pos_iff :
    0 < c.expiredCount now ↔ ∃ p ∈ c.entries, p.2.isExpired now = true :=
  List.countP_pos_iff

theorem expiredCount_eq_zero_iff :
    c.expiredCount now = 0 ↔ ∀ p ∈ c.entries, p.2.isExpired now = false := by
  rw [expiredCount, List.countP_eq_zero]
  exact forall₂_congr fun _ _ => (Bool.not_eq_true _).to_iff

theorem length_live_add_expiredCount (c : Cache α) (now : Nat) :
    (c.live now).length + c.expiredCount now = c.size := by
  have hsplit := List.length_eq_countP_add_countP (fun p => p.2.isExpired now) (l := c.entries)
  have hlive : (c.live now).length = c.entries.countP fun p => decide ¬p.2.isExpired now = true := by
    rw [List.countP_eq_length_filter, live]
    simp only [Bool.not_eq_true, Bool.decide_eq_false]
  rw [hlive, size, hsplit, expiredCount, Nat.add_comm]

/-- Each expired entry is counted as one expiration. -/
theorem purge_counters (c : Cache α) (now : Nat) :
    (c.purge now).counters =
      { c.counters with expirations := c.counters.expirations + c.expiredCount now } := by
  have hcount : c.entries.length - (c.live now).length = c.expiredCount now := by
    have := length_live_add_expiredCount c now
    unfold size at this
    omega
  rw [← hcount]
  rfl

/-! ### What is left -/

/-- Of the entries under other keys than `key`, exactly those that are `gone` are lost from `c`
to `d`. -/
def Loses (c d : Cache α) (key : Key) (gone : Key → Entry α → Prop) : Prop :=
  ∀ other e, other ≠ key → (d.peek other = some e ↔ c.peek other = some e ∧ ¬ gone other e)

theorem Sound.peek_put (h : c.Sound) (hstores : Stores c.limits ttl) (now : Nat) (key other : Key)
    (payload : α) :
    (c.put now key payload ttl rate).peek other =
      if key = other then some (c.entryFor now payload ttl rate)
      else (c.withRoom now key).peek other := by
  rw [h.put_of_stores hstores, peek, compact_entries]
  exact find?_place _ _ _ _

theorem Sound.put_counters (h : c.Sound) (hstores : Stores c.limits ttl) (now : Nat) (key : Key)
    (payload : α) :
    (c.put now key payload ttl rate).counters =
      { (c.withRoom now key).counters with
        insertions := (c.withRoom now key).counters.insertions + 1 } := by
  rw [h.put_of_stores hstores, compact_counters]
  rfl

/-- Storing loses what making room has lost. -/
theorem Sound.loses_put (h : c.Sound) (hstores : Stores c.limits ttl)
    {gone : Key → Entry α → Prop}
    (hroom : ∀ other e, (c.withRoom now key).peek other = some e ↔
      c.peek other = some e ∧ ¬ gone other e) :
    Loses c (c.put now key payload ttl rate) key gone := by
  intro other e hne
  rw [h.peek_put hstores, if_neg (Ne.symm hne)]
  exact hroom other e

theorem Sound.peek_purge (h : c.Sound) (now : Nat) (other : Key) (e : Entry α) :
    (c.purge now).peek other = some e ↔
      c.peek other = some e ∧ ¬ e.isExpired now = true := by
  rw [peek, purge_entries, h.find?_live, Option.filter_eq_some_iff, Bool.not_eq_true']
  exact and_congr_right fun _ => (Bool.not_eq_true _).symm.to_iff

/-! ### Three ways to make room -/

theorem Sound.withRoom_of_room (h : c.Sound) (hpos : 0 < c.limits.maxEntries)
    (hroom : (c.peek key).isSome ∨ c.size < c.limits.maxEntries) : c.withRoom now key = c := by
  obtain ⟨hcases, -, -⟩ := h.withRoom hpos now key
  have habsurd : find? c.entries key = none → c.size = c.limits.maxEntries → False := by
    intro habsent hfull
    rcases hroom with hpresent | hlt
    · rw [peek, habsent] at hpresent
      cases hpresent
    · omega
  generalize c.withRoom now key = r at hcases ⊢
  cases hcases with
  | ready _ => rfl
  | purged habsent hfull _ => exact (habsurd habsent hfull).elim
  | evicted habsent hfull _ _ _ _ => exact (habsurd habsent hfull).elim

theorem Sound.withRoom_of_expired (h : c.Sound) (hpos : 0 < c.limits.maxEntries)
    (habsent : c.peek key = none) (hfull : c.size = c.limits.maxEntries)
    (hexpired : 0 < c.expiredCount now) : c.withRoom now key = c.purge now := by
  obtain ⟨hcases, -, -⟩ := h.withRoom hpos now key
  obtain ⟨p, hp, hpexpired⟩ := expiredCount_pos_iff.mp hexpired
  generalize c.withRoom now key = r at hcases ⊢
  cases hcases with
  | ready hready => exact absurd hfull (Nat.ne_of_lt (hready habsent))
  | purged _ _ _ => rfl
  | evicted _ _ hlive _ _ _ => exact absurd hpexpired (Bool.not_eq_true _ ▸ hlive p hp)

theorem Sound.withRoom_of_live (h : c.Sound) (hpos : 0 < c.limits.maxEntries)
    (habsent : c.peek key = none) (hfull : c.size = c.limits.maxEntries)
    (hlive : c.expiredCount now = 0) :
    ∃ victim, IsOldest c.entries victim ∧
      (c.withRoom now key).entries = without c.entries victim.1 ∧
      (c.withRoom now key).counters =
        { c.counters with evictions := c.counters.evictions + 1 } := by
  obtain ⟨hcases, -, -⟩ := h.withRoom hpos now key
  generalize c.withRoom now key = r at hcases ⊢
  cases hcases with
  | ready hready => exact absurd hfull (Nat.ne_of_lt (hready habsent))
  | purged _ _ hexpired =>
      have hsome := expiredCount_pos_iff.mpr hexpired
      omega
  | evicted _ _ _ hvictim _ _ => exact ⟨_, hvictim, rfl, rfl⟩

/-! ### In every run -/

namespace Run

/-- Storing an answer under a key that has an entry, or while there is room, loses no other entry. In
a full cache it loses the expired entries, each counted as an expiration, or if there are none the
entry whose key was stored under least recently, counted as an eviction. Then the answer is there, to
expire after the seconds it is kept, and the cache holds no more than its limit. -/
theorem put_displaces (limits : CacheLimits) (rate : ClockRate) (start : Nat) (calls : List (Call α))
    (domain : String) (type : RecordType) (payload : α) (ttl : Int) (hstores : Stores limits ttl) :
    let r := (Run.start limits rate start).after calls
    let ledger := Ledger.of limits start calls
    let key := Key.of domain type
    let c := r.cache
    let d := (r.next (.put domain type payload ttl)).cache
    ((c.peek key).isSome ∨ c.size < limits.maxEntries →
      Loses c d key (fun _ _ => False) ∧
      d.counters = { c.counters with insertions := c.counters.insertions + 1 }) ∧
    (c.peek key = none → c.size = limits.maxEntries → 0 < c.expiredCount r.now →
      Loses c d key (fun _ e => e.isExpired r.now = true) ∧
      d.counters = { c.counters with
        insertions := c.counters.insertions + 1
        expirations := c.counters.expirations + c.expiredCount r.now }) ∧
    (c.peek key = none → c.size = limits.maxEntries → c.expiredCount r.now = 0 →
      ∃ victim, (c.peek victim).isSome ∧
        (∀ other, (c.peek other).isSome → other ≠ victim → other ∈ ledger.keysSince victim) ∧
        Loses c d key (fun other _ => other = victim) ∧
        d.counters = { c.counters with
          insertions := c.counters.insertions + 1
          evictions := c.counters.evictions + 1 }) ∧
    (∃ e, d.peek key = some e ∧ e.payload = payload ∧
      e.expiresAt = r.now + min ttl.toNat limits.maxTtl * rate.perSecond) ∧
    d.size ≤ limits.maxEntries := by
  intro r ledger key c d
  obtain ⟨hnow, htracks⟩ : r.Tracks ledger :=
    Tracks.after ⟨rfl, tracks_empty limits start⟩ calls
  have hsound : c.Sound := htracks.sound
  have hlimits : c.limits = limits := limits_after (sound_empty limits) calls
  have hrate : r.rate = rate := rate_after _ calls
  rw [← hlimits] at hstores ⊢
  rw [← hrate]
  have hpos := hstores.2.2
  have hcounters : d.counters = _ := hsound.put_counters hstores r.now key payload
  refine ⟨fun hroom => ?_, fun habsent hfull hexpired => ?_, fun habsent hfull hlive => ?_, ?_, ?_⟩
  · have hready : c.withRoom r.now key = c := hsound.withRoom_of_room hpos hroom
    rw [hready] at hcounters
    refine ⟨hsound.loses_put hstores fun other e => ?_, hcounters⟩
    rw [hready]
    exact ⟨fun he => ⟨he, id⟩, And.left⟩
  · have hpurged := hsound.withRoom_of_expired hpos habsent hfull hexpired
    rw [hpurged, purge_counters] at hcounters
    refine ⟨hsound.loses_put hstores fun other e => ?_, hcounters⟩
    rw [hpurged]
    exact hsound.peek_purge r.now other e
  · obtain ⟨victim, hvictim, hentries, hevicted⟩ :=
      hsound.withRoom_of_live hpos habsent hfull hlive
    rw [hevicted] at hcounters
    refine ⟨victim.1, ?_, fun other hother hne => ?_, ?_, hcounters⟩
    · exact Option.isSome_iff_exists.mpr
        ⟨victim.2, hsound.keyed.find?_eq_some_iff.mpr hvictim.mem⟩
    · obtain ⟨e, he⟩ := Option.isSome_iff_exists.mp hother
      exact htracks.mem_keysSince_of_isOldest hvictim (mem_of_find? he) hne
    · refine hsound.loses_put hstores fun other e => ?_
      rw [peek, hentries, find?_without]
      by_cases hother : victim.1 = other
      · rw [if_pos hother]
        exact ⟨fun he => (by cases he), fun he => (he.2 hother.symm).elim⟩
      · rw [if_neg hother]
        exact ⟨fun he => ⟨he, Ne.symm hother⟩, And.left⟩
  · refine ⟨c.entryFor r.now payload ttl r.rate, ?_, rfl, rfl⟩
    exact (hsound.peek_put hstores r.now key key payload).trans (if_pos rfl)
  · have hd : d.Sound := hsound.put r.now key payload ttl
    have hdlimits : d.limits = c.limits := hsound.limits_put r.now key payload ttl
    rw [← hdlimits]
    exact hd.fits

/-- Three entries fill the cache, one of which has been stored again. A fourth one makes the oldest
go; if it comes later, when one has expired, it makes that one go. -/
theorem put_displaces_sample :
    let limits : CacheLimits := ⟨3, 100⟩
    let calls : List (Call Nat) :=
      [.put "a.com" .a 1 5, .put "b.org" .a 2 50, .put "c.net" .a 3 5, .put "A.com." .a 4 60]
    let r := (Run.start limits .millis 0).after calls
    let later := (Run.start limits .millis 0).after (calls ++ [.advance 5000])
    Stores limits 70 ∧
      (∃ victim, (r.cache.peek victim).isSome ∧
        (∀ other, (r.cache.peek other).isSome → other ≠ victim →
          other ∈ (Ledger.of limits 0 calls).keysSince victim) ∧
        Loses r.cache (r.next (.put "d.io" .a 5 70)).cache (.of "d.io" .a)
          (fun other _ => other = victim)) ∧
      Loses later.cache (later.next (.put "d.io" .a 5 70)).cache (.of "d.io" .a)
        (fun _ e => e.isExpired later.now = true) := by
  intro limits calls r later
  have hstores : Stores limits 70 := by decide
  obtain ⟨-, -, hevicted, -, -⟩ := put_displaces limits .millis 0 calls "d.io" .a 5 70 hstores
  obtain ⟨-, hpurged, -, -, -⟩ :=
    put_displaces limits .millis 0 (calls ++ [.advance 5000]) "d.io" .a 5 70 hstores
  obtain ⟨victim, hstored, holder, hloses, -⟩ :=
    hevicted (by decide +kernel) (by decide +kernel) (by decide +kernel)
  obtain ⟨hexpired, -⟩ := hpurged (by decide +kernel) (by decide +kernel) (by decide +kernel)
  exact ⟨hstores, ⟨victim, hstored, holder, hloses⟩, hexpired⟩

end Run

end DnsFilter.Cache
