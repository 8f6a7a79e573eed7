import DnsFilter.Proofs.Cache.Sound

/-! Storing an answer. Making room for one comes down to three cases: nothing has to go, the expired
entries go, or the oldest entry goes. -/

namespace DnsFilter.Cache

/-- An answer with this time to live is stored under these limits. -/
def Stores (limits : CacheLimits) (ttl : Int) : Prop :=
  0 < ttl ∧ 0 < CacheLimits.kept limits ttl ∧ 0 < limits.maxEntries

instance (limits : CacheLimits) (ttl : Int) : Decidable (Stores limits ttl) :=
  inferInstanceAs (Decidable (0 < ttl ∧ 0 < CacheLimits.kept limits ttl ∧ 0 < limits.maxEntries))

theorem stores_iff {limits : CacheLimits} {ttl : Int} :
    Stores limits ttl ↔ ¬ (limits.maxEntries = 0 ∨ CacheLimits.kept limits ttl = 0) := by
  unfold Stores CacheLimits.kept
  omega

variable {α : Type} {c : Cache α} {now capacity evictions : Nat} {key : Key} {payload : α} {ttl : Int}
variable {entries : List (Key × Entry α)} {queue : List (Nat × Key)}

/-! ### The oldest entry -/

structure IsOldest (entries : List (Key × Entry α)) (p : Key × Entry α) : Prop where
  mem : p ∈ entries
  least : ∀ q ∈ entries, p.2.seq ≤ q.2.seq

theorem Sound.isOldest_unique (h : c.Sound) (hsub : entries ⊆ c.entries) {p q : Key × Entry α}
    (hp : IsOldest entries p) (hq : IsOldest entries q) : p = q :=
  h.eq_of_seq_eq (hsub hp.mem) (hsub hq.mem)
    (Nat.le_antisymm (hp.least q hq.mem) (hq.least p hp.mem))

theorem IsOldest.perm {others : List (Key × Entry α)} {p : Key × Entry α}
    (h : IsOldest entries p) (hperm : entries.Perm others) : IsOldest others p :=
  ⟨hperm.mem_iff.mp h.mem, fun q hq => h.least q (hperm.mem_iff.mpr hq)⟩

theorem evict_of_lt (queue : List (Nat × Key)) (hroom : entries.length < capacity) :
    evict capacity queue entries evictions = (queue, entries, evictions) := by
  cases queue with
  | nil => rfl
  | cons p rest => rw [evict, if_pos hroom]

theorem isCurrent_iff {seq : Nat} :
    isCurrent entries seq key = true ↔ ∃ e, find? entries key = some e ∧ e.seq = seq := by
  rw [isCurrent, Option.any_eq_true]
  exact exists_congr fun e => and_congr_right fun _ => beq_iff_eq

/-- From a full cache exactly the oldest entry is taken. Stale pairs are passed over, and no pair of
another entry is lost. -/
theorem evict_full (hkeyed : Keyed entries) (hordered : queue.Pairwise fun p q => p.1 < q.1)
    (hqueued : ∀ p ∈ entries, (p.2.seq, p.1) ∈ queue) (hpos : 0 < capacity)
    (hfull : entries.length = capacity) :
    ∃ victim rest, IsOldest entries victim ∧ rest.Sublist queue ∧
      (∀ p ∈ without entries victim.1, (p.2.seq, p.1) ∈ rest) ∧
      evict capacity queue entries evictions =
        (rest, without entries victim.1, evictions + 1) := by
  induction queue with
  | nil =>
      have hne : entries ≠ [] := by
        rintro rfl
        rw [List.length_nil] at hfull
        omega
      obtain ⟨p, hp⟩ := List.exists_mem_of_ne_nil entries hne
      exact absurd (hqueued p hp) List.not_mem_nil
  | cons head rest ih =>
      obtain ⟨seq, key⟩ := head
      obtain ⟨hfirst, hrest⟩ := List.pairwise_cons.mp hordered
      have hnot : ¬ entries.length < capacity := by omega
      rw [evict, if_neg hnot]
      by_cases hcurrent : isCurrent entries seq key = true
      · obtain ⟨e, hfind, rfl⟩ := isCurrent_iff.mp hcurrent
        have hmem : (key, e) ∈ entries := mem_of_find? hfind
        have hroom : (without entries key).length < capacity := by
          have := hkeyed.length_without hmem
          omega
        rw [if_pos hcurrent, evict_of_lt rest hroom]
        refine ⟨(key, e), rest, ⟨hmem, fun q hq => ?_⟩, List.sublist_cons_self _ _, ?_, rfl⟩
        · rcases List.mem_cons.mp (hqueued q hq) with heq | hlater
          · exact Nat.le_of_eq (Prod.mk.inj heq).1.symm
          · exact Nat.le_of_lt (hfirst _ hlater)
        · intro p hp
          obtain ⟨hp, hkey⟩ := mem_without.mp hp
          rcases List.mem_cons.mp (hqueued p hp) with heq | hlater
          · exact absurd (Prod.mk.inj heq).2 hkey
          · exact hlater
      · -- the pair is stale, so every entry still has its own further on
        have hkept : ∀ p ∈ entries, (p.2.seq, p.1) ∈ rest := by
          intro p hp
          rcases List.mem_cons.mp (hqueued p hp) with heq | hlater
          · obtain ⟨hseq, hkey⟩ := Prod.mk.inj heq
            refine absurd (isCurrent_iff.mpr ⟨p.2, ?_, hseq⟩) hcurrent
            exact hkey ▸ hkeyed.find?_eq_some_iff.mpr hp
          · exact hlater
        obtain ⟨victim, left, hvictim, hleft, hpairs, heq⟩ := ih hrest hkept
        rw [if_neg hcurrent]
        exact ⟨victim, left, hvictim, hleft.cons _, hpairs, heq⟩

/-! ### Making room -/

/-- The first half of making room. -/
def purgeIfDue (c : Cache α) (now : Nat) : Cache α :=
  if c.nextExpiry.any fun t => decide (t ≤ now) then c.purge now else c

theorem makeRoom_of_evict {d : Cache α} (hpurged : c.purgeIfDue now = d)
    (hevict : evict d.limits.maxEntries d.queue d.entries d.counters.evictions =
      (queue, entries, evictions)) :
    c.makeRoom now = { d with
      queue := queue, entries := entries, counters := { d.counters with evictions := evictions } } := by
  have hmake : c.makeRoom now =
      let d := c.purgeIfDue now
      let r := evict d.limits.maxEntries d.queue d.entries d.counters.evictions
      { d with
        queue := r.1, entries := r.2.1, counters := { d.counters with evictions := r.2.2 } } := rfl
  rw [hmake, hpurged]
  simp only [hevict]

/-- The bound on expiry is never so late that expired entries are overlooked. -/
theorem Sound.purgeIfDue_of_expired (h : c.Sound) {p : Key × Entry α} (hp : p ∈ c.entries)
    (hexpired : p.2.isExpired now = true) : c.purgeIfDue now = c.purge now := by
  obtain ⟨earliest, hearliest, hle⟩ := h.bounded p hp
  have hdue : earliest ≤ now := Nat.le_trans hle (isExpired_iff.mp hexpired)
  rw [purgeIfDue, hearliest, Option.any_some, if_pos (decide_eq_true hdue)]

theorem purgeIfDue_of_live (hlive : ∀ p ∈ c.entries, p.2.isExpired now = false) :
    ∃ bound, c.purgeIfDue now = { c with nextExpiry := bound } := by
  unfold purgeIfDue
  split
  · refine ⟨(c.purge now).nextExpiry, ?_⟩
    have hkept : c.entries.filter (fun p => !p.2.isExpired now) = c.entries := live_eq_entries hlive
    simp only [purge, hkept, Nat.sub_self, Nat.add_zero]
  · exact ⟨c.nextExpiry, rfl⟩

theorem Sound.purgeIfDue (h : c.Sound) (now : Nat) : (c.purgeIfDue now).Sound := by
  unfold Cache.purgeIfDue
  split
  · exact h.purge now
  · exact h

theorem length_live_lt {p : Key × Entry α} (hp : p ∈ c.entries)
    (hexpired : p.2.isExpired now = true) : (c.live now).length < c.size := by
  apply List.length_filter_lt_length_iff_exists.mpr
  exact ⟨p, hp, by rw [hexpired]; exact Bool.false_ne_true⟩

theorem Sound.makeRoom_of_expired (h : c.Sound) {p : Key × Entry α} (hp : p ∈ c.entries)
    (hexpired : p.2.isExpired now = true) : c.makeRoom now = c.purge now := by
  have hlt : (c.live now).length < c.limits.maxEntries :=
    Nat.lt_of_lt_of_le (length_live_lt hp hexpired) h.fits
  exact makeRoom_of_evict (h.purgeIfDue_of_expired hp hexpired) (evict_of_lt _ hlt)

theorem Sound.makeRoom_of_live (h : c.Sound) (hpos : 0 < c.limits.maxEntries)
    (hfull : c.size = c.limits.maxEntries) (hlive : ∀ p ∈ c.entries, p.2.isExpired now = false) :
    ∃ victim queue bound, IsOldest c.entries victim ∧ (c.makeRoom now).Sound ∧
      c.makeRoom now = { c with
        entries := without c.entries victim.1, queue := queue, nextExpiry := bound
        counters := { c.counters with evictions := c.counters.evictions + 1 } } := by
  obtain ⟨bound, hpurged⟩ := purgeIfDue_of_live hlive
  have hbounded : ∀ p ∈ c.entries, Bounds bound p.2.expiresAt := by
    have hsound := h.purgeIfDue now
    rw [hpurged] at hsound
    exact hsound.bounded
  obtain ⟨victim, queue, hvictim, hqueue, hpairs, hevict⟩ :=
    @evict_full _ c.limits.maxEntries c.counters.evictions _ _ h.keyed h.ordered h.queued hpos hfull
  have hmake := makeRoom_of_evict hpurged hevict
  refine ⟨victim, queue, bound, hvictim, ?_, hmake⟩
  rw [hmake]
  exact h.sublist _ List.filter_sublist hqueue hpairs
    fun p hp => hbounded p (List.mem_of_mem_filter hp)

/-- The cache that a new entry under `key` goes into. -/
def withRoom (c : Cache α) (now : Nat) (key : Key) : Cache α :=
  if (c.peek key).isNone && c.limits.maxEntries ≤ c.size then c.makeRoom now else c

/-- The ways to make room for `key`. -/
inductive Room (c : Cache α) (now : Nat) (key : Key) : Cache α → Prop
  | ready (hroom : find? c.entries key = none → c.size < c.limits.maxEntries) : Room c now key c
  | purged (habsent : find? c.entries key = none) (hfull : c.size = c.limits.maxEntries)
      (hexpired : ∃ p ∈ c.entries, p.2.isExpired now = true) : Room c now key (c.purge now)
  | evicted (habsent : find? c.entries key = none) (hfull : c.size = c.limits.maxEntries)
      (hlive : ∀ p ∈ c.entries, p.2.isExpired now = false) {victim : Key × Entry α}
      (hvictim : IsOldest c.entries victim) (queue : List (Nat × Key)) (bound : Option Nat) :
      Room c now key { c with
        entries := without c.entries victim.1, queue := queue, nextExpiry := bound
        counters := { c.counters with evictions := c.counters.evictions + 1 } }

theorem Sound.withRoom (h : c.Sound) (hpos : 0 < c.limits.maxEntries) (now : Nat) (key : Key) :
    Room c now key (c.withRoom now key) ∧ (c.withRoom now key).Sound ∧
      (find? (c.withRoom now key).entries key = none →
        (c.withRoom now key).size < c.limits.maxEntries) := by
  unfold Cache.withRoom
  by_cases hneed : ((c.peek key).isNone && decide (c.limits.maxEntries ≤ c.size)) = true
  · rw [if_pos hneed]
    obtain ⟨hnone, hle⟩ := (Bool.and_eq_true _ _).mp hneed
    have habsent : find? c.entries key = none := Option.isNone_iff_eq_none.mp hnone
    have hfull : c.size = c.limits.maxEntries := Nat.le_antisymm h.fits (of_decide_eq_true hle)
    by_cases hexpired : ∃ p ∈ c.entries, p.2.isExpired now = true
    · have ⟨p, hp, hpexpired⟩ := hexpired
      rw [h.makeRoom_of_expired hp hpexpired]
      exact ⟨.purged habsent hfull hexpired, h.purge now,
        fun _ => hfull ▸ length_live_lt hp hpexpired⟩
    · have hlive : ∀ p ∈ c.entries, p.2.isExpired now = false := by
        intro p hp
        rw [← Bool.not_eq_true]
        exact fun hpexpired => hexpired ⟨p, hp, hpexpired⟩
      obtain ⟨victim, queue, bound, hvictim, hsound, hmake⟩ := h.makeRoom_of_live hpos hfull hlive
      have hlength := h.keyed.length_without hvictim.mem
      refine ⟨?_, hsound, fun _ => ?_⟩
      · rw [hmake]
        exact .evicted habsent hfull hlive hvictim queue bound
      · rw [hmake, ← hfull]
        exact Nat.lt_of_succ_le (Nat.le_of_eq hlength)
  · rw [if_neg hneed]
    have hroom : find? c.entries key = none → c.size < c.limits.maxEntries := by
      intro habsent
      rw [peek, habsent] at hneed
      simpa using hneed
    exact ⟨.ready hroom, h, hroom⟩

theorem Room.limits_eq {r : Cache α} (h : Room c now key r) : r.limits = c.limits := by
  cases h <;> rfl

theorem Room.entries_subset {r : Cache α} (h : Room c now key r) : r.entries ⊆ c.entries := by
  cases h with
  | ready _ => exact List.Subset.refl _
  | purged _ _ _ => exact List.filter_sublist.subset
  | evicted _ _ _ _ _ _ => exact List.filter_sublist.subset

theorem Room.nextSeq_eq {r : Cache α} (h : Room c now key r) : r.nextSeq = c.nextSeq := by
  cases h <;> rfl

/-! ### Putting an answer in -/

variable {rate : ClockRate}

/-- The entry that an answer becomes. -/
def entryFor (c : Cache α) (now : Nat) (payload : α) (ttl : Int) (rate : ClockRate) : Entry α :=
  ⟨payload, now, now + CacheLimits.kept c.limits ttl * rate.perSecond, ttl, c.nextSeq⟩

/-- Puts an entry into the place that was made for it. -/
def store (c : Cache α) (key : Key) (e : Entry α) : Cache α :=
  { c with
    entries := place key e c.entries
    queue := c.queue ++ [(e.seq, key)]
    nextSeq := e.seq + 1
    nextExpiry := earlier c.nextExpiry e.expiresAt
    counters := { c.counters with insertions := c.counters.insertions + 1 } }

theorem Sound.store (h : c.Sound) {e : Entry α} (hseq : e.seq = c.nextSeq)
    (hroom : find? c.entries key = none → c.size < c.limits.maxEntries) :
    (c.store key e).Sound where
  keyed := h.keyed.place key e
  ordered := by
    refine List.pairwise_append.mpr ⟨h.ordered, List.pairwise_singleton _ _, fun p hp q hq => ?_⟩
    rw [List.mem_singleton.mp hq, hseq]
    exact h.below p hp
  below := by
    intro p hp
    show p.1 < e.seq + 1
    rcases List.mem_append.mp hp with hold | hnew
    · have := h.below p hold
      omega
    · rw [List.mem_singleton.mp hnew]
      exact Nat.lt_succ_self _
  queued := by
    intro p hp
    rcases h.keyed.mem_place.mp hp with rfl | ⟨hold, -⟩
    · exact List.mem_append_right _ (List.mem_singleton_self _)
    · exact List.mem_append_left _ (h.queued p hold)
  bounded := by
    intro p hp
    rcases h.keyed.mem_place.mp hp with rfl | ⟨hold, -⟩
    · exact bounds_earlier _ _
    · exact (h.bounded p hold).earlier _
  fits := by
    show (place key e c.entries).length ≤ c.limits.maxEntries
    have hfits := h.fits
    unfold size at hfits hroom
    rw [h.keyed.length_place]
    split
    · rename_i habsent
      exact hroom (Option.isNone_iff_eq_none.mp habsent)
    · exact hfits

theorem put_of_not_stores (hstores : ¬ Stores c.limits ttl) : c.put now key payload ttl rate = c := by
  rw [stores_iff, Classical.not_not] at hstores
  rw [put, if_pos hstores]

theorem Sound.put_of_stores (h : c.Sound) (hstores : Stores c.limits ttl) :
    c.put now key payload ttl rate =
      ((c.withRoom now key).store key (c.entryFor now payload ttl rate)).compact := by
  obtain ⟨hroom, -, -⟩ := h.withRoom hstores.2.2 now key
  rw [put, if_neg (stores_iff.mp hstores)]
  unfold Cache.store entryFor
  rw [← hroom.nextSeq_eq]
  rfl

theorem Sound.store_withRoom (h : c.Sound) (hstores : Stores c.limits ttl) (now : Nat) (key : Key)
    (payload : α) : ((c.withRoom now key).store key (c.entryFor now payload ttl rate)).Sound := by
  obtain ⟨hroom, hsound, hplace⟩ := h.withRoom hstores.2.2 now key
  refine hsound.store hroom.nextSeq_eq.symm ?_
  rw [hroom.limits_eq]
  exact hplace

theorem Sound.put (h : c.Sound) (now : Nat) (key : Key) (payload : α) (ttl : Int) :
    (c.put now key payload ttl rate).Sound := by
  by_cases hstores : Stores c.limits ttl
  · rw [h.put_of_stores hstores]
    exact (h.store_withRoom hstores now key payload).compact
  · rw [put_of_not_stores hstores]
    exact h

theorem Sound.limits_put (h : c.Sound) (now : Nat) (key : Key) (payload : α) (ttl : Int) :
    (c.put now key payload ttl rate).limits = c.limits := by
  by_cases hstores : Stores c.limits ttl
  · rw [h.put_of_stores hstores, compact_limits]
    exact (h.withRoom hstores.2.2 now key).1.limits_eq
  · rw [put_of_not_stores hstores]

theorem Sound.nextSeq_put (h : c.Sound) (hstores : Stores c.limits ttl) (now : Nat) (key : Key)
    (payload : α) : (c.put now key payload ttl rate).nextSeq = c.nextSeq + 1 := by
  rw [h.put_of_stores hstores, compact_nextSeq]
  rfl

theorem Sound.mem_put (h : c.Sound) (hstores : Stores c.limits ttl) {p : Key × Entry α} :
    p ∈ (c.put now key payload ttl rate).entries ↔
      p = (key, c.entryFor now payload ttl rate) ∨ p ∈ (c.withRoom now key).entries ∧ p.1 ≠ key := by
  obtain ⟨-, hsound, -⟩ := h.withRoom hstores.2.2 now key
  rw [h.put_of_stores hstores, compact_entries]
  exact hsound.keyed.mem_place

end DnsFilter.Cache
