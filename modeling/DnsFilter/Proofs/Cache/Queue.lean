import DnsFilter.Proofs.Cache.Run
import Mathlib.Data.List.Induction

/-! The queue of the response cache. It holds insertions in their order, and the one of every entry
is among them. Beside these it may hold stale ones, of entries that were stored over or have gone
since, but never many: without them it is exactly as long as there are entries, and they are dropped
before it is longer than twice what the cache has places for. None of this asks anything of the
clock, so that here each call is made at a time of its own. -/

namespace DnsFilter.Cache

variable {α : Type} {c : Cache α} {limits : CacheLimits} {rate : ClockRate}
  {made : Nat}

/-! ### What is not stale -/

/-- The insertions that the entries stem from. -/
def origins (c : Cache α) : List (Nat × Key) := c.entries.map fun p => (p.2.seq, p.1)

theorem Sound.nodup_queue (h : c.Sound) : c.queue.Nodup :=
  h.ordered.imp fun hlt heq => Nat.ne_of_lt hlt (congrArg Prod.fst heq)

theorem Sound.nodup_origins (h : c.Sound) : c.origins.Nodup := by
  have hkeys : c.origins.map (·.2) = c.entries.map (·.1) := List.map_map
  refine List.Nodup.of_map (·.2) ?_
  rw [hkeys]
  exact h.keyed

theorem Sound.isCurrent_iff_mem_origins (h : c.Sound) {seq : Nat} {key : Key} :
    isCurrent c.entries seq key = true ↔ (seq, key) ∈ c.origins := by
  rw [isCurrent_iff, origins, List.mem_map]
  constructor
  · rintro ⟨e, hfind, rfl⟩
    exact ⟨(key, e), mem_of_find? hfind, rfl⟩
  · rintro ⟨p, hp, heq⟩
    obtain ⟨rfl, rfl⟩ := Prod.mk.inj heq
    exact ⟨p.2, h.keyed.find?_eq_some_iff.mpr hp, rfl⟩

/-- Compacting drops what is stale and nothing else. -/
theorem Sound.current_perm_origins (h : c.Sound) :
    (c.queue.filter fun p => isCurrent c.entries p.1 p.2).Perm c.origins := by
  rw [List.perm_ext_iff_of_nodup (h.nodup_queue.filter _) h.nodup_origins]
  rintro ⟨seq, key⟩
  rw [List.mem_filter, h.isCurrent_iff_mem_origins]
  refine and_iff_right_of_imp fun hmem => ?_
  obtain ⟨p, hp, heq⟩ := List.mem_map.mp hmem
  rw [← heq]
  exact h.queued p hp

/-- The most insertions that the queue may hold between two calls. -/
def queueLimit (limits : CacheLimits) : Nat := max limits.maxEntries queueFloor * queueSlack

/-- A compacted queue is within its limit, however long it was. -/
theorem Sound.length_queue_compact (h : c.Sound) :
    c.compact.queue.length ≤ queueLimit c.limits := by
  have hfits : c.entries.length ≤ c.limits.maxEntries := h.fits
  unfold Cache.compact
  split
  · rename_i hshort
    have hmax : max c.entries.length queueFloor ≤ max c.limits.maxEntries queueFloor := by omega
    exact Nat.le_trans hshort (Nat.mul_le_mul_right _ hmax)
  · calc (c.queue.filter fun p => isCurrent c.entries p.1 p.2).length
        = c.entries.length := by rw [h.current_perm_origins.length_eq, origins, List.length_map]
      _ ≤ max c.limits.maxEntries queueFloor := Nat.le_trans hfits (Nat.le_max_left _ _)
      _ ≤ queueLimit c.limits := Nat.le_mul_of_pos_right _ (by decide)

/-! ### Each call -/

theorem queue_get (c : Cache α) (now : Nat) (key : Key) : (c.get now key).1.queue = c.queue := by
  rcases get_cases c now key with ⟨_, -, -, hget⟩ | ⟨_, -, -, hget⟩ | ⟨-, hget⟩
  all_goals rw [hget]

theorem Sound.nextSeq_put_le (h : c.Sound) (now : Nat) (key : Key) (payload : α) (ttl : Int) :
    (c.put now key payload ttl rate).nextSeq ≤ c.nextSeq + 1 := by
  by_cases hstores : Stores c.limits ttl
  · exact Nat.le_of_eq (h.nextSeq_put hstores now key payload)
  · rw [put_of_not_stores hstores]
    exact Nat.le_succ _

theorem Sound.length_queue_put (h : c.Sound) (hshort : c.queue.length ≤ queueLimit c.limits)
    (now : Nat) (key : Key) (payload : α) (ttl : Int) :
    (c.put now key payload ttl rate).queue.length ≤ queueLimit c.limits := by
  by_cases hstores : Stores c.limits ttl
  · obtain ⟨hroom, -, -⟩ := h.withRoom hstores.2.2 now key
    rw [h.put_of_stores hstores, ← hroom.limits_eq]
    exact (h.store_withRoom hstores now key payload).length_queue_compact
  · rw [put_of_not_stores hstores]
    exact hshort

namespace Run

theorem length_queue_next {r : Run α} (h : r.cache.Sound)
    (hshort : r.cache.queue.length ≤ queueLimit r.cache.limits) (call : Call α) :
    (r.next call).cache.queue.length ≤ queueLimit r.cache.limits := by
  cases call with
  | put domain type payload ttl =>
      exact h.length_queue_put hshort r.now (.of domain type) payload ttl
  | get domain type =>
      -- an entry that goes leaves its insertion behind: the limit counts places, not entries
      show (r.cache.get r.now (.of domain type)).1.queue.length ≤ queueLimit r.cache.limits
      rw [queue_get]
      exact hshort
  | peek domain type => exact hshort
  | sweep => exact (h.purge r.now).length_queue_compact
  | clear => exact Nat.zero_le _
  | advance steps => exact hshort

/-- No call uses more than one number up. -/
theorem nextSeq_next_le {r : Run α} (h : r.cache.Sound) (call : Call α) :
    (r.next call).cache.nextSeq ≤ r.cache.nextSeq + 1 := by
  have hunused : r.cache.nextSeq ≤ r.cache.nextSeq + 1 := Nat.le_succ _
  cases call with
  | put domain type payload ttl => exact h.nextSeq_put_le r.now (.of domain type) payload ttl
  | get domain type =>
      show (r.cache.get r.now (.of domain type)).1.nextSeq ≤ r.cache.nextSeq + 1
      rw [nextSeq_get]
      exact hunused
  | peek domain type => exact hunused
  | sweep =>
      show (r.cache.purge r.now).compact.nextSeq ≤ r.cache.nextSeq + 1
      rw [compact_nextSeq]
      exact hunused
  | clear => exact hunused
  | advance steps => exact hunused

end Run

/-! ### Calls at any times -/

/-- What calls make of an empty cache. Each comes with the time it is made at, which may be before
that of the call in front of it; to move the clock between them has no effect. -/
def ofCalls (limits : CacheLimits) (rate : ClockRate) (calls : List (Nat × Call α)) : Cache α :=
  calls.foldl (fun c p => (Run.next ⟨c, p.1, rate⟩ p.2).cache) (empty limits)

theorem ofCalls_concat (limits : CacheLimits) (rate : ClockRate) (calls : List (Nat × Call α))
    (p : Nat × Call α) : ofCalls limits rate (calls ++ [p]) =
      (Run.next ⟨ofCalls limits rate calls, p.1, rate⟩ p.2).cache :=
  List.foldl_concat ..

/-- What a cache under `limits` keeps to after `made` calls. -/
structure Kept (limits : CacheLimits) (made : Nat) (c : Cache α) : Prop where
  sound : c.Sound
  limits_eq : c.limits = limits
  short : c.queue.length ≤ queueLimit c.limits
  numbered : c.nextSeq ≤ made

theorem kept_empty (limits : CacheLimits) : Kept limits 0 (empty limits : Cache α) where
  sound := sound_empty limits
  limits_eq := rfl
  short := Nat.zero_le _
  numbered := Nat.le_refl 0

theorem Kept.next (h : Kept limits made c) (now : Nat) (rate : ClockRate) (call : Call α) :
    Kept limits (made + 1) (Run.next ⟨c, now, rate⟩ call).cache := by
  have hlimits : (Run.next ⟨c, now, rate⟩ call).cache.limits = c.limits := Run.limits_next h.sound call
  have hnext : (Run.next ⟨c, now, rate⟩ call).cache.nextSeq ≤ c.nextSeq + 1 :=
    Run.nextSeq_next_le h.sound call
  constructor
  case sound => exact Run.sound_next h.sound call
  case limits_eq => exact hlimits.trans h.limits_eq
  case short =>
    rw [hlimits]
    exact Run.length_queue_next h.sound h.short call
  case numbered => exact Nat.le_trans hnext (Nat.succ_le_succ h.numbered)

theorem kept_ofCalls (limits : CacheLimits) (rate : ClockRate) (calls : List (Nat × Call α)) :
    Kept limits calls.length (ofCalls limits rate calls) := by
  induction calls using List.reverseRecOn with
  | nil => exact kept_empty limits
  | append_singleton calls p ih =>
      rw [ofCalls_concat, List.length_append]
      exact ih.next p.1 rate p.2

/-- The numbers in the queue go up, and the next one is above them all; no more are used up than
calls are made. Every entry has its insertion in the queue. While there is an entry, the bound on
expiry is set, and no entry expires before it. However often keys are stored over, the queue holds
no more than twice as many insertions as the cache has places, sixteen places counting at least. -/
theorem queue_ordered_within_limit (limits : CacheLimits) (rate : ClockRate)
    (calls : List (Nat × Call α)) :
    let c := ofCalls limits rate calls
    c.queue.Pairwise (fun p q => p.1 < q.1) ∧
      (∀ p ∈ c.queue, p.1 < c.nextSeq) ∧
      c.nextSeq ≤ calls.length ∧
      (∀ p ∈ c.entries, (p.2.seq, p.1) ∈ c.queue) ∧
      (∀ p ∈ c.entries,
        ∃ earliest, c.nextExpiry = some earliest ∧ earliest ≤ p.2.expiresAt) ∧
      c.queue.length ≤ 2 * max limits.maxEntries 16 := by
  intro c
  obtain ⟨hsound, hlimits, hshort, hnumbered⟩ : Kept limits calls.length c :=
    kept_ofCalls limits rate calls
  refine ⟨hsound.ordered, hsound.below, hnumbered, hsound.queued, hsound.bounded, ?_⟩
  rw [hlimits] at hshort
  rw [Nat.mul_comm]
  exact hshort

/-- The queue is let grow right up to its limit; the next storing over leaves one insertion. -/
example :
    let again (n : Nat) : List (Nat × Call Nat) := List.replicate n (0, .put "a.com" .a 1 60)
    (ofCalls ⟨1, 100⟩ .millis (again 32)).queue.length = 32 ∧
      (ofCalls ⟨1, 100⟩ .millis (again 33)).queue = [(32, .of "a.com" .a)] := by
  decide +kernel

end DnsFilter.Cache
