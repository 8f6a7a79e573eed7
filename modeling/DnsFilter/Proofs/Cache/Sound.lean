import DnsFilter.Proofs.Cache.Entries

/-! What the queue of the response cache and its bound on expiry owe to the entries, and that every
operation keeps it. With it, making room for an answer comes down to three cases: there is room
already, the expired entries go, or the oldest entry goes. -/

namespace DnsFilter.Cache

variable {α : Type} {c : Cache α} {now : Nat} {key : Key} {payload : α} {ttl : Int}
variable {entries : List (Key × Entry α)} {queue : List (Nat × Key)} {bound : Option Nat}

/-- A bound on expiry is set and is not passed by `t`. -/
def Bounds (bound : Option Nat) (t : Nat) : Prop := ∃ earliest, bound = some earliest ∧ earliest ≤ t

structure Sound (c : Cache α) : Prop where
  keyed : Keyed c.entries
  ordered : c.queue.Pairwise fun p q => p.1 < q.1
  below : ∀ p ∈ c.queue, p.1 < c.nextSeq
  queued : ∀ p ∈ c.entries, (p.2.seq, p.1) ∈ c.queue
  bounded : ∀ p ∈ c.entries, Bounds c.nextExpiry p.2.expiresAt
  fits : c.size ≤ c.limits.maxEntries

theorem sound_empty (limits : CacheLimits) : (empty limits : Cache α).Sound where
  keyed := List.nodup_nil
  ordered := List.Pairwise.nil
  below := fun _ hp => absurd hp List.not_mem_nil
  queued := fun _ hp => absurd hp List.not_mem_nil
  bounded := fun _ hp => absurd hp List.not_mem_nil
  fits := Nat.zero_le _

/-- Entries may go if the pairs of those that stay are left in the queue. -/
theorem Sound.sublist (h : c.Sound) (counters : Counters) (hentries : entries.Sublist c.entries)
    (hqueue : queue.Sublist c.queue) (hqueued : ∀ p ∈ entries, (p.2.seq, p.1) ∈ queue)
    (hbounded : ∀ p ∈ entries, Bounds bound p.2.expiresAt) :
    Sound { c with
      entries := entries, queue := queue, nextExpiry := bound, counters := counters } where
  keyed := List.Nodup.sublist (hentries.map Prod.fst) h.keyed
  ordered := h.ordered.sublist hqueue
  below := fun p hp => h.below p (hqueue.subset hp)
  queued := hqueued
  bounded := hbounded
  fits := Nat.le_trans hentries.length_le h.fits

/-- Two entries of the same insertion are the same entry. -/
theorem Sound.eq_of_seq_eq (h : c.Sound) {p q : Key × Entry α} (hp : p ∈ c.entries)
    (hq : q ∈ c.entries) (hseq : p.2.seq = q.2.seq) : p = q := by
  have hnodup : (c.queue.map (·.1)).Nodup :=
    List.pairwise_map.mpr (h.ordered.imp fun hlt => Nat.ne_of_lt hlt)
  have hpair : (p.2.seq, p.1) = (q.2.seq, q.1) :=
    List.inj_on_of_nodup_map hnodup (h.queued p hp) (h.queued q hq) hseq
  exact h.keyed.eq_of_key_eq hp hq (Prod.mk.inj hpair).2

/-! ### The bound on expiry -/

theorem bounds_earlier (bound : Option Nat) (t : Nat) : Bounds (earlier bound t) t := by
  cases bound with
  | none => exact ⟨t, rfl, Nat.le_refl t⟩
  | some earliest => exact ⟨min earliest t, rfl, Nat.min_le_right _ _⟩

theorem Bounds.earlier {t : Nat} (h : Bounds bound t) (u : Nat) : Bounds (earlier bound u) t := by
  obtain ⟨earliest, rfl, hle⟩ := h
  exact ⟨min earliest u, rfl, Nat.le_trans (Nat.min_le_left _ _) hle⟩

theorem Bounds.foldl {t : Nat} (h : Bounds bound t) (entries : List (Key × Entry α)) :
    Bounds (entries.foldl (fun t p => Cache.earlier t p.2.expiresAt) bound) t := by
  induction entries generalizing bound with
  | nil => exact h
  | cons p rest ih => exact ih (h.earlier p.2.expiresAt)

theorem bounds_foldl (bound : Option Nat) {p : Key × Entry α} (hp : p ∈ entries) :
    Bounds (entries.foldl (fun t p => earlier t p.2.expiresAt) bound) p.2.expiresAt := by
  induction entries generalizing bound with
  | nil => exact absurd hp List.not_mem_nil
  | cons q rest ih =>
      rcases List.mem_cons.mp hp with rfl | hrest
      · exact (bounds_earlier bound p.2.expiresAt).foldl rest
      · exact ih _ hrest

/-! ### Live entries -/

def live (c : Cache α) (now : Nat) : List (Key × Entry α) :=
  c.entries.filter fun p => !p.2.isExpired now

theorem mem_live {p : Key × Entry α} :
    p ∈ c.live now ↔ p ∈ c.entries ∧ p.2.isExpired now = false := by
  rw [live, List.mem_filter, Bool.not_eq_true']

theorem isExpired_iff {e : Entry α} : e.isExpired now = true ↔ e.expiresAt ≤ now :=
  decide_eq_true_iff

theorem isExpired_mono {e : Entry α} {later : Nat} (hle : now ≤ later)
    (h : e.isExpired now = true) : e.isExpired later = true :=
  isExpired_iff.mpr (Nat.le_trans (isExpired_iff.mp h) hle)

/-- What is live later is live now. -/
theorem live_eq_filter_live {later : Nat} (hle : now ≤ later) :
    c.live later = (c.live now).filter fun p => !p.2.isExpired later := by
  unfold live
  rw [List.filter_filter]
  apply List.filter_congr
  intro p _
  cases hlater : p.2.isExpired later with
  | true => rfl
  | false =>
      have hnow : p.2.isExpired now = false := by
        rw [← Bool.not_eq_true]
        intro hexpired
        rw [isExpired_mono hle hexpired] at hlater
        cases hlater
      rw [hnow]
      rfl

theorem live_eq_entries (h : ∀ p ∈ c.entries, p.2.isExpired now = false) :
    c.live now = c.entries := by
  rw [live, List.filter_eq_self]
  intro p hp
  rw [h p hp]
  rfl

theorem Sound.keyed_live (h : c.Sound) (now : Nat) : Keyed (c.live now) := h.keyed.filter _

/-! ### Dropping what has expired -/

theorem purge_entries : (c.purge now).entries = c.live now := rfl

theorem Sound.purge (h : c.Sound) (now : Nat) : (c.purge now).Sound :=
  h.sublist _ List.filter_sublist (List.Sublist.refl _)
    (fun p hp => h.queued p (List.mem_of_mem_filter hp)) fun _ hp => bounds_foldl none hp

theorem live_purge (c : Cache α) (now : Nat) : (c.purge now).live now = c.live now := by
  unfold live
  rw [purge_entries, live, List.filter_filter]
  exact List.filter_congr fun _ _ => Bool.and_self _

theorem Sound.compact (h : c.Sound) : c.compact.Sound := by
  unfold Cache.compact
  split
  · exact h
  · refine h.sublist _ (List.Sublist.refl _) List.filter_sublist ?_ h.bounded
    intro p hp
    rw [List.mem_filter]
    refine ⟨h.queued p hp, ?_⟩
    rw [isCurrent, h.keyed.find?_eq_some_iff.mpr hp]
    exact beq_self_eq_true _

@[simp] theorem compact_entries (c : Cache α) : c.compact.entries = c.entries := by
  unfold compact
  split <;> rfl

@[simp] theorem compact_limits (c : Cache α) : c.compact.limits = c.limits := by
  unfold compact
  split <;> rfl

@[simp] theorem compact_nextSeq (c : Cache α) : c.compact.nextSeq = c.nextSeq := by
  unfold compact
  split <;> rfl

@[simp] theorem compact_counters (c : Cache α) : c.compact.counters = c.counters := by
  unfold compact
  split <;> rfl

/-! ### Looking up, sweeping and clearing -/

theorem Sound.find?_live (h : c.Sound) (now : Nat) (key : Key) :
    find? (c.live now) key = (c.peek key).filter fun e => !e.isExpired now :=
  h.keyed.find?_filter _

/-- Three ways for a look-up to go. -/
theorem get_cases (c : Cache α) (now : Nat) (key : Key) :
    (∃ e, c.peek key = some e ∧ e.isExpired now = false ∧ c.get now key =
        ({ c with counters := { c.counters with hits := c.counters.hits + 1 } },
          some e.payload)) ∨
    (∃ e, c.peek key = some e ∧ e.isExpired now = true ∧ c.get now key =
        ({ c with
          entries := without c.entries key
          counters := { c.counters with
            misses := c.counters.misses + 1
            expirations := c.counters.expirations + 1 } }, none)) ∨
    (c.peek key = none ∧ c.get now key =
        ({ c with counters := { c.counters with misses := c.counters.misses + 1 } }, none)) := by
  unfold get
  cases hpeek : c.peek key with
  | none => exact .inr (.inr ⟨rfl, rfl⟩)
  | some e =>
      cases hexpired : e.isExpired now with
      | false => exact .inl ⟨e, rfl, hexpired, by simp only [hexpired, Bool.false_eq_true, if_false]⟩
      | true => exact .inr (.inl ⟨e, rfl, hexpired, by simp only [hexpired, if_true]⟩)

theorem Sound.get (h : c.Sound) (now : Nat) (key : Key) : (c.get now key).1.Sound := by
  rcases get_cases c now key with ⟨e, -, -, hget⟩ | ⟨e, -, -, hget⟩ | ⟨-, hget⟩
  all_goals rw [hget]
  · exact h.sublist _ (List.Sublist.refl _) (List.Sublist.refl _) h.queued h.bounded
  · exact h.sublist _ List.filter_sublist (List.Sublist.refl _)
      (fun p hp => h.queued p (List.mem_of_mem_filter hp))
      fun p hp => h.bounded p (List.mem_of_mem_filter hp)
  · exact h.sublist _ (List.Sublist.refl _) (List.Sublist.refl _) h.queued h.bounded

theorem limits_get (c : Cache α) (now : Nat) (key : Key) : (c.get now key).1.limits = c.limits := by
  rcases get_cases c now key with ⟨_, -, -, hget⟩ | ⟨_, -, -, hget⟩ | ⟨-, hget⟩
  all_goals rw [hget]

theorem get_entries_subset (c : Cache α) (now : Nat) (key : Key) :
    (c.get now key).1.entries ⊆ c.entries := by
  rcases get_cases c now key with ⟨_, -, -, hget⟩ | ⟨_, -, -, hget⟩ | ⟨-, hget⟩
  all_goals rw [hget]
  · exact List.Subset.refl _
  · exact List.filter_sublist.subset
  · exact List.Subset.refl _

theorem nextSeq_get (c : Cache α) (now : Nat) (key : Key) :
    (c.get now key).1.nextSeq = c.nextSeq := by
  rcases get_cases c now key with ⟨_, -, -, hget⟩ | ⟨_, -, -, hget⟩ | ⟨-, hget⟩
  all_goals rw [hget]

/-- Of the answer, nothing depends on entries that have expired. -/
theorem Sound.get_answer (h : c.Sound) (now : Nat) (key : Key) :
    (c.get now key).2 = (find? (c.live now) key).map (·.payload) := by
  rw [h.find?_live]
  rcases get_cases c now key with ⟨e, hpeek, hlive, hget⟩ | ⟨e, hpeek, hexpired, hget⟩ | ⟨hpeek, hget⟩
  · rw [hget, hpeek, Option.filter_some, hlive]
    rfl
  · rw [hget, hpeek, Option.filter_some, hexpired]
    rfl
  · rw [hget, hpeek]
    rfl

theorem Sound.live_get (h : c.Sound) (now : Nat) (key : Key) :
    (c.get now key).1.live now = c.live now := by
  rcases get_cases c now key with ⟨e, -, -, hget⟩ | ⟨e, hpeek, hexpired, hget⟩ | ⟨-, hget⟩
  · rw [hget]
    rfl
  · have hnone : find? (c.live now) key = none := by
      rw [h.find?_live, hpeek, Option.filter_some, hexpired]
      rfl
    rw [hget]
    show (without c.entries key).filter (fun p => !p.2.isExpired now) = c.live now
    rw [← without_filter]
    exact without_of_find?_eq_none hnone
  · rw [hget]
    rfl

theorem Sound.sweep (h : c.Sound) (now : Nat) : (c.sweep now).1.Sound := (h.purge now).compact

theorem live_sweep (c : Cache α) (now : Nat) : (c.sweep now).1.live now = c.live now := by
  rw [← live_purge c now, live, sweep, compact_entries]
  rfl

theorem Sound.clear (h : c.Sound) : c.clear.Sound :=
  h.sublist _ (List.nil_sublist _) (List.nil_sublist _) (fun _ hp => absurd hp List.not_mem_nil)
    fun _ hp => absurd hp List.not_mem_nil

end DnsFilter.Cache
