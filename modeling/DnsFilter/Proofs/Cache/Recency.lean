import DnsFilter.Proofs.Cache.Run
import Mathlib.Data.Finset.Card
import Mathlib.Data.List.TakeWhile

/-! What a look-up answers, told from the history of a run. The ledger of a run knows nothing of
entries, queues and sweeps: it holds what was stored since the last clearing. An entry is always of
the latest storing under its key, and one that has not expired goes only when as many other keys as
the cache has places were stored after it. -/

namespace DnsFilter.Cache

variable {α : Type}

/-- A put that stored an answer. -/
structure Stored (α : Type) where
  key : Key
  payload : α
  storedAt : Nat
  /-- The seconds the answer is kept. -/
  seconds : Nat
  deriving DecidableEq

def Stored.expiresAt (p : Stored α) (rate : ClockRate) : Nat :=
  p.storedAt + p.seconds * rate.perSecond

/-- The time, and what was stored since the last clearing, latest first. -/
structure Ledger (α : Type) where
  now : Nat
  puts : List (Stored α)

namespace Ledger

def add (l : Ledger α) (p : Stored α) : Ledger α := { l with puts := p :: l.puts }

def note (limits : CacheLimits) (l : Ledger α) : Call α → Ledger α
  | .put domain type payload ttl =>
      if Stores limits ttl then
        l.add ⟨.of domain type, payload, l.now, min ttl.toNat limits.maxTtl⟩
      else l
  | .clear => { l with puts := [] }
  | .advance steps => { l with now := l.now + steps }
  | .get _ _ => l
  | .peek _ _ => l
  | .sweep => l

/-- The ledger of a run that starts with an empty cache. -/
def of (limits : CacheLimits) (now : Nat) (calls : List (Call α)) : Ledger α :=
  calls.foldl (note limits) ⟨now, []⟩

def latest? (l : Ledger α) (key : Key) : Option (Stored α) := l.puts.find? fun p => p.key == key

/-- What was stored after the latest storing under a key. -/
def since (l : Ledger α) (key : Key) : List (Stored α) := l.puts.takeWhile fun p => p.key != key

/-- The keys stored after the latest storing under a key, each once. -/
def keysSince (l : Ledger α) (key : Key) : Finset Key := ((l.since key).map (·.key)).toFinset

variable {l : Ledger α} {p : Stored α} {key other : Key}

theorem note_put_of_stores {limits : CacheLimits} {ttl : Int} (h : Stores limits ttl)
    (domain : String) (type : RecordType) (payload : α) :
    l.note limits (.put domain type payload ttl) =
      l.add ⟨.of domain type, payload, l.now, min ttl.toNat limits.maxTtl⟩ :=
  if_pos h

theorem note_put_of_not_stores {limits : CacheLimits} {ttl : Int} (h : ¬ Stores limits ttl)
    (domain : String) (type : RecordType) (payload : α) :
    l.note limits (.put domain type payload ttl) = l :=
  if_neg h

theorem latest?_add_self : (l.add p).latest? p.key = some p :=
  List.find?_cons_of_pos (beq_self_eq_true p.key)

theorem latest?_add_of_ne (h : p.key ≠ key) : (l.add p).latest? key = l.latest? key :=
  List.find?_cons_of_neg (by simpa using h)

theorem since_add_self : (l.add p).since p.key = [] :=
  List.takeWhile_cons_of_neg (by simp)

theorem since_add_of_ne (h : p.key ≠ key) : (l.add p).since key = p :: l.since key :=
  List.takeWhile_cons_of_pos (by simpa using h)

theorem keysSince_add_of_ne (h : p.key ≠ key) :
    (l.add p).keysSince key = insert p.key (l.keysSince key) := by
  rw [keysSince, since_add_of_ne h, List.map_cons, List.toFinset_cons, keysSince]

/-- Of two keys the one that was stored less recently has the other among those since. -/
theorem mem_keysSince_of_length_lt (h : (l.since other).length < (l.since key).length) :
    other ∈ l.keysSince key := by
  obtain ⟨now, puts⟩ := l
  induction puts with
  | nil => exact absurd h (Nat.lt_irrefl 0)
  | cons p rest ih =>
      have hadd : (⟨now, p :: rest⟩ : Ledger α) = add ⟨now, rest⟩ p := rfl
      rw [hadd] at h ⊢
      by_cases hkey : p.key = key
      · rw [← hkey, since_add_self] at h
        exact absurd h (Nat.not_lt_zero _)
      · rw [keysSince_add_of_ne hkey, Finset.mem_insert]
        by_cases hother : p.key = other
        · exact Or.inl hother.symm
        · rw [since_add_of_ne hkey, since_add_of_ne hother] at h
          exact Or.inr (ih (Nat.lt_of_succ_lt_succ h))

end Ledger

/-! ### What a cache shares with the ledger -/

variable {c d : Cache α} {l : Ledger α} {key : Key} {payload : α} {ttl : Int} {rate : ClockRate}

structure Tracks (rate : ClockRate) (c : Cache α) (l : Ledger α) : Prop where
  sound : c.Sound
  latest : ∀ q ∈ c.entries, ∃ p, l.latest? q.1 = some p ∧ q.2.payload = p.payload ∧
    q.2.expiresAt = p.expiresAt rate
  /-- The number of an entry is that of the storings before its own. -/
  counted : ∀ q ∈ c.entries, q.2.seq + 1 + (l.since q.1).length = c.nextSeq
  kept : ∀ key p, l.latest? key = some p → l.now < p.expiresAt rate →
    (∃ e, (key, e) ∈ c.entries) ∨ c.limits.maxEntries ≤ (l.keysSince key).card

theorem tracks_empty (limits : CacheLimits) (now : Nat) :
    Tracks rate (empty limits : Cache α) ⟨now, []⟩ where
  sound := sound_empty limits
  latest := fun _ hq => absurd hq List.not_mem_nil
  counted := fun _ hq => absurd hq List.not_mem_nil
  kept := fun _ _ hlatest => nomatch hlatest

theorem Tracks.mem_live (h : Tracks rate c l) {p : Stored α} {e : Entry α} (hmem : (key, e) ∈ c.entries)
    (hlatest : l.latest? key = some p) (hlive : l.now < p.expiresAt rate) : (key, e) ∈ c.live l.now := by
  obtain ⟨q, hq, -, hexpiry⟩ := h.latest (key, e) hmem
  have hqp : q = p := Option.some.inj (hq.symm.trans hlatest)
  refine Cache.mem_live.mpr ⟨hmem, decide_eq_false ?_⟩
  rw [hexpiry, hqp]
  exact Nat.not_le_of_lt hlive

/-- Entries may go, if only they have expired. -/
theorem Tracks.of_live_eq (h : Tracks rate c l) (hd : d.Sound) (hlimits : d.limits = c.limits)
    (hseq : d.nextSeq = c.nextSeq) (hentries : d.entries ⊆ c.entries)
    (hlive : d.live l.now = c.live l.now) : Tracks rate d l where
  sound := hd
  latest := fun q hq => h.latest q (hentries hq)
  counted := fun q hq => by rw [hseq, h.counted q (hentries hq)]
  kept := by
    intro key p hlatest hunexpired
    rw [hlimits]
    rcases h.kept key p hlatest hunexpired with ⟨e, he⟩ | hmany
    · have hmem := h.mem_live he hlatest hunexpired
      rw [← hlive] at hmem
      exact Or.inl ⟨e, (Cache.mem_live.mp hmem).1⟩
    · exact Or.inr hmany

/-- Every other entry was stored after the oldest one. -/
theorem Tracks.mem_keysSince_of_isOldest (h : Tracks rate c l) {victim q : Key × Entry α}
    (hvictim : IsOldest c.entries victim) (hq : q ∈ c.entries) (hne : q.1 ≠ victim.1) :
    q.1 ∈ l.keysSince victim.1 := by
  have hleast := hvictim.least q hq
  have hseq : victim.2.seq ≠ q.2.seq := by
    intro heq
    rw [h.sound.eq_of_seq_eq hvictim.mem hq heq] at hne
    exact hne rfl
  have hcounted := h.counted q hq
  have hvictimCounted := h.counted victim hvictim.mem
  apply Ledger.mem_keysSince_of_length_lt
  omega

/-- Every other entry of a full cache, and what it is full for, was stored after the oldest one. -/
theorem Tracks.maxEntries_le_of_isOldest (h : Tracks rate c l) (habsent : find? c.entries key = none)
    (hfull : c.size = c.limits.maxEntries) {victim : Key × Entry α}
    (hvictim : IsOldest c.entries victim) :
    c.limits.maxEntries ≤ (insert key (l.keysSince victim.1)).card := by
  let others := (without c.entries victim.1).map (·.1)
  have hsub : others.toFinset ⊆ l.keysSince victim.1 := by
    intro other hother
    obtain ⟨q, hq, rfl⟩ := List.mem_map.mp (List.mem_toFinset.mp hother)
    obtain ⟨hq, hne⟩ := mem_without.mp hq
    exact h.mem_keysSince_of_isOldest hvictim hq hne
  have hfresh : key ∉ others.toFinset := by
    intro hmem
    obtain ⟨q, hq, hkey⟩ := List.mem_map.mp (List.mem_toFinset.mp hmem)
    exact find?_eq_none_iff.mp habsent q (mem_without.mp hq).1 hkey
  have hothers : others.toFinset.card = (without c.entries victim.1).length := by
    rw [List.toFinset_card_of_nodup (h.sound.keyed.without victim.1), List.length_map]
  calc c.limits.maxEntries
      = (without c.entries victim.1).length + 1 := by
        rw [h.sound.keyed.length_without hvictim.mem, ← hfull, size]
    _ = (insert key others.toFinset).card := by rw [Finset.card_insert_of_notMem hfresh, hothers]
    _ ≤ (insert key (l.keysSince victim.1)).card :=
        Finset.card_le_card (Finset.insert_subset_insert key hsub)

/-- Of an entry that goes for `key`, enough keys were stored since, `key` counted. -/
theorem Tracks.kept_of_room (h : Tracks rate c l) {r : Cache α} (hroom : Room c l.now key r)
    {other : Key} {p : Stored α} (hlatest : l.latest? other = some p)
    (hunexpired : l.now < p.expiresAt rate) :
    (∃ e, (other, e) ∈ r.entries) ∨
      c.limits.maxEntries ≤ (insert key (l.keysSince other)).card := by
  rcases h.kept other p hlatest hunexpired with ⟨e, he⟩ | hmany
  · cases hroom with
    | ready _ => exact Or.inl ⟨e, he⟩
    | purged _ _ _ => exact Or.inl ⟨e, h.mem_live he hlatest hunexpired⟩
    | @evicted habsent hfull _ victim hvictim _ _ =>
        by_cases hother : other = victim.1
        · rw [hother]
          exact Or.inr (h.maxEntries_le_of_isOldest habsent hfull hvictim)
        · exact Or.inl ⟨e, mem_without.mpr ⟨he, hother⟩⟩
  · exact Or.inr (Nat.le_trans hmany (Finset.card_le_card (Finset.subset_insert _ _)))

theorem Tracks.put (h : Tracks rate c l) (hstores : Stores c.limits ttl) (key : Key) (payload : α) :
    Tracks rate (c.put l.now key payload ttl rate)
      (l.add ⟨key, payload, l.now, min ttl.toNat c.limits.maxTtl⟩) := by
  obtain ⟨hroom, -, -⟩ := h.sound.withRoom hstores.2.2 l.now key
  let p : Stored α := ⟨key, payload, l.now, min ttl.toNat c.limits.maxTtl⟩
  have hself : (l.add p).latest? key = some p := Ledger.latest?_add_self
  constructor
  case sound => exact h.sound.put l.now key payload ttl
  case latest =>
    intro q hq
    rcases (h.sound.mem_put hstores).mp hq with rfl | ⟨hold, hne⟩
    · exact ⟨p, hself, rfl, rfl⟩
    · rw [Ledger.latest?_add_of_ne (Ne.symm hne)]
      exact h.latest q (hroom.entries_subset hold)
  case counted =>
    intro q hq
    rw [h.sound.nextSeq_put hstores]
    rcases (h.sound.mem_put hstores).mp hq with rfl | ⟨hold, hne⟩
    · have hsince : (l.add p).since key = [] := Ledger.since_add_self
      rw [hsince]
      rfl
    · have hcounted := h.counted q (hroom.entries_subset hold)
      rw [Ledger.since_add_of_ne (Ne.symm hne), List.length_cons]
      omega
  case kept =>
    intro other q hlatest hunexpired
    rw [h.sound.limits_put]
    by_cases hother : key = other
    · exact Or.inl ⟨_, (h.sound.mem_put hstores).mpr (Or.inl (by rw [hother]))⟩
    · rw [Ledger.latest?_add_of_ne hother] at hlatest
      rw [Ledger.keysSince_add_of_ne hother]
      refine (h.kept_of_room hroom hlatest hunexpired).imp_left ?_
      rintro ⟨e, he⟩
      exact ⟨e, (h.sound.mem_put hstores).mpr (Or.inr ⟨he, Ne.symm hother⟩)⟩

theorem Tracks.get (h : Tracks rate c l) (key : Key) : Tracks rate (c.get l.now key).1 l :=
  h.of_live_eq (h.sound.get l.now key) (limits_get c l.now key) (nextSeq_get c l.now key)
    (get_entries_subset c l.now key) (h.sound.live_get l.now key)

theorem Tracks.sweep (h : Tracks rate c l) : Tracks rate (c.sweep l.now).1 l := by
  refine h.of_live_eq (h.sound.sweep l.now) (compact_limits _) (compact_nextSeq _) ?_
    (live_sweep c l.now)
  rw [Cache.sweep, compact_entries]
  exact List.filter_sublist.subset

theorem Tracks.clear (h : Tracks rate c l) : Tracks rate c.clear { l with puts := [] } where
  sound := h.sound.clear
  latest := fun _ hq => absurd hq List.not_mem_nil
  counted := fun _ hq => absurd hq List.not_mem_nil
  kept := fun _ _ hlatest => nomatch hlatest

theorem Tracks.later (h : Tracks rate c l) (steps : Nat) :
    Tracks rate c { l with now := l.now + steps } where
  sound := h.sound
  latest := h.latest
  counted := h.counted
  kept := fun key p hlatest hunexpired =>
    h.kept key p hlatest (Nat.lt_of_le_of_lt (Nat.le_add_right l.now steps) hunexpired)

/-- A look-up answers with what was stored last, if that has not expired and is not gone. -/
theorem Tracks.answer_eq_some (h : Tracks rate c l) {p : Stored α} (hlatest : l.latest? key = some p)
    (hunexpired : l.now < p.expiresAt rate) {e : Entry α} (he : (key, e) ∈ c.entries) :
    (c.get l.now key).2 = some p.payload := by
  obtain ⟨q, hq, hpayload, -⟩ := h.latest (key, e) he
  have hqp : q = p := Option.some.inj (hq.symm.trans hlatest)
  have hmem := h.mem_live he hlatest hunexpired
  rw [h.sound.get_answer, (h.sound.keyed_live l.now).find?_eq_some_iff.mpr hmem, ← hqp, ← hpayload]
  rfl

theorem Tracks.latest_of_answer (h : Tracks rate c l) (hanswer : (c.get l.now key).2 = some payload) :
    ∃ p, l.latest? key = some p ∧ p.payload = payload ∧ l.now < p.expiresAt rate := by
  rw [h.sound.get_answer] at hanswer
  obtain ⟨e, hfind, rfl⟩ := Option.map_eq_some_iff.mp hanswer
  obtain ⟨hmem, hlive⟩ := Cache.mem_live.mp (mem_of_find? hfind)
  obtain ⟨p, hlatest, hpayload, hexpiry⟩ := h.latest (key, e) hmem
  refine ⟨p, hlatest, hpayload.symm, ?_⟩
  rw [← hexpiry]
  exact Nat.lt_of_not_le (of_decide_eq_false hlive)

/-! ### Runs and their ledgers -/

namespace Run

def Tracks (r : Run α) (l : Ledger α) : Prop := r.now = l.now ∧ Cache.Tracks r.rate r.cache l

theorem Tracks.next {r : Run α} (h : r.Tracks l) (call : Call α) :
    (r.next call).Tracks (l.note r.cache.limits call) := by
  obtain ⟨cache, now, rate⟩ := r
  obtain ⟨rfl, h⟩ := h
  cases call with
  | put domain type payload ttl =>
      show _ ∧ Cache.Tracks rate (cache.put l.now (.of domain type) payload ttl rate)
        (l.note cache.limits (.put domain type payload ttl))
      by_cases hstores : Stores cache.limits ttl
      · rw [Ledger.note_put_of_stores hstores]
        exact ⟨rfl, h.put hstores (.of domain type) payload⟩
      · rw [Ledger.note_put_of_not_stores hstores, put_of_not_stores hstores]
        exact ⟨rfl, h⟩
  | get domain type => exact ⟨rfl, h.get (.of domain type)⟩
  | peek domain type => exact ⟨rfl, h⟩
  | sweep => exact ⟨rfl, h.sweep⟩
  | clear => exact ⟨rfl, h.clear⟩
  | advance steps => exact ⟨rfl, h.later steps⟩

theorem Tracks.after {r : Run α} (h : r.Tracks l) (calls : List (Call α)) :
    (r.after calls).Tracks (calls.foldl (Ledger.note r.cache.limits) l) := by
  induction calls generalizing r l with
  | nil => exact h
  | cons call rest ih =>
      have hrest := ih (h.next call)
      rw [limits_next h.2.sound call] at hrest
      exact hrest

/-- A look-up answers with the latest payload that was stored under its key since the last clearing,
and only before that has expired. It does answer with it unless it has expired or as many other keys
as there are places were stored since. -/
theorem get_eq_latest (limits : CacheLimits) (rate : ClockRate) (now : Nat) (calls : List (Call α))
    (domain : String) (type : RecordType) :
    let r := (start limits rate now).after calls
    let ledger := Ledger.of limits now calls
    let key := Key.of domain type
    (∀ payload, r.answer? (.get domain type) = some (some payload) →
      ∃ p, ledger.latest? key = some p ∧ p.payload = payload ∧
        r.now < p.storedAt + p.seconds * rate.perSecond) ∧
    (∀ p, ledger.latest? key = some p → r.now < p.storedAt + p.seconds * rate.perSecond →
      (ledger.keysSince key).card < limits.maxEntries →
      r.answer? (.get domain type) = some (some p.payload)) := by
  intro r ledger key
  have hstart : (start limits rate now : Run α).Tracks ⟨now, []⟩ := ⟨rfl, tracks_empty limits now⟩
  obtain ⟨hnow, htracks⟩ : r.Tracks ledger := hstart.after calls
  have hrate : r.rate = rate := rate_after _ calls
  rw [hrate] at htracks
  have hlimits : r.cache.limits = limits := limits_after (sound_empty limits) calls
  have hanswer : r.answer? (.get domain type) = some (r.cache.get ledger.now key).2 := by
    rw [answer?, hnow]
  rw [hanswer, hnow]
  constructor
  · intro payload hpayload
    exact htracks.latest_of_answer (Option.some.inj hpayload)
  · intro p hlatest hunexpired hfew
    rcases htracks.kept key p hlatest hunexpired with ⟨e, he⟩ | hmany
    · rw [htracks.answer_eq_some hlatest hunexpired he]
    · rw [hlimits] at hmany
      exact absurd hfew (Nat.not_lt_of_le hmany)

/-- For two places: one key is stored under twice, then another one, whose entry goes for a third. -/
def sampleCalls : List (Call Nat) :=
  [.put "ads.com" .a 1 50, .put "b.org" .a 2 300, .put "Ads.com." .a 3 300, .advance 90000, .sweep,
    .put "b.org" .aaaa 4 60]

theorem get_eq_latest_sample :
    let r := (start ⟨2, 100⟩ .millis 0).after sampleCalls
    let ledger := Ledger.of ⟨2, 100⟩ 0 sampleCalls
    let key := Key.of "ADS.com" .a
    ledger.latest? key = some ⟨key, 3, 0, 100⟩ ∧ (ledger.keysSince key).card < 2 ∧
      r.answer? (.get "ADS.com" .a) = some (some 3) ∧
      ∃ p, ledger.latest? key = some p ∧ p.payload = 3 ∧
        r.now < p.storedAt + p.seconds * 1000 := by
  intro r ledger key
  obtain ⟨hsound, hretained⟩ := get_eq_latest ⟨2, 100⟩ .millis 0 sampleCalls "ADS.com" .a
  have hlatest : ledger.latest? key = some ⟨key, 3, 0, 100⟩ := by decide +kernel
  have hunexpired : r.now < 0 + 100 * 1000 := by decide +kernel
  have hfew : (ledger.keysSince key).card < 2 := by decide +kernel
  have hanswer := hretained ⟨key, 3, 0, 100⟩ hlatest hunexpired hfew
  exact ⟨hlatest, hfew, hanswer, hsound 3 hanswer⟩

end Run

end DnsFilter.Cache
