import DnsFilter.Proofs.Cache.Storing

/-! Runs of the response cache. The clock is moved between the calls and never goes back. What holds
in every run follows from what each call keeps. -/

namespace DnsFilter.Cache

namespace Run

variable {α : Type}

@[simp] theorem rate_next (r : Run α) (call : Call α) : (r.next call).rate = r.rate := by
  cases call <;> rfl

@[simp] theorem rate_after (r : Run α) (calls : List (Call α)) : (r.after calls).rate = r.rate := by
  induction calls generalizing r with
  | nil => rfl
  | cons call rest ih => exact (ih (r.next call)).trans (rate_next r call)

theorem sound_next {r : Run α} (h : r.cache.Sound) (call : Call α) : (r.next call).cache.Sound := by
  cases call with
  | put domain type payload ttl => exact h.put r.now (.of domain type) payload ttl
  | get domain type => exact h.get r.now (.of domain type)
  | peek domain type => exact h
  | sweep => exact h.sweep r.now
  | clear => exact h.clear
  | advance steps => exact h

theorem limits_next {r : Run α} (h : r.cache.Sound) (call : Call α) :
    (r.next call).cache.limits = r.cache.limits := by
  cases call with
  | put domain type payload ttl => exact h.limits_put r.now (.of domain type) payload ttl
  | get domain type => exact limits_get r.cache r.now (.of domain type)
  | peek domain type => rfl
  | sweep => exact compact_limits _
  | clear => rfl
  | advance steps => rfl

/-- What every operation keeps holds in every run. -/
theorem sound_after {r : Run α} (h : r.cache.Sound) (calls : List (Call α)) :
    (r.after calls).cache.Sound := by
  induction calls generalizing r with
  | nil => exact h
  | cons call rest ih => exact ih (sound_next h call)

theorem limits_after {r : Run α} (h : r.cache.Sound) (calls : List (Call α)) :
    (r.after calls).cache.limits = r.cache.limits := by
  induction calls generalizing r with
  | nil => rfl
  | cons call rest ih => exact (ih (sound_next h call)).trans (limits_next h call)

end Run

end DnsFilter.Cache
