import DnsFilter.Store

/-! Keepers of rules, as the services see them: what can be read, and the writes the services make.
The store in memory is one; a write of any keeper may fail, and then its state is as before. The store
promises no order in which it lists its rules, so that it is a keeper in as many ways as there are
orders. -/

namespace DnsFilter

structure Keeper (σ : Type) where
  view : σ → RuleView
  addMissing : σ → List Rule → Except Fault (σ × Nat)
  replaceSource : σ → Source → List Rule → Except Fault (σ × Nat)
  removeExpired : σ → Instant → Except Fault (σ × Nat)

/-- The store in memory as a keeper. -/
def Store.keeper : Keeper Store where
  view := Store.view
  addMissing := Store.addMissing
  replaceSource := Store.replaceSource
  removeExpired := Store.tryRemoveExpired

/-- An order in which a store may list its rules. -/
structure Listing where
  list : List Rule → List Rule
  perm : ∀ rules, (list rules).Perm rules

namespace Listing

/-- The store in memory, with its rules listed in this order. -/
def keeper (order : Listing) : Keeper Store :=
  { Store.keeper with view := fun s => ⟨s.ruleFor, order.list s.rules⟩ }

/-- The store in memory where the write of missing rules may be refused for other reasons as well. -/
def unreliable (order : Listing) (refuse? : Store → List Rule → Option Fault) : Keeper Store :=
  { order.keeper with
    addMissing := fun s batch =>
      match refuse? s batch with
      | some cause => .error cause
      | none => s.addMissing batch }

/-- The rules in the order in which they are stored. -/
def asStored : Listing := ⟨id, List.Perm.refl⟩

def reversed : Listing := ⟨List.reverse, List.reverse_perm⟩

end Listing

namespace Keeper

variable {σ : Type}

/-- The rule as it is stored for `source`: stamped `now` if it bears no time of its own. -/
def claimed (source : Source) (now : Instant) (r : Rule) : Rule :=
  { r with source := source, updatedAt := some (r.updatedAt.getD now) }

/-- Reloads one source: all rules of the batch are taken to come from it. -/
def reload (k : Keeper σ) (s : σ) (source : Source) (batch : List Rule) (now : Instant) :
    Except Fault (σ × Nat) :=
  let batch := batch.map (claimed source now)
  match Store.batchFault? batch with
  | some cause => .error cause
  | none => k.replaceSource s source batch

end Keeper

end DnsFilter
