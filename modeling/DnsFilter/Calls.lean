import DnsFilter.Coverage.Pass

/-! What is called on a rule store, and on the wildcard policy beside it. A call that is refused leaves
everything as it was, so that after any calls there is a store. -/

namespace DnsFilter

/-- A rule store with the wildcard policy in force. -/
structure PolicedStore where
  rules : Store
  policy : WildcardPolicy

namespace PolicedStore

/-- A call, with the times, listings and outcomes that its answer depends on. -/
inductive Call where
  | write (w : Store.Write)
  | reload (source : Source) (batch : List Rule) (now : Instant)
  | cleanUp (now : Instant)
  | cover (order : Listing) (now : Instant)
  | changePolicy (policy : WildcardPolicy) (covering : Bool) (order : Listing) (now : Instant)
      (saving : Except Fault Unit)

/-- The store that an attempt leaves behind: the one before it, if it is refused. -/
def orKeep (s : Store) : Except Fault Store → Store
  | .ok next => next
  | .error _ => s

/-- The state after a call, whether or not it is refused. -/
def after (s : PolicedStore) : Call → PolicedStore
  | .write w => { s with rules := orKeep s.rules (s.rules.write w) }
  | .reload source batch now =>
      let attempt := (Store.keeper.reload s.rules source batch now).map (·.1)
      { s with rules := orKeep s.rules attempt }
  | .cleanUp now =>
      let attempt := (Store.keeper.removeExpired s.rules now).map (·.1)
      { s with rules := orKeep s.rules attempt }
  | .cover order now =>
      { s with rules := Coverage.passOrKeep order.keeper s.rules s.policy now }
  | .changePolicy policy covering order now saving =>
      let change :=
        DnsFilter.changePolicy order.keeper s.rules s.policy policy covering now saving
      ⟨change.rules, change.policy⟩

end PolicedStore

/-! ### Reloads -/

namespace Store

/-- A reload of the rules of one source, which say that they come from it or are taken to. -/
inductive Reload where
  | stated (batch : List Rule)
  | claimed (batch : List Rule) (now : Instant)
  deriving DecidableEq

namespace Reload

def batch : Reload → List Rule
  | .stated batch => batch
  | .claimed batch _ => batch

/-- The rules as they are handed to the store. -/
def handed (source : Source) : Reload → List Rule
  | .stated batch => batch
  | .claimed batch now => batch.map (Keeper.claimed source now)

/-- The store after the reload, or why it is refused. -/
def attempt (source : Source) (s : Store) : Reload → Except Fault Store
  | .stated batch => (s.replaceSource source batch).map (·.1)
  | .claimed batch now => (Store.keeper.reload s source batch now).map (·.1)

/-- The reloads, one after the other, that are not refused. -/
def granted (source : Source) (s : Store) : List Reload → List Reload
  | [] => []
  | r :: rest =>
      match r.attempt source s with
      | .ok next => r :: granted source next rest
      | .error _ => granted source s rest

end Reload

/-- The store that a reload leaves behind. -/
def reloaded (source : Source) (s : Store) (r : Reload) : Store :=
  PolicedStore.orKeep s (r.attempt source s)

end Store

end DnsFilter
