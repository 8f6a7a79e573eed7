import DnsFilter.Rule.Basic

/-! Precedence among rules about one name. Six criteria are asked in turn and the first that tells
two rules apart decides; rules that none tells apart agree in domain, kind, action, priority and
source. -/

namespace DnsFilter.Precedence

/-- A criterion says which of two rules goes first for a query; `lt` puts the first one first. -/
abbrev Criterion := String → Rule → Rule → Ordering

/-- The order in which `false` stands before `true`. -/
def compareFlag (a b : Bool) : Ordering := compare a.toNat b.toNat

/-- The rule spelled as the query goes first. -/
def exactness : Criterion := fun query a b =>
  compareFlag (b.domain == query) (a.domain == query)

/-- Allowing goes before blocking, and blocking before not knowing. -/
def actionRank : Action → Nat
  | .allow => 0
  | .block => 1
  | .unknown => 2

def action : Criterion := fun _ a b => compare (actionRank a.action) (actionRank b.action)

/-- The rule that fixes more labels goes first. -/
def specificity : Criterion := fun _ a b => compare b.specificity a.specificity

/-- The greater priority goes first. -/
def priority : Criterion := fun _ a b => compare b.priority a.priority

/-- The user's rules go before all others. -/
def source : Criterion := fun _ a b => compareFlag (b.source == .user) (a.source == .user)

def kindRank : Kind → Nat
  | .exact => 0
  | .wildcard => 1

def sourceRank : Source → Nat
  | .user => 0
  | .manifest => 1
  | .remote => 2
  | .system => 3
  | .managed => 4

/-- The order of two texts by their code points, which is the order of their UTF-8 bytes. -/
def compareText (a b : String) : Ordering :=
  compareOfLessAndEq a b

/-- Whatever is left is ordered by domain, kind and source, so that the order never depends on where
a rule stands in a list. -/
def fallback : Criterion := fun _ a b =>
  (compareText a.domain b.domain).then
    ((compare (kindRank a.kind) (kindRank b.kind)).then
      (compare (sourceRank a.source) (sourceRank b.source)))

/-- The criteria, in the order they are asked. -/
def criteria : List Criterion := [exactness, action, specificity, priority, source, fallback]

/-- The first criterion that tells the two rules apart decides. -/
def comparison : Criterion := fun query a b =>
  criteria.foldr (fun c rest => (c query a b).then rest) .eq

/-- `a` may stand before `b`. -/
def atMost (query : String) (a b : Rule) : Bool := (comparison query a b).isLE

/-- The rules in order of precedence; rules that compare equal keep their order. -/
def sort (query : String) (rules : List Rule) : List Rule := rules.mergeSort (atMost query)

/-- The rule that takes precedence, the earliest of several that compare equal. -/
def winner? (query : String) : List Rule → Option Rule
  | [] => none
  | r :: rest =>
      match winner? query rest with
      | none => some r
      | some best => if atMost query r best then some r else some best

/-- The action of the rule that takes precedence. -/
def verdict (query : String) (rules : List Rule) : Action :=
  match winner? query rules with
  | some r => r.action
  | none => .unknown

end DnsFilter.Precedence
