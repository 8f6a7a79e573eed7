import DnsFilter.Name.Pattern
import DnsFilter.Time.Instant

/-! Filtering rules. A rule says what to do with one name (`exact`) or with every name below one
(`wildcard`, written `*.name`). Rules that were read back from storage may hold any text as their
domain; `Rule.fault?` says which rules a store accepts, and `Rule.ofPattern` makes only those. -/

namespace DnsFilter

/-- What a rule asks for. -/
inductive Action where
  | block
  | allow
  | unknown
  deriving DecidableEq, Repr

namespace Action

def text : Action → String
  | .block => "block"
  | .allow => "allow"
  | .unknown => "unknown"

/-- Reads an action; `deny` is another word for `block`. -/
def ofText? : String → Option Action
  | "block" => some .block
  | "deny" => some .block
  | "allow" => some .allow
  | "unknown" => some .unknown
  | _ => none

end Action

/-- Whether a rule is about one name or about all names below one. -/
inductive Kind where
  | exact
  | wildcard
  deriving DecidableEq, Repr

def Kind.text : Kind → String
  | .exact => "exact"
  | .wildcard => "wildcard"

def Kind.ofText? : String → Option Kind
  | "exact" => some .exact
  | "wildcard" => some .wildcard
  | _ => none

/-- Where a rule comes from. -/
inductive Source where
  | user
  | manifest
  | remote
  | system
  | managed
  deriving DecidableEq, Repr

namespace Source

def text : Source → String
  | .user => "user"
  | .manifest => "manifest"
  | .remote => "remote"
  | .system => "system"
  | .managed => "managed"

def ofText? : String → Option Source
  | "user" => some .user
  | "manifest" => some .manifest
  | "remote" => some .remote
  | "system" => some .system
  | "managed" => some .managed
  | _ => none

end Source

/-- Priorities are whole numbers from `-2^63` to `2^63 - 1`. -/
abbrev Priority := Int

namespace Priority

def least : Priority := -0x8000000000000000

def greatest : Priority := 0x7fffffffffffffff

/-- The next lower priority; below the least one there is none. -/
def lower (p : Priority) : Priority := max (p - 1) least

end Priority

structure Rule where
  domain : String
  kind : Kind
  action : Action
  priority : Priority
  source : Source
  comment : Option String
  customMessage : Option String
  updatedAt : Option Instant
  expiresAt : Option Instant
  autoGenerated : Bool
  deriving DecidableEq, Repr

namespace Rule

def maxCommentBytes : Nat := 500

def isWildcard (r : Rule) : Bool := r.kind == .wildcard

/-- The name a wildcard rule stands over. A rule marked wildcard whose domain does not start with
`*.` stands over none. -/
def below? (r : Rule) : Option (List Char) :=
  match r.kind with
  | .wildcard => Name.afterStar? r.domain.toList
  | .exact => none

/-- Whether the rule is about `name`: a wildcard about all names below its own, any other rule about
the name it is spelled as. -/
def isAbout (r : Rule) (name : String) : Bool :=
  match r.below? with
  | some parent => Name.isBelow name.toList parent
  | none => r.domain == name

/-- How many labels the rule fixes. -/
def specificity (r : Rule) : Nat :=
  match r.kind with
  | .wildcard => (Name.labels r.domain.toList).length - 1
  | .exact => (Name.labels r.domain.toList).length

/-- A rule has expired from its expiry on. -/
def isExpired (r : Rule) (now : Instant) : Bool :=
  match r.expiresAt with
  | some expiry => decide (expiry ≤ now)
  | none => false

/-- Why a store refuses the rule, or `none` if it accepts it. -/
def fault? (r : Rule) : Option Fault :=
  match Name.patternFault? r.domain with
  | some cause => some (.name cause)
  | none =>
      match r.kind, (Name.afterStar? r.domain.toList).isSome with
      | .wildcard, false => some (.rule (.missingStar r.domain))
      | .exact, true => some (.rule (.unexpectedStar r.domain))
      | _, _ =>
          if r.comment.any fun c => decide (maxCommentBytes < c.utf8ByteSize) then
            some (.rule .longComment)
          else none

/-- The rule a pattern stands for, before any check. -/
def draft (pattern : String) (action : Action) : Rule where
  domain := Name.normalize pattern
  kind := if (Name.afterStar? (Name.normalize pattern).toList).isSome then .wildcard else .exact
  action := action
  priority := 0
  source := .user
  comment := none
  customMessage := none
  updatedAt := none
  expiresAt := none
  autoGenerated := false

/-- The user's rule for a pattern: the pattern is taken in its normal spelling, and it is a wildcard
rule exactly when that starts with `*.`. -/
def ofPattern (pattern : String) (action : Action) : Except Fault Rule :=
  match (draft pattern action).fault? with
  | some cause => .error cause
  | none => .ok (draft pattern action)

end Rule

end DnsFilter
