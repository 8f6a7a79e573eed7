import DnsFilter.Decision
import DnsFilter.Time.Rfc3339

/-! Decisions and counters as JSON, on one line and with their fields in a fixed order. -/

namespace DnsFilter.Json

/-- A character inside quotes. -/
def escaped (c : Char) : List Char :=
  if c == '"' then ['\\', '"']
  else if c == '\\' then ['\\', '\\']
  else if c == '\n' then ['\\', 'n']
  else if c == '\r' then ['\\', 'r']
  else if c == '\t' then ['\\', 't']
  else if c == '\x08' then ['\\', 'b']
  else if c == '\x0c' then ['\\', 'f']
  else if c.toNat < 0x20 then
    ['\\', 'u', '0', '0', Nat.digitChar (c.toNat / 16), Nat.digitChar (c.toNat % 16)]
  else [c]

def quoted (s : String) : String := String.ofList ('"' :: s.toList.flatMap escaped ++ ['"'])

def boolean (b : Bool) : String := if b then "true" else "false"

def orNull {α : Type} (write : α → String) : Option α → String
  | some v => write v
  | none => "null"

def list {α : Type} (write : α → String) (items : List α) : String :=
  "[" ++ ",".intercalate (items.map write) ++ "]"

/-- A record; its values are written already. -/
def record (fields : List (String × String)) : String :=
  "\x7b" ++ ",".intercalate (fields.map fun f => quoted f.1 ++ ":" ++ f.2) ++ "\x7d"

def instant (t : Instant) : String := quoted (Rfc3339.render t)

def ofRule (r : Rule) : String :=
  record
    [("domain", quoted r.domain), ("rule_type", quoted r.kind.text),
     ("action", quoted r.action.text), ("priority", toString r.priority),
     ("source", quoted r.source.text), ("comment", orNull quoted r.comment),
     ("custom_message", orNull quoted r.customMessage),
     ("updated_at", orNull instant r.updatedAt), ("expires_at", orNull instant r.expiresAt),
     ("auto_generated", boolean r.autoGenerated)]

def ofDecision (d : Decision) : String :=
  record
    [("domain", quoted d.domain), ("action", quoted d.action.text),
     ("winner", orNull ofRule d.winner), ("candidates", list ofRule d.candidates)]

def ofCounter (c : QueryCounter) : String :=
  record
    [("domain", quoted c.domain), ("count", toString c.count),
     ("last_queried", instant c.lastQueried)]

end DnsFilter.Json
