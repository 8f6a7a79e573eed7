import DnsFilter.Decision

/-! Decisions and counters as lines of text. -/

namespace DnsFilter.Report

def paddedLeft (width : Nat) (s : String) : String :=
  "".pushn ' ' (width - s.length) ++ s

def paddedRight (width : Nat) (s : String) : String :=
  s.pushn ' ' (width - s.length)

/-- A decision on one line, with the rule that decided. -/
def verdict (d : Decision) : String :=
  let reason := match d.winner with
    | some r => "\t" ++ r.domain ++ " (" ++ r.kind.text ++ ", " ++ r.source.text ++ ")"
    | none => ""
  d.domain ++ "\t" ++ d.action.text ++ reason ++ "\n"

def counter (c : QueryCounter) : String :=
  "  " ++ paddedLeft 6 (toString c.count) ++ "  " ++ c.domain ++ "\n"

def mostQueried (counters : List QueryCounter) : String :=
  "most queried:\n" ++ String.join (counters.map counter)

def truth (b : Bool) : String := if b then "true" else "false"

/-- A candidate and what tells it apart from others. -/
def candidate (domain : String) (rank : Nat) (r : Rule) : String :=
  "  " ++ paddedLeft 2 (toString rank) ++ ". " ++ paddedRight 40 r.domain ++ " " ++
    paddedRight 8 r.kind.text ++ " " ++ r.action.text ++
    " exact=" ++ truth (r.domain == domain) ++
    " specificity=" ++ toString r.specificity ++
    " priority=" ++ toString r.priority ++
    " source=" ++ r.source.text ++ (if r.autoGenerated then " (auto)" else "") ++ "\n"

/-- A decision with all its candidates. -/
def explanation (d : Decision) : String :=
  let lines := d.candidates.zipIdx.map fun (r, i) => candidate d.domain (i + 1) r
  d.domain ++ " -> " ++ d.action.text ++ "\n" ++
    (if lines.isEmpty then "  no matching rules\n" else String.join lines)

end DnsFilter.Report
