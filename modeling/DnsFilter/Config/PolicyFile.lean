import DnsFilter.Fault
import DnsFilter.Files
import DnsFilter.Toml.Edit
import DnsFilter.WildcardPolicy

/-! The wildcard policy in the file of the configuration. It is put into the document that is there,
and all else in that document stays as it is written. -/

namespace DnsFilter.PolicyFile

open Toml (Text Setting)

/-- The table of the policy, and its settings in it. -/
def table : Text := "wildcard".toList

def modeKey : Text := "mode".toList

def respectKey : Text := "respect_allowlist_precedence".toList

/-- Gives a setting in the table a value. What is written behind an old value stays. -/
def setValue {E : Toml.Editor} (d : E.Doc) (key : Text) (v : Setting) : E.Doc :=
  match E.kindIn? d table key with
  | some .value => E.assign d table key v (E.tail? d table key)
  | some _ => E.assign d table key v none
  | none => E.insert d table key v

/-- The document with a table for the policy. -/
def withTable {E : Toml.Editor} (d : E.Doc) : E.Doc :=
  if E.kind? d table = some .table then d else E.insertTable d table

def setPolicy {E : Toml.Editor} (d : E.Doc) (p : WildcardPolicy) : E.Doc :=
  setValue (setValue d modeKey (.integer p.mode.number)) respectKey (.boolean p.respectAllowlist)

/-- The text with the policy in it. -/
def amended (path : String) (s : Text) (p : WildcardPolicy) (E : Toml.Editor) :
    Except Fault Text :=
  match E.parse? s with
  | none => .error (.malformed path)
  | some d =>
      let d := withTable d
      if E.kind? d table = some .table then .ok (E.print (setPolicy d p))
      else .error (.config ("[wildcard] in " ++ path ++ " is not a table"))

/-- The text to put the policy in, given what was read from the file. A file that is missing is taken to
be empty. -/
def existing (path : String) : Except FileFault String → Except Fault Text
  | .ok s => .ok s.toList
  | .error .missing => .ok []
  | .error cause => .error (.unreadable path cause.reason)

/-- What is to be written to the file. -/
def contents (path : String) (found : Except FileFault String) (p : WildcardPolicy)
    (E : Toml.Editor) : Except Fault String :=
  (existing path found).bind fun s => (amended path s p E).map String.ofList

/-- Saves the policy in the file at `path`, which is left alone if anything goes wrong. -/
def save {m : Type → Type} [Monad m] (files : FileAccess m) (path : String) (p : WildcardPolicy)
    (E : Toml.Editor := .standard) : m (Except Fault Unit) := do
  match contents path (← files.read path) p E with
  | .error cause => return .error cause
  | .ok text =>
      match ← files.write path text with
      | .ok () => return .ok ()
      | .error cause => return .error (.unwritable path cause.reason)

end DnsFilter.PolicyFile
