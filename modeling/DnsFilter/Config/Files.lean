import DnsFilter.Config.Reader
import DnsFilter.Config.Writer
import DnsFilter.Files

/-! The configuration in its file. -/

namespace DnsFilter.Config

/-- The files that are looked for where no path is given, in order. -/
def standardPaths : List String := ["ferrous-shield.toml", "/etc/ferrous-shield/config.toml"]

variable {m : Type → Type} [Monad m]

/-- The path that was given, or else the first of the standard ones at which there is something. -/
def path? (files : FileAccess m) (given : Option String) : m (Option String) := do
  match given with
  | some path => return some path
  | none => standardPaths.findM? files.isThere

/-- The configuration in a file. -/
def loadFrom (files : FileAccess m) (path : String) (F : Toml.Format := .standard) :
    m (Except ConfigFault Config) := do
  match ← files.read path with
  | .error cause => return .error (.unreadable path cause.reason)
  | .ok text =>
      match ofText? text.toList F with
      | some c => return .ok c
      | none => return .error .malformed

/-- The configuration of a run, which is the standard one if there is no file. -/
def load (files : FileAccess m) (given : Option String) (o : Overrides)
    (F : Toml.Format := .standard) : m (Except ConfigFault Config) := do
  match ← path? files given with
  | none => return .ok (standard.override o)
  | some path => return (← loadFrom files path F).map (·.override o)

/-- Saves a configuration in a file of its own. -/
def save (files : FileAccess m) (path : String) (c : Config) (F : Toml.Format := .standard) :
    m (Except ConfigFault Unit) := do
  match ← files.write path (String.ofList (c.text F)) with
  | .ok () => return .ok ()
  | .error cause => return .error (.unwritable path cause.reason)

end DnsFilter.Config
