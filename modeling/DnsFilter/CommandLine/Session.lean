import DnsFilter.CommandLine.Arguments
import DnsFilter.CommandLine.Json
import DnsFilter.CommandLine.Report
import DnsFilter.Config.Files
import DnsFilter.Config.PolicyFile
import DnsFilter.Startup

/-! Sessions of the command line: from a valid configuration to services, and from a command to what
it prints. -/

namespace DnsFilter.CommandLine

/-- Why a session did not start, or a command not finish. -/
inductive SessionFault where
  | config (cause : ConfigFault)
  | refused (cause : Fault)
  deriving DecidableEq, Repr

def SessionFault.message : SessionFault → String
  | .config cause => cause.message
  | .refused cause => cause.message

/-- A started session. `policyPath` is the file that a change of policy is saved in. -/
structure Session where
  config : Config
  services : Services Unit
  policyPath : String

/-- What a command prints, up to its fault if there is one. -/
structure Reply where
  output : String
  fault : Option SessionFault
  deriving DecidableEq, Repr

namespace Reply

def code (r : Reply) : UInt32 := if r.fault.isSome then 1 else 0

/-- What is printed as an error. -/
def errors (r : Reply) : String :=
  match r.fault with
  | some cause => "Error: " ++ cause.message ++ "\n"
  | none => ""

end Reply

/-! ### Starting -/

/-- The services of a configuration that is valid. -/
def services (c : Config) (now : Instant) : Except SessionFault (Services Unit) :=
  match c.fault? with
  | some cause => .error (.config (.invalid cause))
  | none => (Services.ofConfig c now).mapError .refused

variable {m : Type → Type} [Monad m]

def start (files : FileAccess m) (i : Invocation) (now : Instant) :
    m (Except SessionFault Session) := do
  match ← Config.load files i.config i.overrides with
  | .error cause => return .error (.config cause)
  | .ok config =>
      match services config now with
      | .error cause => return .error cause
      | .ok services =>
          let path ← Config.path? files i.config
          return .ok ⟨config, services, path.getD "ferrous-shield.toml"⟩

/-! ### Commands -/

/-- Checks names one after the other, up to the first that is refused. Each is asked for at a later
time than the one before, by the least there is. -/
def checkAll (view : RuleView) (json : Bool) :
    Instant → QueryStats → List String → String × Except Fault QueryStats
  | _, stats, [] => ("", .ok stats)
  | now, stats, name :: rest =>
      match view.checkCounted stats name now with
      | (.error cause, _) => ("", .error cause)
      | (.ok d, stats) =>
          let line := if json then Json.ofDecision d ++ "\n" else Report.verdict d
          let (lines, result) := checkAll view json (now.later 1) stats rest
          (line ++ lines, result)

def topOutput (stats : QueryStats) (json : Bool) (limit : Nat) : String :=
  let top := stats.top limit
  if json then Json.list Json.ofCounter top ++ "\n" else Report.mostQueried top

def check (s : Session) (domains : List String) (json : Bool) (top : Option Nat) (now : Instant) :
    Reply :=
  match checkAll s.services.rules.view json now s.services.stats domains with
  | (lines, .error cause) => ⟨lines, some (.refused cause)⟩
  | (lines, .ok stats) =>
      ⟨lines ++ (match top with
        | some limit => topOutput stats json limit
        | none => ""), none⟩

def explain (s : Session) (domain : String) (now : Instant) : Reply :=
  match s.services.rules.view.check domain now with
  | .error cause => ⟨"", some (.refused cause)⟩
  | .ok d => ⟨Report.explanation d, none⟩

/-- The policy that is asked for; the part about the allowlist stays as it is unless given. -/
def requestedPolicy (current : WildcardPolicy) (mode : WildcardMode)
    (respectAllowlist : Option Bool) : WildcardPolicy :=
  ⟨mode, respectAllowlist.getD current.respectAllowlist⟩

def policyLine (previous policy : WildcardPolicy) : String :=
  "wildcard mode: " ++ previous.mode.text ++ " -> " ++ policy.mode.text ++
    " (respect_allowlist_precedence = " ++ Report.truth policy.respectAllowlist ++ ")\n"

def setMode (files : FileAccess m) (s : Session) (mode : WildcardMode)
    (respectAllowlist : Option Bool) (now : Instant) : m Reply := do
  let policy := requestedPolicy s.services.policy mode respectAllowlist
  let saving ← PolicyFile.save files s.policyPath policy
  let change :=
    changePolicy Store.keeper s.services.rules s.services.policy policy true now saving
  match change.answer with
  | .ok previous => return ⟨policyLine previous policy, none⟩
  | .error cause => return ⟨"", some (.refused cause)⟩

/-- Carries out a command. Running the jobs prints nothing, and ends without a fault. -/
def perform (files : FileAccess m) (s : Session) (now : Instant) : Command → m Reply
  | .run => return ⟨"", none⟩
  | .check domains json top => return check s domains json top now
  | .explain domain => return explain s domain now
  | .setMode mode respectAllowlist => setMode files s mode respectAllowlist now

/-- Starts a session and carries out its command. -/
def respond (files : FileAccess m) (i : Invocation) (now : Instant) : m Reply := do
  match ← start files i now with
  | .error cause => return ⟨"", some cause⟩
  | .ok s => perform files s now i.command

def versionText : String := "ferrous-shield 0.3.0\n"

def usage : String :=
  "Usage: ferrous-shield [-c FILE] [--log-level LEVEL] [--wildcard-mode MODE] " ++
    "[--cache-max-entries N] [COMMAND]\n\n" ++
    "Commands:\n" ++
    "  run                                     run the background jobs (default)\n" ++
    "  check DOMAIN... [--json] [--top N]      decide about domains\n" ++
    "  explain DOMAIN                          list the rules about a domain\n" ++
    "  set-wildcard-mode MODE [--respect-allowlist BOOL]\n" ++
    "                                          change and save the wildcard policy\n"

end DnsFilter.CommandLine
