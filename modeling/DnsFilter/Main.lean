import DnsFilter.CommandLine.Session
import Std.Async.Signal
import Std.Time.DateTime.Timestamp

/-! The program: the command line over the files, the clocks and the output of the machine. -/

namespace DnsFilter.Program

/-- Why the machine could not read or write a file. -/
def faultOf : IO.Error → FileFault
  | .noFileOrDirectory .. => .missing
  | .inappropriateType _ code _ => if code == 21 then .isDirectory else .notDirectory
  | e@(.invalidArgument _ code _) => if code == 36 then .nameTooLong else .other (toString e)
  | e => .other (toString e)

def readFile (path : String) : IO (Except FileFault String) := do
  try
    match String.fromUTF8? (← IO.FS.readBinFile path) with
    | some text => return .ok text
    | none => return .error .notText
  catch e => return .error (faultOf e)

def writeFile (path text : String) : IO (Except FileFault Unit) := do
  try
    IO.FS.writeFile path text
    return .ok ()
  catch e => return .error (faultOf e)

def isThere (path : String) : IO Bool := do
  match ← readFile path with
  | .ok _ | .error .isDirectory | .error .notText => return true
  | .error _ => return false

/-- The files of the machine. -/
def files : FileAccess IO where
  isThere := isThere
  read := readFile
  write := writeFile

def timeOfDay : IO Instant := do
  let t ← Std.Time.Timestamp.now
  return .ofNanos t.toNanosecondsSinceUnixEpoch.val

/-- Lets the jobs make their passes until `interrupt` has come. `origin` is the machine's clock at
their start, in milliseconds. -/
partial def keepRunning (interrupt : Std.Async.AsyncTask Int) (origin : Nat) (run : JobRun)
    (services : Services Unit) : IO Unit := do
  if ← IO.hasFinished interrupt then return
  IO.sleep 100
  let now ← timeOfDay
  let cacheNow ← IO.monoMsNow
  let due := (cacheNow - origin) / 1000 - run.elapsed
  let (run, services) := JobRun.advance (fun _ => now) (fun _ => cacheNow) due (run, services)
  keepRunning interrupt origin run services

def runJobs (s : CommandLine.Session) : IO UInt32 := do
  let waiter ← Std.Async.Signal.Waiter.mk .sigint false
  let interrupt ← waiter.wait
  let origin ← IO.monoMsNow
  let (run, services) := JobRun.start s.config.schedule true s.services (← timeOfDay) origin
  keepRunning interrupt origin run services
  return 0

def say (r : CommandLine.Reply) : IO UInt32 := do
  IO.print r.output
  IO.eprint r.errors
  return r.code

def carryOut (i : CommandLine.Invocation) : IO UInt32 := do
  match i.command with
  | .run =>
      match ← CommandLine.start files i (← timeOfDay) with
      | .error cause => say ⟨"", some cause⟩
      | .ok s => runJobs s
  | _ => say (← CommandLine.respond files i (← timeOfDay))

end DnsFilter.Program

def main (args : List String) : IO UInt32 := do
  match DnsFilter.CommandLine.Invocation.ofArguments args with
  | .ok i => DnsFilter.Program.carryOut i
  | .error .version => IO.print DnsFilter.CommandLine.versionText; return 0
  | .error .help => IO.print DnsFilter.CommandLine.usage; return 0
  | .error .misuse => IO.eprint DnsFilter.CommandLine.usage; return 2
