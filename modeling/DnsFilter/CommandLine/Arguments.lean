import DnsFilter.Config.Basic
import DnsFilter.Text.Decimal

/-! The command line: what its arguments ask for. Options that concern the whole run stand before
the command, those of the command after it. An option is given once; its value is the next argument,
or follows an equals sign. -/

namespace DnsFilter.CommandLine

inductive Command where
  | run
  | check (domains : List String) (json : Bool) (top : Option Nat)
  | explain (domain : String)
  | setMode (mode : WildcardMode) (respectAllowlist : Option Bool)
  deriving DecidableEq, Repr

structure Invocation where
  config : Option String
  overrides : Overrides
  command : Command
  deriving DecidableEq, Repr

/-- Why arguments do not lead to a run. -/
inductive Stop where
  | version
  | help
  | misuse
  deriving DecidableEq, Repr

/-! ### Arguments one by one -/

/-- What an argument or two of them say. An `operand` stands after a `separator`, which is a bare
`--`: nothing after it is an option or the name of a command. -/
inductive Item where
  | word (text : String)
  | separator
  | operand (text : String)
  | flag (name : String)
  | option (name value : String)
  | misuse
  deriving DecidableEq, Repr

def flags : List String := ["version", "help", "json"]

/-- The options that take a value. -/
def options : List String :=
  ["config", "log-level", "wildcard-mode", "cache-max-entries", "top", "respect-allowlist"]

/-- Whether an argument is no option; a single dash is none. -/
def isWord : List Char → Bool
  | ['-'] => true
  | '-' :: _ => false
  | _ => true

/-- The form of an argument: a bare `--`, a word, or the name of an option with its value, if that
is in the same argument. -/
inductive Form where
  | separator
  | word
  | named (name : String) (value : Option String)
  | unknown
  deriving DecidableEq, Repr

def Form.ofLong (s : List Char) : Form :=
  let name := String.ofList (s.takeWhile (· != '='))
  match s.dropWhile (· != '=') with
  | [] => .named name none
  | _ :: value => .named name (some (String.ofList value))

/-- The form of an argument; three options have a short name of one letter. -/
def Form.of : List Char → Form
  | ['-', '-'] => .separator
  | '-' :: '-' :: rest => .ofLong rest
  | ['-', 'c'] => .named "config" none
  | '-' :: 'c' :: '=' :: value => .named "config" (some (String.ofList value))
  | '-' :: 'c' :: value => .named "config" (some (String.ofList value))
  | '-' :: 'V' :: _ => .named "version" none
  | '-' :: 'h' :: _ => .named "help" none
  | s => if isWord s then .word else .unknown

def items : List String → List Item
  | [] => []
  | arg :: rest =>
      match Form.of arg.toList with
      | .separator => .separator :: rest.map .operand
      | .word => .word arg :: items rest
      | .named name (some value) =>
          if options.contains name then .option name value :: items rest else [.misuse]
      | .named name none =>
          if flags.contains name then .flag name :: items rest
          else if options.contains name then
            match rest with
            | value :: rest =>
                if isWord value.toList then .option name value :: items rest else [.misuse]
            | [] => [.misuse]
          else [.misuse]
      | .unknown => [.misuse]

/-! ### Values -/

def mode? (s : String) : Option WildcardMode :=
  Text.Decimal.signed? s.toList >>= WildcardMode.ofNumber?

def count? (s : String) : Option Nat := Text.Decimal.unsigned? 0xffffffffffffffff s.toList

def truth? : String → Option Bool
  | "true" => some true
  | "false" => some false
  | _ => none

/-- Fills in a value that is not there yet. -/
def once {α : Type} (given value : Option α) : Except Stop (Option α) :=
  match given, value with
  | none, some v => .ok (some v)
  | _, _ => .error .misuse

/-! ### Commands -/

/-- What was said of a check so far. -/
structure CheckArguments where
  domains : List String
  json : Bool
  top : Option Nat
  deriving DecidableEq, Repr

def CheckArguments.take (a : CheckArguments) : Item → Except Stop CheckArguments
  | .separator => .ok a
  | .word s => .ok { a with domains := a.domains ++ [s] }
  | .operand s => .ok { a with domains := a.domains ++ [s] }
  | .flag "json" => if a.json then .error .misuse else .ok { a with json := true }
  | .flag "help" => .error .help
  | .option "top" value => do return { a with top := ← once a.top (count? value) }
  | _ => .error .misuse

def checkCommand (rest : List Item) : Except Stop Command := do
  let a ← rest.foldlM CheckArguments.take ⟨[], false, none⟩
  if a.domains.isEmpty then .error .misuse else return .check a.domains a.json a.top

def explainStep (domain : Option String) : Item → Except Stop (Option String)
  | .separator => .ok domain
  | .word s => once domain (some s)
  | .operand s => once domain (some s)
  | .flag "help" => .error .help
  | _ => .error .misuse

def explainCommand (rest : List Item) : Except Stop Command := do
  match ← rest.foldlM explainStep none with
  | some domain => return .explain domain
  | none => .error .misuse

/-- What was said of a change of mode so far. -/
structure ModeArguments where
  mode : Option WildcardMode
  respectAllowlist : Option Bool
  deriving DecidableEq, Repr

def ModeArguments.take (a : ModeArguments) : Item → Except Stop ModeArguments
  | .separator => .ok a
  | .word s => do return { a with mode := ← once a.mode (mode? s) }
  | .operand s => do return { a with mode := ← once a.mode (mode? s) }
  | .flag "help" => .error .help
  | .option "respect-allowlist" value => do
      return { a with respectAllowlist := ← once a.respectAllowlist (truth? value) }
  | _ => .error .misuse

def modeCommand (rest : List Item) : Except Stop Command := do
  let a ← rest.foldlM ModeArguments.take ⟨none, none⟩
  match a.mode with
  | some mode => return .setMode mode a.respectAllowlist
  | none => .error .misuse

def runCommand : List Item → Except Stop Command
  | [] | [.separator] => .ok .run
  | .flag "help" :: _ => .error .help
  | _ => .error .misuse

def commandNames : List String := ["run", "check", "explain", "set-wildcard-mode", "help"]

def helpCommand : List Item → Except Stop Command
  | [] => .error .help
  | [.word name] => .error (if commandNames.contains name then .help else .misuse)
  | _ => .error .misuse

def commandNamed (name : String) (rest : List Item) : Except Stop Command :=
  match name with
  | "run" => runCommand rest
  | "check" => checkCommand rest
  | "explain" => explainCommand rest
  | "set-wildcard-mode" => modeCommand rest
  | "help" => helpCommand rest
  | _ => .error .misuse

/-! ### The whole line -/

/-- Sets an option of the whole run. -/
def Invocation.with (i : Invocation) (name value : String) : Except Stop Invocation :=
  let o := i.overrides
  match name with
  | "config" => do return { i with config := ← once i.config (some value) }
  | "log-level" => do
      return { i with overrides := { o with logLevel := ← once o.logLevel (some value) } }
  | "wildcard-mode" => do
      return { i with overrides := { o with mode := ← once o.mode (mode? value) } }
  | "cache-max-entries" => do
      return { i with overrides := { o with maxEntries := ← once o.maxEntries (count? value) } }
  | _ => .error .misuse

/-- What the arguments ask for after those that `i` was made of. Without a command, the jobs are
run. -/
def Invocation.complete (i : Invocation) : List Item → Except Stop Invocation
  | [] | [.separator] => .ok i
  | .word name :: rest => do return { i with command := ← commandNamed name rest }
  | .option name value :: rest => do (← i.with name value).complete rest
  | .flag "version" :: _ => .error .version
  | .flag "help" :: _ => .error .help
  | _ => .error .misuse

def Invocation.ofArguments (args : List String) : Except Stop Invocation :=
  Invocation.complete ⟨none, .none, .run⟩ (items args)

end DnsFilter.CommandLine
