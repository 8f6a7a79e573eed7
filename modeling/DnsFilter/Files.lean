/-! Files: reading and writing texts by path, and the files of a machine as a value. -/

namespace DnsFilter

/-- Why a file could not be read or written. -/
inductive FileFault where
  | missing
  | notDirectory
  | isDirectory
  | nameTooLong
  | nulInPath
  | notText
  | other (reason : String)
  deriving DecidableEq, Repr

def FileFault.reason : FileFault → String
  | .missing => "No such file or directory (os error 2)"
  | .notDirectory => "Not a directory (os error 20)"
  | .isDirectory => "Is a directory (os error 21)"
  | .nameTooLong => "File name too long (os error 36)"
  | .nulInPath => "file name contained an unexpected NUL byte"
  | .notText => "stream did not contain valid UTF-8"
  | .other reason => reason

/-- Access to files. -/
structure FileAccess (m : Type → Type) where
  isThere : String → m Bool
  read : String → m (Except FileFault String)
  write : String → String → m (Except FileFault Unit)

/-! ### Paths -/

/-- A step of a path: into what has a name, to the folder around, or nowhere. -/
inductive PathStep where
  | here
  | up
  | name (text : String)
  deriving DecidableEq, Repr

/-- A path, taken apart. One that ends in a slash can only be that of a folder. -/
structure Path where
  fromTop : Bool
  steps : List PathStep
  endsInSlash : Bool
  deriving DecidableEq, Repr

namespace Path

def stepOf (s : String) : PathStep :=
  if s = "." then .here else if s = ".." then .up else .name s

/-- The longest path, and the longest name on it, in bytes. -/
def maxBytes : Nat := 4095

def maxNameBytes : Nat := 255

/-- Takes a path apart. Slashes in a row count once. -/
def parse (s : String) : Except FileFault Path :=
  if s.toList.contains '\x00' then .error .nulInPath
  else if s = "" then .error .missing
  else if maxBytes < s.utf8ByteSize then .error .nameTooLong
  else .ok ⟨s.toList.head? == some '/', ((s.splitOn "/").filter (· != "")).map stepOf,
    s.toList.getLast? == some '/'⟩

end Path

/-! ### A tree of files -/

/-- What is found at a place. -/
inductive FileContent where
  | text (s : String)
  | bytes
  | folder
  deriving DecidableEq, Repr

/-- A tree of files, by the names that lead to each from the top. -/
structure FileTree where
  files : List (List String × FileContent)
  deriving DecidableEq, Repr

namespace FileTree

def at? (t : FileTree) (place : List String) : Option FileContent :=
  match t.files.find? fun f => f.1 == place with
  | some f => some f.2
  | none =>
      if place.isEmpty || t.files.any fun f => place.isPrefixOf f.1 then some .folder else none

/-- What a name stands for in a folder. -/
def look (t : FileTree) (place : List String) (name : String) :
    Except FileFault (Option FileContent) :=
  if Path.maxNameBytes < name.utf8ByteSize then .error .nameTooLong
  else .ok (t.at? (place ++ [name]))

/-- Goes along steps, each of which must lead to a folder. Nothing is above the top. -/
def walk (t : FileTree) : List String → List PathStep → Except FileFault (List String)
  | place, [] => .ok place
  | place, .here :: rest => t.walk place rest
  | place, .up :: rest => t.walk place.dropLast rest
  | place, .name s :: rest => do
      match ← t.look place s with
      | some .folder => t.walk (place ++ [s]) rest
      | some _ => .error .notDirectory
      | none => .error .missing

/-- The folder that a path leads to and the name it ends with there, if its last step is one. A path
that does not start at the top starts at `base`. -/
def follow (t : FileTree) (base : List String) (p : Path) :
    Except FileFault (List String × Option String) := do
  let start := if p.fromTop then [] else base
  match p.steps.getLast? with
  | some (.name s) => return (← t.walk start p.steps.dropLast, some s)
  | _ => return (← t.walk start p.steps, none)

def read (t : FileTree) (base : List String) (path : String) : Except FileFault String := do
  let p ← Path.parse path
  match ← t.follow base p with
  | (_, none) => .error .isDirectory
  | (place, some name) =>
      match ← t.look place name with
      | none => .error .missing
      | some .folder => .error .isDirectory
      | some content =>
          if p.endsInSlash then .error .notDirectory
          else match content with
            | .text s => .ok s
            | _ => .error .notText

/-- Writes a file, which is made if there is none. -/
def write (t : FileTree) (base : List String) (path text : String) :
    Except FileFault FileTree := do
  let p ← Path.parse path
  match ← t.follow base p with
  | (_, none) => .error .isDirectory
  | (place, some name) =>
      if p.endsInSlash then .error .isDirectory
      else match ← t.look place name with
        | some .folder => .error .isDirectory
        | _ =>
            let others := t.files.filter fun f => f.1 != place ++ [name]
            .ok ⟨(place ++ [name], .text text) :: others⟩

/-- Whether a file or a folder is at a path. -/
def isThere (t : FileTree) (base : List String) (path : String) : Bool :=
  match t.read base path with
  | .ok _ | .error .isDirectory | .error .notText => true
  | .error _ => false

/-- Access to the files of a tree that is held as a state, from a folder of it. -/
def access (base : List String) : FileAccess (StateM FileTree) where
  isThere path := return (← get).isThere base path
  read path := return (← get).read base path
  write path text := do
    match (← get).write base path text with
    | .ok t => set t; return .ok ()
    | .error fault => return .error fault

end FileTree

end DnsFilter
