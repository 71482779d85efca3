import StimOverlay.Command.Host

/-! A machine held in memory. Commands run on it without any outside effect, so that what they print
and write can be computed. -/

namespace StimOverlay.Command

/-- The names on the way from the root to a file or directory. -/
abbrev Path := List String

structure Machine where
  environment : List (String × String) := []
  /-- The directory that relative paths start from. -/
  workDirectory : Path := []
  home : Option String := none
  /-- The octets of every file. Each directory on the way to a file exists. -/
  files : List (Path × List UInt8) := []
  input : List UInt8 := []
  printed : String := ""
  printedErrors : String := ""

namespace Machine

def file? (m : Machine) (p : Path) : Option (List UInt8) := m.files.lookup p

def isDirectory (m : Machine) (p : Path) : Bool :=
  p.isEmpty || p.isPrefixOf m.workDirectory ||
    m.files.any fun entry => p.isPrefixOf entry.1 && p != entry.1

/-- Follows names from a directory. What stands in front of a name has to be a directory. -/
def follow (m : Machine) (start : Path) : List String → Except FileFault Path
  | [] => .ok start
  | name :: rest =>
      if m.isDirectory start then
        if name = "" ∨ name = "." then m.follow start rest
        else if name = ".." then m.follow start.dropLast rest
        else m.follow (start ++ [name]) rest
      else if (m.file? start).isSome then .error .notInDirectory
      else .error .missing

/-- The place that a path leads to, whether there is anything or not. -/
def locate (m : Machine) (path : String) : Except FileFault Path :=
  match path.toList with
  | [] => .error .missing
  | '/' :: rest => m.follow [] ((Text.splitWhere (· == '/') rest).map String.ofList)
  | s => m.follow m.workDirectory ((Text.splitWhere (· == '/') s).map String.ofList)

def contains (m : Machine) (path : String) : Bool :=
  match m.locate path with
  | .error _ => false
  | .ok p => m.isDirectory p || (m.file? p).isSome

def read (m : Machine) (path : String) : Except FileFault (List UInt8) := do
  let p ← m.locate path
  if m.isDirectory p then .error .directory
  else match m.file? p with
    | none => .error .missing
    | some octets => .ok octets

/-- The machine with a new text in a file, unless there can be no file at the path. -/
def write? (m : Machine) (path text : String) : Option Machine :=
  match m.locate path with
  | .error _ => none
  | .ok p =>
      if m.isDirectory p then none
      else some { m with
        files := m.files.filter (·.1 != p) ++ [(p, text.toUTF8.toList)] }

/-- The machine as a host. -/
def host : Host (StateM Machine) where
  lookup name := do pure ((← get).environment.lookup name)
  home? := do pure (← get).home
  exists? path := do pure ((← get).contains path)
  read path := do pure ((← get).read path)
  write path text := do
    match (← get).write? path text with
    | none => pure false
    | some m =>
        set m
        pure true
  readInput := do pure (← get).input
  print text := modify fun m => { m with printed := m.printed ++ text }
  printError text := modify fun m => { m with printedErrors := m.printedErrors ++ text }

/-- The files that are new or differ from those of `before`. -/
def changedFiles (before after : Machine) : List (Path × List UInt8) :=
  after.files.filter fun entry => before.file? entry.1 != some entry.2

end Machine

end StimOverlay.Command
