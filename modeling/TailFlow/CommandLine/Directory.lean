import TailFlow.CommandLine.Commands
import TailFlow.CommandLine.PathFault

/-!
# Running commands in a directory held in memory

A host for the commands whose files are a list. With it the command line is a function of its words
and of the files it finds, and what it prints and leaves behind can be reasoned about.

A path is followed name by name and goes on only from a folder. The folders are the working
directory and those above it, the root, the temporary folder, and whatever a file stands in.
-/

namespace TailFlow.CommandLine

/-- The folder that a way starts in. -/
inductive Origin where
  /-- The folder so many levels above the working directory. -/
  | above (levels : Nat)
  | root
  deriving DecidableEq, Repr

def Origin.parent : Origin → Origin
  | .above levels => .above (levels + 1)
  | .root => .root

/-- Where a path leads: the names on the way down from a folder. -/
structure Location where
  origin : Origin
  names : List String
  deriving DecidableEq, Repr

namespace Location

def parent (location : Location) : Location :=
  if location.names.isEmpty then ⟨location.origin.parent, []⟩
  else ⟨location.origin, location.names.dropLast⟩

def child (location : Location) (name : String) : Location :=
  ⟨location.origin, location.names ++ [name]⟩

def isUnder (location folder : Location) : Bool :=
  location.origin = folder.origin && folder.names.isPrefixOf location.names
    && folder.names.length < location.names.length

@[simp] theorem parent_child (location : Location) (name : String) :
    (location.child name).parent = location := by
  simp [parent, child]

end Location

/-- The names on a path. Slashes that follow each other count as one. -/
def pathNames (path : String) : List String := (path.splitOn "/").filter (· != "")

/-- Where a path starts. -/
def pathStart (path : String) : Location :=
  if path.startsWith "/" then ⟨.root, []⟩ else ⟨.above 0, []⟩

/-- The greatest number of bytes in a name. -/
def longestName : Nat := 255

/-- The greatest number of bytes in a path. -/
def longestPath : Nat := 4095

/-- The file that takes everything and holds nothing. -/
def nullDevice : Location := ⟨.root, ["dev", "null"]⟩

def temporaryFolder : Location := ⟨.root, ["tmp"]⟩

/-- The files of a directory and around it, and what has been printed. -/
structure Directory where
  files : List (Location × String)
  printed : String
  deriving DecidableEq, Repr

namespace Directory

def ofFiles (files : List (String × String)) : Directory where
  files := (nullDevice, "") :: files.map fun (path, contents) =>
    (⟨.above 0, (pathNames path).filter (· != ".")⟩, contents)
  printed := ""

def contents? (directory : Directory) (location : Location) : Option String :=
  directory.files.lookup location

def isFolder (directory : Directory) (location : Location) : Bool :=
  location.names.isEmpty || location = temporaryFolder
    || directory.files.any fun file => file.1.isUnder location

def step (directory : Directory) (location : Location) (name : String) :
    Except PathFault Location :=
  if !directory.isFolder location then
    .error (if (directory.contents? location).isSome then .notDirectory else .missing)
  else if name = "." then .ok location
  else if name = ".." then .ok location.parent
  else if longestName < name.utf8ByteSize then .error .nameTooLong
  else .ok (location.child name)

def follow (directory : Directory) (path : String) (names : List String) :
    Except PathFault Location :=
  if longestPath < path.utf8ByteSize then .error .nameTooLong
  else names.foldlM directory.step (pathStart path)

/-- Reads the file that a path names. A slash at the end of the path asks for the folder of that
name. -/
def read (directory : Directory) (path : String) : Except PathFault String := do
  let names := pathNames path
  let location ← directory.follow path (if path.endsWith "/" then names ++ ["."] else names)
  if directory.isFolder location then .error .directory
  else match directory.contents? location with
    | some contents => return contents
    | none => .error .missing

/-- Puts contents into the file at a location, which is made if there is none. -/
def put (directory : Directory) (location : Location) (contents : String) : Directory :=
  if location = nullDevice then directory
  else if (directory.contents? location).isSome then
    { directory with files := directory.files.map fun file =>
      if file.1 = location then (location, contents) else file }
  else { directory with files := directory.files ++ [(location, contents)] }

/-- The directory after contents are written to a path. A slash at the end of the path leaves no
name for a file, only the folder in front of it. -/
def write (directory : Directory) (path contents : String) : Except PathFault Directory := do
  let names := pathNames path
  let location ← directory.follow path
    (if path.endsWith "/" then names.dropLast ++ ["."] else names)
  if directory.isFolder location then .error .directory
  else return directory.put location contents

/-- The host that works on a directory, at the time zero. -/
def host : Host (StateM Directory) where
  readFile path := return ((← get).read path).mapError PathFault.message
  writeFile path contents := do
    match (← get).write path contents with
    | .ok directory =>
      set directory
      return .ok ()
    | .error fault => return .error fault.message
  print text := modify fun directory => { directory with printed := directory.printed ++ text }
  clock := return 0

end Directory

def executeIn (files : List (String × String)) (words : List String) : Ending × Directory :=
  (execute Directory.host words).run (.ofFiles files)

end TailFlow.CommandLine
