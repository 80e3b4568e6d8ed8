import JavaStubs.Files.Path

namespace JavaStubs

inductive FileNode
  | directory
  | file (content : ByteArray)

namespace FileNode

/-- Files are compared by their bytes. -/
def same : FileNode → FileNode → Bool
  | .directory, .directory => true
  | .file content, .file content' => content.data == content'.data
  | _, _ => false

theorem same_iff (a b : FileNode) : same a b = true ↔ a = b := by
  cases a <;> cases b <;> simp [same, ByteArray.ext_iff]

instance : DecidableEq FileNode := fun a b => decidable_of_iff _ (same_iff a b)

/-- The bytes of a file. -/
def size : FileNode → Nat
  | .directory => 0
  | .file content => content.size

end FileNode

/-- A place is the list of names from the root downwards. -/
abbrev Place := List String

/-- The absolute path of a place. -/
def Place.path (place : Place) : Path := "/" ++ "/".intercalate place

/-- Directories and files at absolute places, and a working directory for relative paths. -/
structure FileSystem where
  workDir : Place := []
  nodes : List (Place × FileNode) := []
  /-- The most bytes that all files have together, if there is a bound. -/
  capacity : Option Nat := none

inductive FileFault
  | notFound
  | busy
  | alreadyExists
  | notDirectory
  | isDirectory
  | noSpace
  | nameTooLong
  | nullCharacter
  | notText
  deriving DecidableEq, Repr

def FileFault.message : FileFault → String
  | .notFound => "No such file or directory (os error 2)"
  | .busy => "Device or resource busy (os error 16)"
  | .alreadyExists => "File exists (os error 17)"
  | .notDirectory => "Not a directory (os error 20)"
  | .isDirectory => "Is a directory (os error 21)"
  | .noSpace => "No space left on device (os error 28)"
  | .nameTooLong => "File name too long (os error 36)"
  | .nullCharacter => "file name contained an unexpected NUL byte"
  | .notText => "stream did not contain valid UTF-8"

/-- A write that failed, and the path it failed at. -/
structure WriteFault where
  path : Path
  fault : FileFault
  deriving DecidableEq, Repr

namespace FileSystem

/-- What is at a place; the root is always a directory. -/
def node? (fs : FileSystem) (place : Place) : Option FileNode :=
  if place = [] then some .directory else fs.nodes.lookup place

def put (fs : FileSystem) (place : Place) (node : FileNode) : FileSystem :=
  { fs with nodes := (place, node) :: fs.nodes.filter (·.1 != place) }

def isDirectory (fs : FileSystem) (place : Place) : Bool :=
  match fs.node? place with
  | some .directory => true
  | _ => false

/-- The most bytes that the name of a file or directory has. -/
def nameLimit : Nat := 255

/-- Paths have fewer bytes than this. -/
def pathLimit : Nat := 4096

/-- Where a piece of a path leads from a directory. -/
def advance (place : Place) (piece : String) : Place :=
  if Path.isIdle piece then place
  else if piece = ".." then place.dropLast
  else place ++ [piece]

def start (fs : FileSystem) (path : Path) : Place :=
  if Path.isAbsolute path then [] else fs.workDir

/-- What is wrong with a path wherever it leads. -/
def checkPath (path : Path) : Except FileFault Unit :=
  if path.toList.contains '\x00' then .error .nullCharacter
  else if pathLimit ≤ path.utf8ByteSize then .error .nameTooLong
  else if path = "" then .error .notFound
  else .ok ()

/-- The place that one piece of a path leads to: it starts from a directory, and something has to
be there. -/
def visit (fs : FileSystem) (place : Place) (piece : String) : Except FileFault Place :=
  if !fs.isDirectory place then .error .notDirectory
  else if nameLimit < piece.utf8ByteSize then .error .nameTooLong
  else if (fs.node? (advance place piece)).isNone then .error .notFound
  else .ok (advance place piece)

/-- The place of what a path denotes. A slash at the end asks for a directory. -/
def locate (fs : FileSystem) (path : Path) : Except FileFault Place := do
  checkPath path
  (Text.pieces '/' path).foldlM fs.visit (fs.start path)

/-- The place for something that a path names, whether or not it is there; only the way to it has
to exist. A path that ends in the root, `.` or `..` names nothing, which is the fault `unnamed`. -/
def entry (fs : FileSystem) (path : Path) (unnamed : FileFault) : Except FileFault Place := do
  checkPath path
  let pieces := Path.dropSlashes (Text.pieces '/' path)
  let place ← pieces.dropLast.foldlM fs.visit (fs.start path)
  let name := pieces.getLast?.getD ""
  if !fs.isDirectory place then throw .notDirectory
  if Path.isIdle name || name = ".." then throw unnamed
  if nameLimit < name.utf8ByteSize then throw .nameTooLong
  return place ++ [name]

def nodeAt? (fs : FileSystem) (path : Path) : Option FileNode :=
  (fs.locate path).toOption.bind fs.node?

/-- The text of a file. -/
def readText (fs : FileSystem) (path : Path) : Except FileFault String := do
  match fs.node? (← fs.locate path) with
  | none => throw .notFound
  | some .directory => throw .isDirectory
  | some (.file content) =>
    match String.fromUTF8? content with
    | some text => return text
    | none => throw .notText

def isFile (fs : FileSystem) (path : Path) : Bool :=
  match fs.nodeAt? path with
  | some (.file _) => true
  | _ => false

/-- Makes one directory, in a directory that is there. -/
def makeDirectory (fs : FileSystem) (path : Path) : Except FileFault FileSystem := do
  let place ← fs.entry path .alreadyExists
  if (fs.node? place).isSome then throw .alreadyExists
  return fs.put place .directory

/-- A directory that could not be made does no harm if it is there. -/
def unlessThere (fs : FileSystem) (path : Path) (fault : FileFault) : Except FileFault Unit :=
  if fs.nodeAt? path = some .directory then .ok () else .error fault

/-- Makes the first of several directories, each of which lies in the next. -/
def makeNested (fs : FileSystem) : List Path → Except FileFault Unit × FileSystem
  | [] => (.ok (), fs)
  | path :: above =>
    match fs.makeDirectory path with
    | .ok fs => (.ok (), fs)
    | .error .notFound =>
      match fs.makeNested above with
      | (.error fault, fs) => (.error fault, fs)
      | (.ok _, fs) =>
        match fs.makeDirectory path with
        | .ok fs => (.ok (), fs)
        | .error fault => (fs.unlessThere path fault, fs)
    | .error fault => (fs.unlessThere path fault, fs)

/-- Makes a directory, and before it those above that are missing. -/
def makeDirectories (fs : FileSystem) (path : Path) : Except FileFault Unit × FileSystem :=
  fs.makeNested (Path.lineage path)

/-- The bytes of all files. -/
def used (fs : FileSystem) : Nat :=
  fs.nodes.foldr (fun entry total => entry.2.size + total) 0

/-- Fills the file that is prepared. Until it is moved it lies beside all others, also beside the one
whose place it will take. -/
def fill (fs : FileSystem) (content : ByteArray) : Except FileFault Unit :=
  if fs.capacity.any (· < fs.used + content.size) then .error .noSpace else .ok ()

/-- Puts a finished file where the path says, over a file that may be there already. -/
def moveInto (fs : FileSystem) (path : Path) (content : ByteArray) :
    Except FileFault FileSystem := do
  let place ← fs.entry path .busy
  if path.toList.getLast? = some '/' then throw .notDirectory
  if fs.isDirectory place then throw .isDirectory
  return fs.put place (.file content)

/-- The directory in which a file is prepared before it is moved into place. -/
def stagingDirectory (path : Path) : Path :=
  match Path.parent? path with
  | none | some "" => "."
  | some parent => parent

/-- A prepared file has a passing name, and its path is counted from the root. -/
def stagingPath (fs : FileSystem) (directory : Path) : Path :=
  Path.join (Path.join fs.workDir.path directory) ".tmpXXXXXX"

/-- Writes a file as a whole: it is prepared beside its target and then moved, so it is either
there completely or not at all. -/
def replaceText (fs : FileSystem) (path : Path) (text : String) :
    Except WriteFault Unit × FileSystem :=
  let parent := stagingDirectory path
  match fs.makeDirectories parent with
  | (.error fault, fs) => (.error ⟨parent, fault⟩, fs)
  | (.ok _, fs) =>
    match checkPath (fs.stagingPath parent) with
    | .error fault => (.error ⟨parent, fault⟩, fs)
    | .ok _ =>
      match fs.fill text.toUTF8 with
      | .error fault => (.error ⟨path, fault⟩, fs)
      | .ok _ =>
        match fs.moveInto path text.toUTF8 with
        | .error fault => (.error ⟨path, fault⟩, fs)
        | .ok fs => (.ok (), fs)

end FileSystem

end JavaStubs
