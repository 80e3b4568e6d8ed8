import JavaStubs.Text.Cut

namespace JavaStubs

/-- A path starts at the root, at an explicit `.`, or plainly. The rest are pieces between slashes,
of which empty ones and `.` mean nothing. -/
abbrev Path := String

namespace Path

def isAbsolute (path : Path) : Bool := path.toList.head? == some '/'

/-- Appends a path; an absolute one replaces what was there. -/
def join (path next : Path) : Path :=
  if isAbsolute next then next
  else if path = "" || path.toList.getLast? == some '/' then path ++ next
  else path ++ "/" ++ next

/-- The way a path starts, and the text behind it. -/
def splitStart (path : Path) : String × String :=
  match path.toList with
  | '/' :: rest => ("/", String.ofList rest)
  | ['.'] => (".", "")
  | '.' :: '/' :: rest => (".", String.ofList ('/' :: rest))
  | _ => ("", path)

def isIdle (piece : String) : Bool := piece = "" || piece = "."

/-- Drops pieces from the end that mean nothing. -/
def dropIdle (pieces : List String) : List String :=
  (pieces.reverse.dropWhile isIdle).reverse

/-- Drops what only slashes at the end leave. -/
def dropSlashes (pieces : List String) : List String :=
  (pieces.reverse.dropWhile (· = "")).reverse

/-- The path without its last component; a path without components has no parent. -/
def parent? (path : Path) : Option Path :=
  let (start, rest) := splitStart path
  match dropIdle (Text.pieces '/' rest) with
  | [] => if start = "." then some "" else none
  | pieces => some (start ++ "/".intercalate (dropIdle pieces.dropLast))

/-- A path and the paths above it, up to a number of them, without the empty path and the root. -/
def upward : Nat → Path → List Path
  | 0, _ => []
  | limit + 1, path =>
    match parent? path with
    | none => []
    | some parent => path :: upward limit parent

/-- A path and all paths above it. Each is shorter than the one before it, so its length is enough
of a limit. -/
def lineage (path : Path) : List Path := upward path.length path

/-- The path of a named file in a package below a root. -/
def inPackage (root : Path) (segments : List String) (file : String) : Path :=
  join (segments.foldl join root) file

end Path

end JavaStubs
