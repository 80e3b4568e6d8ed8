import JavaStubs.Files.FileSystem

namespace JavaStubs

/-- What a finished program printed, and its exit code. -/
structure ProgramRun where
  exitCode : Nat := 0
  stdout : String := ""
  stderr : String := ""
  deriving DecidableEq, Repr

inductive CompilerFault
  | missing
  | unrecognizedVersion (output : String)
  | unreadableSource (fault : FileFault)
  | classPathEntry (entry : Path)
  deriving DecidableEq, Repr

def CompilerFault.message : CompilerFault → String
  | .missing => FileFault.notFound.message
  | .unrecognizedVersion output => "unrecognized javac version output: " ++ Text.trim output
  | .unreadableSource fault => fault.message
  | .classPathEntry _ => "path segment contains separator `:`"

/-- A compiler, known by its feature release. -/
structure Compiler where
  release : Nat
  deriving DecidableEq, Repr

structure CompileOutcome where
  success : Bool
  /-- The lines that were printed, standard output first. -/
  diagnostics : List String
  deriving DecidableEq, Repr

namespace Compiler

/-- The parts of a version number end at these characters. -/
def endsVersionPart (c : Char) : Bool := c == '.' || c == '_' || c == '-' || c == '+'

/-- The feature release that a version number names: `17.0.2` is 17, and `1.8.0` is 8. -/
def releaseOf? (number : String) : Option Nat := do
  let parts := Text.cutBy endsVersionPart (Text.trim number).toList
  let first ← (Text.readNumber 10 (← parts[0]?)).toOption
  if first = 1 then (Text.readNumber 10 (← parts[1]?)).toOption else some first

/-- Reads the feature release off the first line that states a version. -/
def parseVersion (output : String) : Option Nat :=
  ((Text.lines output).findSome? fun line => Text.afterLead? "javac " (Text.trim line)).bind
    releaseOf?

/-- The compiler that answered a question for its version; `none` means that it did not run. -/
def probe : Option ProgramRun → Except CompilerFault Compiler
  | none => .error .missing
  | some run =>
    let output := run.stdout ++ run.stderr
    match parseVersion output with
    | some release => .ok { release }
    | none => .error (.unrecognizedVersion output)

/-- The package that the first package declaration of a source names. -/
def packageOf? (source : String) : Option String :=
  (Text.lines source).findSome? fun line => do
    let rest ← Text.afterLead? "package " (Text.trim line)
    let name ← Text.beforeTail? ";" (Text.trim rest)
    return Text.trim name

/-- Goes up a number of directories, as far as there are any. -/
def ascend : Nat → Path → Path
  | 0, path => path
  | n + 1, path =>
    match Path.parent? path with
    | none => path
    | some parent => ascend n parent

/-- The directory in which the package tree of a source file stands. -/
def sourceRoot (source : Path) (package : String) : Path :=
  ascend ((Text.pieces '.' package).filter (· != "")).length ((Path.parent? source).getD ".")

/-- Entries joined by colons, which none may contain. -/
def classPath (entries : List Path) : Except CompilerFault String :=
  match entries.find? (·.toList.contains ':') with
  | some entry => .error (.classPathEntry entry)
  | none => .ok (":".intercalate entries)

def classPathArguments (entries : List Path) : Except CompilerFault (List String) :=
  if entries.isEmpty then .ok [] else return ["-cp", ← classPath entries]

/-- Sources of the platform's own packages belong to its base module, from release 9 on. -/
def moduleArguments (compiler : Compiler) (source : Path) (package : Option String) :
    List String :=
  match package with
  | some package =>
    if 9 ≤ compiler.release && Text.startsWith "java." package then
      ["--patch-module", "java.base=" ++ sourceRoot source package]
    else []
  | none => []

/-- The arguments that compile a source file into a directory of classes. -/
def arguments (compiler : Compiler) (fs : FileSystem) (classes source : Path)
    (classPathEntries : List Path) : Except CompilerFault (List String) := do
  let text ← (fs.readText source).mapError .unreadableSource
  let path ← classPathArguments classPathEntries
  return ["-d", classes] ++ path ++ compiler.moduleArguments source (packageOf? text) ++ [source]

end Compiler

def CompileOutcome.ofRun (run : ProgramRun) : CompileOutcome where
  success := run.exitCode == 0
  diagnostics := Text.lines run.stdout ++ Text.lines run.stderr

end JavaStubs
