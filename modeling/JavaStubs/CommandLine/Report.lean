import JavaStubs.CommandLine.Request

namespace JavaStubs.CommandLine

/-- What a finished run leaves: an exit code and the two output streams. -/
structure Report where
  exitCode : Nat := 0
  stdout : String := ""
  stderr : String := ""
  deriving DecidableEq, Repr

def Report.afterLine (line : String) (report : Report) : Report :=
  { report with stdout := line ++ report.stdout }

/-- One line for each generated class. -/
def successLine (stub : Stub) : String := stub.name.text ++ " " ++ stub.path ++ "\n"

/-- One line that names the type, the error and all its causes. -/
def failureLine (name : String) (error : GenerationError) : String :=
  "implgen: generating an implementation of " ++ name ++ ": "
    ++ ": ".intercalate error.chain ++ "\n"

/-- Generates the named types in order, until one fails. -/
def generateAll (g : Generator) (fs : FileSystem) (resolver : Resolver) :
    List String → Report × FileSystem
  | [] => ({}, fs)
  | name :: names =>
    match g.generate fs resolver name with
    | (.error error, _, fs) => ({ exitCode := 1, stderr := failureLine name error }, fs)
    | (.ok stub, resolver, fs) =>
      let (report, fs) := generateAll g fs resolver names
      (report.afterLine (successLine stub), fs)

def Request.resolver (request : Request) : Resolver :=
  match request.source with
  | none => .ofStandardLibrary
  | some root => .ofDirectory root

def Request.run (request : Request) (fs : FileSystem) : Report × FileSystem :=
  generateAll request.generator fs request.resolver request.names

def usage : String :=
  "usage: implgen [-o DIR] [--suffix TEXT] [-v] (stdlib | dir -s DIR) NAME...\n"

def Halt.report : Halt → Report
  | .version => { stdout := "implgen " ++ JavaStubs.version ++ "\n" }
  | .misuse => { exitCode := 2, stderr := usage }

/-- The effect of a command line on a file system. -/
def run (env : Environment) (words : List String) (fs : FileSystem) : Report × FileSystem :=
  match Request.ofWords env words with
  | .error halt => (halt.report, fs)
  | .ok request => request.run fs

end JavaStubs.CommandLine
