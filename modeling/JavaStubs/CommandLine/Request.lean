import JavaStubs.Generator

namespace JavaStubs.CommandLine

inductive Command
  | stdlib | dir
  deriving DecidableEq, Repr

def Command.ofWord? : String → Option Command
  | "stdlib" => some .stdlib
  | "dir" => some .dir
  | _ => none

inductive Switch
  | output | suffix | source | verbose | version
  deriving DecidableEq, Repr

namespace Switch

def ofLong? : String → Option Switch
  | "output" => some .output
  | "suffix" => some .suffix
  | "source" => some .source
  | "verbose" => some .verbose
  | "version" => some .version
  | _ => none

def ofShort? : Char → Option Switch
  | 'o' => some .output
  | 's' => some .source
  | 'v' => some .verbose
  | 'V' => some .version
  | _ => none

/-- Where a switch may stand: the source only behind `dir`, the version only before a command. -/
def allowedAt (command : Option Command) : Switch → Bool
  | .source => command == some .dir
  | .version => command.isNone
  | _ => true

end Switch

/-- Why no request comes of a line. -/
inductive Halt
  | version
  | misuse
  deriving DecidableEq, Repr

/-- The options on one side of the command. -/
structure Options where
  output : Option Path := none
  suffix : Option String := none
  source : Option Path := none
  deriving DecidableEq, Repr

/-- A path option must not be empty, and no option is given twice. -/
def Options.assign (options : Options) (switch : Switch) (value : String) :
    Except Halt Options :=
  match switch with
  | .output =>
    if value = "" || options.output.isSome then .error .misuse
    else .ok { options with output := some value }
  | .source =>
    if value = "" || options.source.isSome then .error .misuse
    else .ok { options with source := some value }
  | .suffix =>
    if options.suffix.isSome then .error .misuse else .ok { options with suffix := some value }
  | .verbose | .version => .error .misuse

/-- How far a line has been read. -/
structure Reading where
  command : Option Command := none
  /-- Options before the command. -/
  before : Options := {}
  /-- Options after it. -/
  after : Options := {}
  names : List String := []
  /-- The option whose value comes next. -/
  waiting : Option Switch := none
  /-- All further words are names. -/
  plain : Bool := false
  deriving DecidableEq, Repr

namespace Reading

def assign (r : Reading) (switch : Switch) (value : String) : Except Halt Reading :=
  if r.command.isNone then return { r with before := ← r.before.assign switch value }
  else return { r with after := ← r.after.assign switch value }

/-- A switch that is known and may stand here. -/
def allow (r : Reading) (switch : Option Switch) : Except Halt Switch :=
  match switch.filter (Switch.allowedAt r.command) with
  | some switch => .ok switch
  | none => .error .misuse

/-- Takes a switch with the value attached to it, if there is one. -/
def takeLong (r : Reading) (switch : Switch) (value : Option String) : Except Halt Reading :=
  match switch, value with
  | .version, none => .error .version
  | .verbose, none => .ok r
  | _, some value => r.assign switch value
  | _, none => .ok { r with waiting := some switch }

/-- A word that starts with two dashes, without them. -/
def long (r : Reading) (text : List Char) : Except Halt Reading := do
  let name := String.ofList (text.takeWhile (· != '='))
  let value := match text.dropWhile (· != '=') with
    | [] => none
    | _ :: value => some (String.ofList value)
  r.takeLong (← r.allow (Switch.ofLong? name)) value

/-- An equals sign may stand between a short switch and its value. -/
def attached : List Char → String
  | '=' :: value => String.ofList value
  | value => String.ofList value

/-- Short switches in a row; the first that takes a value takes all the rest. -/
def cluster (r : Reading) : List Char → Except Halt Reading
  | [] => .ok r
  | c :: rest => do
    match ← r.allow (Switch.ofShort? c) with
    | .version => .error .version
    | .verbose => r.cluster rest
    | switch =>
      if rest.isEmpty then .ok { r with waiting := some switch }
      else r.assign switch (attached rest)

/-- A word that is no option: the command, and after it the names. -/
def bare (r : Reading) (word : String) : Except Halt Reading :=
  match r.command with
  | some _ => .ok { r with names := r.names ++ [word] }
  | none =>
    match Command.ofWord? word with
    | some command => .ok { r with command := some command }
    | none => .error .misuse

/-- Two dashes end the options, once there is a command. -/
def endOptions (r : Reading) : Except Halt Reading :=
  if r.command.isSome then .ok { r with plain := true } else .error .misuse

/-- A word in the place of an awaited value must not look like an option. -/
def awaited (r : Reading) (switch : Switch) (word : String) : Except Halt Reading :=
  if Text.startsWith "-" word && word != "-" then .error .misuse
  else { r with waiting := none }.assign switch word

def word (r : Reading) (word : String) : Except Halt Reading :=
  if r.plain then r.bare word
  else match r.waiting with
    | some switch => r.awaited switch word
    | none =>
      match word.toList with
      | ['-', '-'] => r.endOptions
      | '-' :: '-' :: text => r.long text
      | '-' :: c :: text => r.cluster (c :: text)
      | _ => r.bare word

end Reading

/-- The variables of the environment that matter. -/
structure Environment where
  output : Option Path := none
  source : Option Path := none
  deriving DecidableEq, Repr

/-- What to generate, from where. -/
structure Request where
  /-- The descriptor directory; without one, the standard library alone is used. -/
  source : Option Path
  generator : Generator
  names : List String
  deriving DecidableEq, Repr

/-- A path variable counts if its option is absent, and then it must not be empty. -/
def fallback (option given : Option Path) : Except Halt (Option Path) :=
  match option, given with
  | none, some "" => .error .misuse
  | none, found => .ok found
  | some path, _ => .ok (some path)

/-- Where output goes. Each side of the command consults the environment for itself. -/
def outputOf (env : Environment) (r : Reading) : Except Halt Path := do
  let before ← fallback r.before.output env.output
  let _ ← fallback r.after.output env.output
  return (r.after.output <|> before).getD "."

/-- The request that a fully read line makes. -/
def Reading.finish (env : Environment) (r : Reading) : Except Halt Request := do
  let command ← match r.command with
    | some command => pure command
    | none => throw .misuse
  if r.waiting.isSome || r.names.isEmpty then throw .misuse
  let source ← match command with
    | .stdlib => pure none
    | .dir =>
      match ← fallback r.after.source env.source with
      | some source => pure (some source)
      | none => throw .misuse
  let output ← outputOf env r
  let suffix := (r.after.suffix <|> r.before.suffix).getD ({} : Naming).suffix
  return { source, names := r.names, generator := { output, naming := { suffix } } }

/-- Reads a whole line, word by word. -/
def Request.ofWords (env : Environment) (words : List String) : Except Halt Request := do
  let r ← words.foldlM Reading.word {}
  r.finish env

end JavaStubs.CommandLine
