import JavaStubs.Obligation.Collect
import JavaStubs.Resolver.Basic
import JavaStubs.Stub.Emission

namespace JavaStubs

inductive GenerationError
  | resolution (error : ResolveError)
  | obligation (error : ObligationError)
  | emission (fault : EmissionFault)
  | write (fault : WriteFault)
  deriving DecidableEq, Repr

namespace GenerationError

def message : GenerationError → String
  | .resolution (.notFound name) => (ResolveError.notFound name).message
  | .resolution error => "resolution error: " ++ error.message
  | .obligation error => error.message
  | .emission fault => "emission error: " ++ fault.message
  | .write fault => "failed to write '" ++ fault.path ++ "': " ++ fault.fault.message

/-- The error and its causes, from the outermost inwards. -/
def chain (error : GenerationError) : List String :=
  error.message :: match error with
    | .resolution (.notFound _) => []
    | .resolution error => error.chain
    | .write fault => [fault.fault.message]
    | _ => []

end GenerationError

/-- The version of the generator. -/
def version : String := "0.3.0"

structure Generator where
  /-- The directory below which generated files go. -/
  output : Path := "."
  naming : Naming := {}
  deriving DecidableEq, Repr

namespace Generator

/-- The name of a type to implement. Primitives, arrays and texts that are no names have none. -/
def targetName (text : String) : Except Refusal QualName :=
  if text = "void" || (Primitive.ofName? text).isSome then .error ⟨text, .primitive⟩
  else if Text.endsWith "[]" text then .error ⟨text, .array⟩
  else match QualName.parse text with
    | .error _ => .error ⟨text, .notTypeName⟩
    | .ok name => .ok name

/-- The class for a linked type. -/
def renderModel (g : Generator) (lookup : QualName → Option TypeModel) (root : TypeModel) :
    Inquiry (Except GenerationError Stub) := do
  match ← obligations lookup root with
  | .error error => return .error (.obligation error)
  | .ok owed =>
    return (Stub.emit g.naming g.output root owed (owed.map Obligation.body)).mapError .emission

/-- The class for a named type, and the resolver after all that was looked up. -/
def render (g : Generator) (fs : FileSystem) (resolver : Resolver) (text : String) :
    Except GenerationError Stub × Resolver :=
  match targetName text with
  | .error refusal => (.error (.obligation (.refused refusal)), resolver)
  | .ok name =>
    match resolver.resolve fs name with
    | (.error error, resolver) => (.error (.resolution error), resolver)
    | (.ok root, resolver) => resolver.settle fs (g.renderModel (resolver.lookup fs) root)

/-- Renders the class for a named type and writes it to its file. -/
def generate (g : Generator) (fs : FileSystem) (resolver : Resolver) (text : String) :
    Except GenerationError Stub × Resolver × FileSystem :=
  match g.render fs resolver text with
  | (.error error, resolver) => (.error error, resolver, fs)
  | (.ok stub, resolver) =>
    match stub.write fs with
    | (.error fault, fs) => (.error (.write fault), resolver, fs)
    | (.ok _, fs) => (.ok stub, resolver, fs)

end Generator

end JavaStubs
