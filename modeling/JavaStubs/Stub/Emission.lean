import JavaStubs.Files.FileSystem
import JavaStubs.Stub.Naming
import JavaStubs.Stub.Source

namespace JavaStubs

/-- Why no class is emitted. -/
inductive EmissionFault
  | bodyCount (obligations bodies : Nat)
  | invalidIdentifier (name : String)
  | misplacedBody (body : Body) (position : Nat)
  | variableArity (type : Ty)
  | misfitResult (body : Body) (result : Ty) (method : String)
  deriving DecidableEq, Repr

def EmissionFault.message : EmissionFault → String
  | .bodyCount obligations bodies =>
    toString obligations ++ " obligations but " ++ toString bodies ++ " bodies"
  | .invalidIdentifier name => "'" ++ name ++ "' is not a valid Java identifier"
  | .misplacedBody body position =>
    "body " ++ body.describe ++ " does not fit obligation #" ++ toString position
  | .variableArity type =>
    "variable-arity parameter of type " ++ type.render ++ " is not an array"
  | .misfitResult body result method =>
    "body " ++ body.describe ++ " does not fit return type " ++ result.render ++ " of '"
      ++ method ++ "'"

/-- A generated class: its name, the file it belongs into and its source. -/
structure Stub where
  name : QualName
  path : Path
  source : String
  deriving DecidableEq, Repr

namespace Stub

def checkIdentifier (name : String) : Except EmissionFault Unit :=
  if isIdentifier name then .ok () else .error (.invalidIdentifier name)

def checkTypeParameters (parameters : List TypeParameter) : Except EmissionFault Unit :=
  parameters.forM fun parameter => checkIdentifier parameter.name

/-- The last parameter of variable arity has to be an array. -/
def checkVariableArity (types : List Ty) (varargs : Bool) : Except EmissionFault Unit :=
  match varargs, types.getLast? with
  | true, some (.array _) => .ok ()
  | true, some type => .error (.variableArity type)
  | _, _ => .ok ()

/-- A method without result has an empty body, any other returns a value. -/
def fitsResult (body : Body) (result : Ty) : Bool :=
  match body with
  | .empty => result == .void
  | .result _ => result != .void
  | .forward _ => false

def checkMethod (o : MethodObligation) (body : Body) : Except EmissionFault Unit := do
  checkIdentifier o.method.name
  checkTypeParameters o.method.typeParameters
  checkVariableArity o.method.parameters o.method.varargs
  if fitsResult body o.result then .ok ()
  else .error (.misfitResult body o.result o.method.name)

/-- Constructors forward all their arguments, methods do not forward. -/
def belongs : Obligation → Body → Bool
  | .constructor c, .forward arity => arity == c.arity
  | .method _, .empty | .method _, .result _ => true
  | _, _ => false

def checkMember (member : (Obligation × Body) × Nat) : Except EmissionFault Unit :=
  let ((obligation, body), position) := member
  if belongs obligation body then
    match obligation with
    | .constructor c => checkVariableArity c.parameters c.varargs
    | .method o => checkMethod o body
  else .error (.misplacedBody body position)

/-- The class below `root` that meets `obligations` with `bodies`, in the same order. -/
def emit (naming : Naming) (output : Path) (root : TypeModel) (obligations : List Obligation)
    (bodies : List Body) : Except EmissionFault Stub := do
  if obligations.length ≠ bodies.length then
    throw (.bodyCount obligations.length bodies.length)
  let name := naming.generatedName root.name
  let members := obligations.zip bodies
  checkIdentifier name.simple
  checkTypeParameters root.typeParameters
  members.zipIdx.forM checkMember
  return {
    name
    path := naming.targetPath output name
    source := sourceText name root members }

/-- Puts the source into its file. -/
def write (stub : Stub) (fs : FileSystem) : Except WriteFault Unit × FileSystem :=
  fs.replaceText stub.path stub.source

end Stub

end JavaStubs
