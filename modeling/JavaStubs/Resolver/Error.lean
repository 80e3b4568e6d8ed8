import JavaStubs.Descriptor.Error
import JavaStubs.Descriptor.Validity
import JavaStubs.Files.FileSystem

namespace JavaStubs

/-- A rule about supertypes that a declaration breaks. -/
inductive HierarchyFault
  | extendsInterface (name : QualName)
  | extendsFinal (name : QualName)
  | notInterface (name : QualName) (kind : Kind)
  | argumentCount (name : QualName) (expected found : Nat)
  | invalidArguments (reference : ClassRef)
  deriving DecidableEq, Repr

def HierarchyFault.message : HierarchyFault → String
  | .extendsInterface name => "cannot extend interface '" ++ name.text ++ "'"
  | .extendsFinal name => "cannot extend final class '" ++ name.text ++ "'"
  | .notInterface name kind =>
    "'" ++ name.text ++ "' is a " ++ kind.describe ++ ", not an interface"
  | .argumentCount name expected found =>
    "'" ++ name.text ++ "' takes " ++ toString expected ++ " type arguments, found "
      ++ toString found
  | .invalidArguments reference =>
    "invalid type arguments in supertype '" ++ reference.render ++ "'"

inductive ResolveError
  | notFound (name : QualName)
  | invalidName (name : String)
  | descriptor (name : String) (error : DescriptorError)
  | validity (error : ValidityError)
  | unreadable (path : Path) (fault : FileFault)
  | circular (path : List QualName)
  | hierarchy (name : QualName) (fault : HierarchyFault)
  | nameMismatch (expected found : QualName)
  deriving DecidableEq, Repr

namespace ResolveError

def message : ResolveError → String
  | .notFound name => "type '" ++ name.text ++ "' not found"
  | .invalidName name => "invalid type name '" ++ name ++ "'"
  | .descriptor name error => "failed to parse descriptor of '" ++ name ++ "': " ++ error.message
  | .validity error => error.message
  | .unreadable path fault => "failed to read '" ++ path ++ "': " ++ fault.message
  | .circular path =>
    "circular type reference detected: " ++ " -> ".intercalate (path.map QualName.text)
  | .hierarchy name fault => "invalid hierarchy for '" ++ name.text ++ "': " ++ fault.message
  | .nameMismatch expected found =>
    "descriptor declares '" ++ found.text ++ "' but was found at the location of '"
      ++ expected.text ++ "'"

/-- The error and its causes, from the outermost inwards. -/
def chain (error : ResolveError) : List String :=
  error.message :: match error with
    | .descriptor _ error => error.chain
    | .unreadable _ fault => [fault.message]
    | _ => []

end ResolveError

end JavaStubs
