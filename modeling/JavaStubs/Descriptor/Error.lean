import JavaStubs.Markup.Event
import JavaStubs.Markup.Reference
import JavaStubs.Ty.Expression

namespace JavaStubs

/-- Faults in how the elements of a document stand together. -/
inductive LayoutFault
  | noTypes
  | severalTypes
  | notOneType (found : Nat)
  | endInside (element : String)
  | interfaceImplements (name : QualName)
  | severalSuperclasses (name : QualName)
  | defaultOutsideInterface (method : String)
  deriving DecidableEq, Repr

def LayoutFault.message : LayoutFault → String
  | .noTypes => "no interface or class element found"
  | .severalTypes => "several type declarations must be wrapped in <types>"
  | .notOneType found => "expected one type declaration, found " ++ toString found
  | .endInside element => "unexpected end of document inside <" ++ element ++ ">"
  | .interfaceImplements name =>
    "interface '" ++ name.text ++ "' cannot use <implements>; use <extends>"
  | .severalSuperclasses name => "class '" ++ name.text ++ "' extends more than one class"
  | .defaultOutsideInterface method =>
    "default method '" ++ method ++ "' declared outside an interface"

inductive DescriptorError
  | markup (fault : Markup.MarkupFault)
  | reference (fault : Markup.ReferenceFault)
  | missingAttribute (element key : String)
  | invalidAttribute (element key value : String)
  | unknownElement (element context : String)
  | typeExpression (element : String) (error : ExpressionError)
  | duplicate (what name : String)
  | layout (fault : LayoutFault)
  deriving DecidableEq, Repr

namespace DescriptorError

def message : DescriptorError → String
  | .markup fault => "XML parsing error: " ++ fault.message
  | .reference fault => "XML escape error: " ++ fault.message
  | .missingAttribute element key =>
    "missing required attribute '" ++ key ++ "' on element '" ++ element ++ "'"
  | .invalidAttribute element key value =>
    "invalid value '" ++ value ++ "' for attribute '" ++ key ++ "' on element '" ++ element ++ "'"
  | .unknownElement element context =>
    "unknown element '" ++ element ++ "' in context '" ++ context ++ "'"
  | .typeExpression element error =>
    "invalid type on element '" ++ element ++ "': " ++ error.message
  | .duplicate what name => "duplicate " ++ what ++ " definition: '" ++ name ++ "'"
  | .layout fault => "invalid descriptor structure: " ++ fault.message

/-- The error and its causes, from the outermost inwards. -/
def chain (error : DescriptorError) : List String :=
  error.message :: match error with
    | .markup fault => fault.chain
    | .reference fault => fault.chain
    | .typeExpression _ error => [error.message]
    | _ => []

end DescriptorError

end JavaStubs
