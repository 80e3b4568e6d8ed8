import JavaStubs.Descriptor.Basic
import JavaStubs.Descriptor.Declaration

namespace JavaStubs

open Markup (Element Document)

namespace Descriptor

/-- A type expression found on an element. -/
def onElement {α : Type} (element : String) (read : Except ExpressionError α) :
    Except DescriptorError α :=
  read.mapError (.typeExpression element)

/-- Type parameters in order, each under a new name. -/
def readTypeParameters (scope : TypeScope) :
    List String → List ParameterText → Except DescriptorError (List TypeParameter)
  | _, [] => .ok []
  | seen, text :: rest => do
    if seen.contains text.name then throw (.duplicate "type parameter" text.name)
    let bounds ← match text.bounds with
      | some bounds => onElement "typeParameter" (Ty.parseBounds scope bounds)
      | none => pure []
    return ⟨text.name, bounds⟩ :: (← readTypeParameters scope (text.name :: seen) rest)

/-- Parameter types in order; only the last may have variable arity. -/
def readParameters (scope : TypeScope) : List String → Except DescriptorError (List Ty × Bool)
  | [] => .ok ([], false)
  | text :: rest => do
    let (ty, varargs) ← onElement "param" (Ty.parseParameter scope text)
    match rest with
    | [] => return ([ty], varargs)
    | _ =>
      if varargs then throw (.invalidAttribute "param" "type" text)
      let (types, varargs) ← readParameters scope rest
      return (ty :: types, varargs)

def readThrown (scope : TypeScope) (text : String) : Except DescriptorError Ty := do
  match ← onElement "throws" (Ty.parse scope text) with
  | .cls name args => return .cls name args
  | .var name => return .var name
  | _ => throw (.invalidAttribute "throws" "type" text)

/-- Exception types in order, each once. -/
def readThrows (scope : TypeScope) (texts : List String) : Except DescriptorError (List Ty) := do
  return (← texts.mapM (readThrown scope)).eraseDups

/-- A method is abstract if it says so; if it says nothing, inside interfaces unless it is default,
static or private. -/
def isAbstractMethod (kind : Kind) (text : MethodText) : Bool :=
  text.isAbstract.getD
    (kind == .interface && !text.isDefault && !text.isStatic && text.access != .privateAccess)

def readMethod (owner : QualName) (kind : Kind) (scope : TypeScope) (text : MethodText) :
    Except DescriptorError Method := do
  if text.isDefault ∧ kind ≠ .interface then
    throw (.layout (.defaultOutsideInterface text.name))
  let scope := scope.withVariables (text.inside.typeParameters.map ParameterText.name)
  let typeParameters ← readTypeParameters scope [] text.inside.typeParameters
  let (parameters, varargs) ← readParameters scope text.inside.parameters
  let result ← match text.result with
    | some result => onElement "method" (Ty.parse scope result)
    | none => pure .void
  let throwing ← readThrows scope text.inside.throwing
  return {
    name := text.name, owner, typeParameters, parameters, varargs, result, throwing
    isAbstract := isAbstractMethod kind text
    isStatic := text.isStatic
    isFinal := text.isFinal
    access := text.access }

def readConstructor (kind : Kind) (scope : TypeScope) (text : ConstructorText) :
    Except DescriptorError Constructor := do
  if kind = .interface then throw (.unknownElement "constructor" "interface")
  let (parameters, varargs) ← readParameters scope text.inside.parameters
  let throwing ← readThrows scope text.inside.throwing
  return { parameters, varargs, throwing, access := text.access }

/-- The superclass and the interfaces. A class without a superclass has `java.lang.Object`, save
that one itself. -/
def readSupertypes (name : QualName) (kind : Kind) (superclauses implemented : List ClassRef) :
    Except DescriptorError (Option ClassRef × List ClassRef) := do
  if kind = .interface then
    if !implemented.isEmpty then throw (.layout (.interfaceImplements name))
    return (none, superclauses)
  else
    match superclauses with
    | [] =>
      let superclass := if name = .object then none else some ⟨.object, []⟩
      return (superclass, implemented)
    | [superclass] => return (some superclass, implemented)
    | _ => throw (.layout (.severalSuperclasses name))

/-- Reads the types that a declaration is written with. -/
def ofBody (name : QualName) (kind : Kind) (body : TypeBodyText) :
    Except DescriptorError Descriptor := do
  let scope := (TypeScope.ofType name).withVariables (body.typeParameters.map ParameterText.name)
  let typeParameters ← readTypeParameters scope [] body.typeParameters
  let superclauses ← body.superclauses.mapM fun text =>
    onElement "extends" (ClassRef.parse scope text)
  let implemented ← body.implemented.mapM fun text =>
    onElement "implements" (ClassRef.parse scope text)
  let (superclass, interfaces) ← readSupertypes name kind superclauses implemented
  let methods ← body.methods.mapM (readMethod name kind scope)
  let constructors ← body.constructors.mapM (readConstructor kind scope)
  return { name, kind, typeParameters, superclass, interfaces, methods, constructors }

def kindOf (element : String) (isAbstract : Bool) : Kind :=
  if element = "interface" then .interface
  else if isAbstract then .abstractClass
  else .concreteClass

/-- Reads one interface or class element. -/
def ofElement (element : Element) : Except DescriptorError Descriptor := do
  let head ← Declaration.readHead element
  match head.name with
  | none => throw (.missingAttribute element.name "name")
  | some text =>
    match QualName.parse text with
    | .error _ => throw (.invalidAttribute element.name "name" text)
    | .ok name =>
      let body ← Declaration.readBody element
      let descriptor ← ofBody name (kindOf element.name head.isAbstract) body
      return { descriptor with access := head.access, isFinal := head.isFinal }

/-- What has been read of a document. -/
structure Progress where
  inTypes : Bool := false
  found : List Descriptor := []

def isTypeElement (element : Element) : Bool :=
  element.name = "interface" || element.name = "class"

/-- Reads an interface or class; outside of `types` there is only one. -/
def readDeclared (progress : Progress) (element : Element) : Except DescriptorError Progress := do
  if isTypeElement element then
    if !progress.inTypes ∧ !progress.found.isEmpty then throw (.layout .severalTypes)
    return { progress with found := progress.found ++ [← ofElement element] }
  else throw (.unknownElement element.name "document")

/-- Reads a top-level element. A `types` element may come only first; that the document ends inside
it is no fault. -/
def readTopLevel (progress : Progress) (element : Element) : Except DescriptorError Progress := do
  if element.name = "types" ∧ !progress.inTypes ∧ progress.found.isEmpty then
    match element.ending with
    | .selfClosed => return progress
    | .closed | .cut none => element.children.foldlM readDeclared { progress with inTypes := true }
    | .cut (some fault) =>
      let _ ← element.children.foldlM readDeclared { progress with inTypes := true }
      throw (.markup fault)
  else readDeclared progress element

def ofDocument (document : Document) : Except DescriptorError (List Descriptor) := do
  let progress ← document.elements.foldlM readTopLevel {}
  match document.fault with
  | some fault => throw (.markup fault)
  | none =>
    if progress.found.isEmpty then throw (.layout .noTypes)
    return progress.found

/-- Every type that a document declares, in order. -/
def parseAll (text : String) : Except DescriptorError (List Descriptor) :=
  ofDocument (Document.parse text)

/-- The only type that a document declares. -/
def parseOne (text : String) : Except DescriptorError Descriptor := do
  match ← parseAll text with
  | [descriptor] => return descriptor
  | descriptors => throw (.layout (.notOneType descriptors.length))

end Descriptor

end JavaStubs
