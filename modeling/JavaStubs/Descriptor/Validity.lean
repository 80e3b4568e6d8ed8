import JavaStubs.Descriptor.Basic

namespace JavaStubs

/-- A rule that a declaration breaks. -/
inductive DeclarationFault
  | finalInterface
  | interfaceConstructor
  | interfaceSuperclass
  | abstractAndFinal
  | finalInterfaceMethod (method : String)
  | abstractInConcrete (method : String)
  | abstractWith (method modifier : String)
  deriving DecidableEq, Repr

def DeclarationFault.message : DeclarationFault → String
  | .finalInterface => "interfaces cannot be final"
  | .interfaceConstructor => "interfaces cannot declare constructors"
  | .interfaceSuperclass => "interfaces cannot have a superclass"
  | .abstractAndFinal => "a class cannot be both abstract and final"
  | .finalInterfaceMethod method => "interface method '" ++ method ++ "' cannot be final"
  | .abstractInConcrete method => "concrete class declares abstract method '" ++ method ++ "'"
  | .abstractWith method modifier => "abstract method '" ++ method ++ "' cannot be " ++ modifier

inductive ValidityError
  | invalid (type : QualName) (fault : DeclarationFault)
  | duplicateMember (type : QualName) (member : String)
  deriving DecidableEq, Repr

def ValidityError.message : ValidityError → String
  | .invalid type fault => "invalid declaration in '" ++ type.text ++ "': " ++ fault.message
  | .duplicateMember type member => "duplicate member '" ++ member ++ "' in '" ++ type.text ++ "'"

/-- A name with parameter types, as messages show it. -/
def renderMember (name : String) (parameters : List Ty) : String :=
  name ++ "(" ++ Ty.renderList parameters ++ ")"

namespace Descriptor

/-- The first rule that the declaration breaks apart from its methods. -/
def headFault? (d : Descriptor) : Option DeclarationFault :=
  match d.kind with
  | .interface =>
    if d.isFinal then some .finalInterface
    else if !d.constructors.isEmpty then some .interfaceConstructor
    else if d.superclass.isSome then some .interfaceSuperclass
    else none
  | .abstractClass => if d.isFinal then some .abstractAndFinal else none
  | .concreteClass => none

/-- The modifier that an abstract method may not have, if it has one. -/
def modifierAgainstAbstract? (m : Method) : Option String :=
  if m.isStatic then some "static"
  else if m.isFinal then some "final"
  else if m.access = .privateAccess then some "private"
  else none

/-- The first rule that one method breaks by itself. -/
def methodFault? (kind : Kind) (m : Method) : Option DeclarationFault :=
  if kind = .interface ∧ m.isFinal then some (.finalInterfaceMethod m.name)
  else if !m.isAbstract then none
  else if kind = .concreteClass then some (.abstractInConcrete m.name)
  else (modifierAgainstAbstract? m).map (.abstractWith m.name)

/-- Methods in order, each against the rules and against those before it. -/
def validateMethods (d : Descriptor) :
    List (String × List Ty) → List Method → Except ValidityError Unit
  | _, [] => .ok ()
  | seen, m :: rest =>
    match methodFault? d.kind m with
    | some fault => .error (.invalid d.name fault)
    | none =>
      let key := (m.name, m.erasedParameters d.erasureScope)
      if seen.contains key then .error (.duplicateMember d.name (renderMember key.1 key.2))
      else validateMethods d (key :: seen) rest

def validateConstructors (d : Descriptor) :
    List (List Ty) → List Constructor → Except ValidityError Unit
  | _, [] => .ok ()
  | seen, c :: rest =>
    let key := c.parameters.map (Ty.erasure d.erasureScope)
    if seen.contains key then .error (.duplicateMember d.name (renderMember d.name.simple key))
    else validateConstructors d (key :: seen) rest

def validate (d : Descriptor) : Except ValidityError Unit := do
  match d.headFault? with
  | some fault => throw (.invalid d.name fault)
  | none =>
    validateMethods d [] d.methods
    validateConstructors d [] d.constructors

end Descriptor

end JavaStubs
