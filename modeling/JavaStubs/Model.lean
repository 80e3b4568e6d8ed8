import JavaStubs.Member

namespace JavaStubs

inductive Kind
  | interface | abstractClass | concreteClass
  deriving DecidableEq, Repr

def Kind.describe : Kind → String
  | .interface => "interface"
  | .abstractClass => "abstract class"
  | .concreteClass => "class"

/-- A supertype as written, and what it was linked to. -/
structure Supertype (Linked : Type) where
  reference : ClassRef
  model : Linked

/-- A declaration with the models of its supertypes, so the whole hierarchy above one type. -/
structure TypeModel where
  name : QualName
  kind : Kind
  access : Access := .publicAccess
  isFinal : Bool := false
  typeParameters : List TypeParameter := []
  superclass : Option (Supertype TypeModel) := none
  interfaces : List (Supertype TypeModel) := []
  methods : List Method := []
  constructors : List Constructor := []

namespace TypeModel

def isInterface (model : TypeModel) : Bool := model.kind == .interface

def isAbstract (model : TypeModel) : Bool := model.kind != .concreteClass

/-- Whether code in the type's own package sees it. -/
def isAccessible (model : TypeModel) : Bool := model.access != .privateAccess

def isGeneric (model : TypeModel) : Bool := !model.typeParameters.isEmpty

/-- The superclass, if any, and then the interfaces. -/
def supertypes (model : TypeModel) : List (Supertype TypeModel) :=
  model.superclass.toList ++ model.interfaces

def accessibleConstructors (model : TypeModel) : List Constructor :=
  model.constructors.filter Constructor.isAccessible

/-- The type applied to its own parameters. -/
def selfReference (model : TypeModel) : ClassRef :=
  ⟨model.name, model.typeParameters.map fun parameter => .var parameter.name⟩

def erasureScope (model : TypeModel) : ErasureScope :=
  ErasureScope.extend [] model.typeParameters

/-- Every parameter goes to its erasure, as in a raw reference. -/
def rawSubstitution (model : TypeModel) : Substitution :=
  model.typeParameters.map fun parameter =>
    (parameter.name, model.erasureScope.erased parameter.name)

/-- The parameters go to the arguments of a reference; without arguments, to their erasures. -/
def substitutionFor (model : TypeModel) (args : List Ty) : Substitution :=
  if args.isEmpty then model.rawSubstitution
  else (model.typeParameters.map TypeParameter.name).zip args

def findMethod? (model : TypeModel) (name : String) (arity : Nat) : Option Method :=
  model.methods.find? fun m => m.name == name && m.arity == arity

end TypeModel

namespace Supertype

/-- A reference to a generic type that gives no arguments. -/
def isRaw (link : Supertype TypeModel) : Bool :=
  link.reference.args.isEmpty && link.model.isGeneric

def substitution (link : Supertype TypeModel) : Substitution :=
  link.model.substitutionFor link.reference.args

end Supertype

/-- Adds a link unless one to the same name is there already. -/
def addLink (links : List (Supertype TypeModel)) (link : Supertype TypeModel) :
    List (Supertype TypeModel) :=
  if links.any (·.reference.name == link.reference.name) then links else links ++ [link]

/-- The first link to each name, in order. -/
def distinctLinks (links : List (Supertype TypeModel)) : List (Supertype TypeModel) :=
  links.foldl addLink []

end JavaStubs
