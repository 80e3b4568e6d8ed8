import JavaStubs.Ty.Substitution
import JavaStubs.Ty.Erasure

namespace JavaStubs

/-- Access levels, from the narrowest to the widest. -/
inductive Access
  | privateAccess | packageAccess | protectedAccess | publicAccess
  deriving DecidableEq, Repr

namespace Access

def ofWord? : String → Option Access
  | "public" => some .publicAccess
  | "protected" => some .protectedAccess
  | "package" => some .packageAccess
  | "private" => some .privateAccess
  | _ => none

/-- The modifier, if the level has one. -/
def keyword? : Access → Option String
  | .publicAccess => some "public"
  | .protectedAccess => some "protected"
  | .packageAccess => none
  | .privateAccess => some "private"

def rank : Access → Nat
  | .privateAccess => 0
  | .packageAccess => 1
  | .protectedAccess => 2
  | .publicAccess => 3

/-- The wider of two levels. -/
def wider (a b : Access) : Access :=
  if a.rank ≤ b.rank then b else a

end Access

structure Method where
  name : String
  owner : QualName
  typeParameters : List TypeParameter := []
  /-- In order; a parameter of variable arity is an array. -/
  parameters : List Ty := []
  varargs : Bool := false
  result : Ty := .void
  throwing : List Ty := []
  isAbstract : Bool := false
  isStatic : Bool := false
  isFinal : Bool := false
  access : Access := .publicAccess
  deriving DecidableEq, Repr

namespace Method

def arity (m : Method) : Nat := m.parameters.length

/-- Whether a subtype could override the method. -/
def isOverridable (m : Method) : Bool :=
  !m.isStatic && !m.isFinal && m.access != .privateAccess

def declaredNames (m : Method) : List String :=
  m.typeParameters.map TypeParameter.name

def declares (m : Method) (name : String) : Bool :=
  m.declaredNames.contains name

/-- Every type that the signature writes. -/
def types (m : Method) : List Ty :=
  m.typeParameters.flatMap TypeParameter.bounds ++ m.parameters ++ m.throwing ++ [m.result]

/-- The names that are declared by the signature or occur in it. -/
def usedNames (m : Method) : List String :=
  m.declaredNames ++ m.types.flatMap Ty.vars

/-- The first of `base0`, `base1`, … that is not taken. There is one among the first
`taken.length + 1`. -/
def freshName (base : String) (taken : List String) : String :=
  let candidates := (List.range (taken.length + 1)).map fun n => base ++ toString n
  (candidates.find? (!taken.contains ·)).getD base

/-- New names for those of `names` that `captured` holds, each apart from all that is taken. -/
def renamings (captured : List String) : List String → List String → List (String × String)
  | _, [] => []
  | taken, name :: names =>
    if captured.contains name then
      let new := freshName name taken
      (name, new) :: renamings captured (new :: taken) names
    else renamings captured taken names

/-- The part of a substitution that reaches the signature: its own parameters hide the rest. -/
def visible (m : Method) (s : Substitution) : Substitution :=
  s.filter fun entry => !m.declares entry.1

/-- The new names of the type parameters that a replacement mentions. -/
def renamed (m : Method) (s : Substitution) : List (String × String) :=
  let captured := (m.visible s).flatMap fun entry => entry.2.vars
  renamings captured (m.usedNames ++ captured) m.declaredNames

/-- The simultaneous replacement of outer variables and renamed parameters. -/
def replacement (m : Method) (s : Substitution) : Substitution :=
  (m.renamed s).reverse.map (fun entry => (entry.1, Ty.var entry.2)) ++ m.visible s

/-- Replaces variables of the enclosing type without capture. -/
def subst (m : Method) (s : Substitution) : Method :=
  let renamed := m.renamed s
  let s := m.replacement s
  { m with
    typeParameters := m.typeParameters.map fun parameter =>
      { parameter.substBounds s with name := (renamed.lookup parameter.name).getD parameter.name }
    parameters := m.parameters.map (Ty.subst s)
    result := m.result.subst s
    throwing := m.throwing.map (Ty.subst s) }

/-- The erased parameter types, which with the name make the identity of an override. -/
def erasedParameters (m : Method) (scope : ErasureScope) : List Ty :=
  m.parameters.map (Ty.erasure (scope.extend m.typeParameters))

end Method

structure Constructor where
  parameters : List Ty := []
  varargs : Bool := false
  throwing : List Ty := []
  access : Access := .publicAccess
  deriving DecidableEq, Repr

namespace Constructor

def arity (c : Constructor) : Nat := c.parameters.length

/-- Whether a subclass in the same package can invoke it. -/
def isAccessible (c : Constructor) : Bool := c.access != .privateAccess

/-- Whether a call without arguments fits. -/
def takesNoArguments (c : Constructor) : Bool :=
  c.arity == 0 || (c.arity == 1 && c.varargs)

end Constructor

end JavaStubs
