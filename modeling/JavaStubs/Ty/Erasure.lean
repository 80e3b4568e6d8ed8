import JavaStubs.Ty.Basic

namespace JavaStubs

/-- What the type variables in scope erase to. The first entry of a name decides. -/
abbrev ErasureScope := List (String × Ty)

/-- An unknown variable erases to `java.lang.Object`. -/
def ErasureScope.erased (scope : ErasureScope) (name : String) : Ty :=
  (scope.lookup name).getD .object

def Ty.erasure (scope : ErasureScope) : Ty → Ty
  | .void => .void
  | .prim p => .prim p
  | .cls name _ => .cls name []
  | .var name => scope.erased name
  | .array element => .array (element.erasure scope)
  | .upper bound => bound.erasure scope
  | .any | .lower _ => .object

/-- The erasure of a parameter is that of its first bound, judged in the scope around it. -/
def TypeParameter.erasure (scope : ErasureScope) (parameter : TypeParameter) : Ty :=
  match parameter.bounds with
  | [] => .object
  | bound :: _ => bound.erasure scope

/-- Adds parameters from left to right: a bound sees the parameters before it. -/
def ErasureScope.extend (scope : ErasureScope) : List TypeParameter → ErasureScope
  | [] => scope
  | parameter :: rest =>
    ErasureScope.extend ((parameter.name, parameter.erasure scope) :: scope) rest

end JavaStubs
