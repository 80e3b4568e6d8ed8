import JavaStubs.Ty.Basic

namespace JavaStubs

/-- The first entry of a name decides, so an entry put in front hides those behind it. -/
abbrev Substitution := List (String × Ty)

/-- What a substitution makes of a variable. -/
def Substitution.apply (subst : Substitution) (name : String) : Ty :=
  (subst.lookup name).getD (.var name)

namespace Ty

mutual

def subst (s : Substitution) : Ty → Ty
  | .cls name args => .cls name (substAll s args)
  | .var name => s.apply name
  | .array element => .array (element.subst s)
  | .upper bound => .upper (bound.subst s)
  | .lower bound => .lower (bound.subst s)
  | .void => .void
  | .prim p => .prim p
  | .any => .any

def substAll (s : Substitution) : List Ty → List Ty
  | [] => []
  | ty :: rest => ty.subst s :: substAll s rest

end

@[simp] theorem substAll_eq_map (s : Substitution) (args : List Ty) :
    substAll s args = args.map (subst s) := by
  induction args with
  | nil => rfl
  | cons ty rest ih => simp [substAll, ih]

end Ty

def ClassRef.subst (s : Substitution) (ref : ClassRef) : ClassRef :=
  { ref with args := ref.args.map (Ty.subst s) }

def TypeParameter.substBounds (s : Substitution) (parameter : TypeParameter) : TypeParameter :=
  { parameter with bounds := parameter.bounds.map (Ty.subst s) }

end JavaStubs
