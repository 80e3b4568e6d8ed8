import JavaStubs.Inquiry
import JavaStubs.Model

namespace JavaStubs

/-- What subtype questions are judged by. -/
structure Knowledge where
  lookup : QualName → Option TypeModel
  /-- Upper bounds of the variables in scope. The first entry of a name decides. -/
  bounds : List (String × List Ty) := []

namespace Knowledge

/-- Knows no type at all. -/
def blind : Knowledge := { lookup := fun _ => none }

/-- Registers parameters; a later one replaces an earlier one of the same name. -/
def withParameters (known : Knowledge) (parameters : List TypeParameter) : Knowledge :=
  { known with
    bounds := (parameters.map fun p => (p.name, p.bounds)).reverse ++ known.bounds }

def boundsOf (known : Knowledge) (name : String) : List Ty :=
  (known.bounds.lookup name).getD []

def ask (known : Knowledge) (name : QualName) : Inquiry (Option TypeModel) :=
  ⟨known.lookup name, [name]⟩

end Knowledge

namespace Subtyping

/-- The types that every array is a subtype of, beside `java.lang.Object`. -/
def arraySupertypes : List QualName := [⟨"java.lang.Cloneable"⟩, ⟨"java.io.Serializable"⟩]

/-- Whether the argument `outer` contains the argument `inner`, given a subtype judgement. -/
def contains (judge : Ty → Ty → Inquiry Bool) (outer inner : Ty) : Inquiry Bool :=
  match outer, inner with
  | .any, _ => pure true
  | .upper bound, .upper inner => judge inner bound
  | .upper bound, .any | .upper bound, .lower _ => pure bound.isObject
  | .upper bound, inner => judge inner bound
  | .lower bound, .lower inner => judge bound inner
  | .lower _, .any | .lower _, .upper _ => pure false
  | .lower bound, inner => judge bound inner
  | outer, inner => pure (outer == inner)

/-- Arguments agree if either side is raw or each contains its counterpart. -/
def argumentsAgree (judge : Ty → Ty → Inquiry Bool) (sub sup : List Ty) : Inquiry Bool :=
  if sub.isEmpty || sup.isEmpty then pure true
  else if sub.length = sup.length then
    (sub.zip sup).allM fun pair => contains judge pair.2 pair.1
  else pure false

/-- A supertype of `ref` as seen from it: raw references drop all arguments. -/
def stepUp (model : TypeModel) (ref : ClassRef) (link : Supertype TypeModel) : ClassRef :=
  if ref.args.isEmpty && model.isGeneric then ⟨link.reference.name, []⟩
  else link.reference.subst (model.substitutionFor ref.args)

mutual

/-- Whether `sub` is a subtype of `sup`, within a search depth. -/
def check (known : Knowledge) : Nat → Ty → Ty → Inquiry Bool
  | 0, _, _ => pure false
  | depth + 1, sub, sup =>
    if sub = sup then pure true
    else if sup.isObject && sub.isReference then pure true
    else match sub, sup with
      | .var name, sup => (known.boundsOf name).anyM fun bound => check known depth bound sup
      | .array element, .array element' =>
        if element.isReference && element'.isReference then check known depth element element'
        else pure false
      | .array _, .cls name args => pure (args.isEmpty && arraySupertypes.contains name)
      | .cls name args, .cls name' args' =>
        checkClass known depth ⟨name, args⟩ ⟨name', args'⟩
      | _, _ => pure false

/-- The same for class types, along supertype links. -/
def checkClass (known : Knowledge) : Nat → ClassRef → ClassRef → Inquiry Bool
  | 0, _, _ => pure false
  | depth + 1, sub, sup =>
    if sub.name = sup.name then argumentsAgree (check known depth) sub.args sup.args
    else do
      match ← known.ask sub.name with
      | none => pure false
      | some model =>
        model.supertypes.anyM fun link => checkClass known depth (stepUp model sub link) sup

end

/-- Searches deeper than this are abandoned. -/
def depthLimit : Nat := 65

end Subtyping

def Knowledge.isSubtype (known : Knowledge) (sub sup : Ty) : Inquiry Bool :=
  Subtyping.check known Subtyping.depthLimit sub sup

end JavaStubs
