import JavaStubs.Obligation.Basic
import JavaStubs.Obligation.Hierarchy

namespace JavaStubs

/-- A method as a root inherits it. -/
structure Inherited where
  method : Method
  declaredIn : QualName
  /-- The types strictly above the declaring one. -/
  ancestors : List QualName
  depth : Nat
  onChain : Bool

namespace Inherited

/-- The methods of a type that subtypes inherit, in the root's terms. -/
def ofNode (node : Reached) : List Inherited :=
  let ancestors := Hierarchy.ancestors node.model
  let inherited := node.model.methods.filter fun m => !m.isStatic && m.access != .privateAccess
  inherited.map fun m =>
    { method := m.subst node.subst, declaredIn := node.model.name, ancestors
      depth := node.depth, onChain := node.onChain }

def key (scope : ErasureScope) (d : Inherited) : SignatureKey :=
  ⟨d.method.name, d.method.erasedParameters scope⟩

/-- Every method that a root inherits, its own first. -/
def all (root : TypeModel) : List Inherited :=
  (Hierarchy.ofRoot root).flatMap ofNode

/-- The nearest of some declarations; of several equally near, the first. -/
def nearest? : List Inherited → Option Inherited
  | [] => none
  | d :: rest =>
    match nearest? rest with
    | none => some d
    | some other => if d.depth ≤ other.depth then some d else some other

/-- Whether `d` is declared below another type's declaration, which then does not count. -/
def isBelow (d other : Inherited) : Bool :=
  d.declaredIn != other.declaredIn && d.ancestors.contains other.declaredIn

/-- The declarations that no other one refines. -/
def mostSpecific (declarations : List Inherited) : List Inherited :=
  declarations.filter fun d => !declarations.any fun other => other.isBelow d

end Inherited

/-- The declarations of one method. -/
structure MethodGroup where
  key : SignatureKey
  declarations : List Inherited

namespace MethodGroup

/-- Adds a declaration to the group of its key, or opens one at the end. -/
def insert (key : SignatureKey) (d : Inherited) : List MethodGroup → List MethodGroup
  | [] => [⟨key, [d]⟩]
  | group :: groups =>
    if group.key = key then ⟨key, group.declarations ++ [d]⟩ :: groups
    else group :: insert key d groups

/-- The inherited methods of a root by key, in the order in which keys are met. -/
def ofRoot (root : TypeModel) : List MethodGroup :=
  let scope := root.erasureScope
  (Inherited.all root).foldl (fun groups d => insert (d.key scope) d groups) []

/-- The methods that every object has, whether or not a class declares them. -/
def isObjectMethod (key : SignatureKey) : Bool :=
  match key.name, key.parameters with
  | "equals", [parameter] => parameter.isObject
  | "hashCode", [] | "toString", [] => true
  | _, _ => false

/-- The nearest declaration on the superclass chain. -/
def fromClass? (group : MethodGroup) : Option Inherited :=
  Inherited.nearest? (group.declarations.filter Inherited.onChain)

/-- The interface declarations that no other one refines. -/
def fromInterfaces (group : MethodGroup) : List Inherited :=
  Inherited.mostSpecific (group.declarations.filter (!·.onChain))

/-- The declarations that an implementation has to satisfy, the one that stands for all first;
none if the root has the method already. -/
def unsatisfied (group : MethodGroup) : List Inherited :=
  match group.fromClass?, group.fromInterfaces with
  | some d, specific => if d.method.isAbstract then d :: specific else []
  | none, specific =>
    if isObjectMethod group.key then []
    else match specific with
      | [only] => if only.method.isAbstract then [only] else []
      | _ => specific

end MethodGroup

end JavaStubs
