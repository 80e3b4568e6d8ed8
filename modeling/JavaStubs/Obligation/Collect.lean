import JavaStubs.Obligation.Inherited
import JavaStubs.Subtyping

namespace JavaStubs

namespace TypeModel

/-- Why a type can have no generated subclass at all. -/
def refusal? (root : TypeModel) : Option Refusal :=
  if root.kind = .concreteClass then some ⟨root.name.text, .concrete⟩
  else if root.isFinal then some ⟨root.name.text, .final⟩
  else if !root.isAccessible then some ⟨root.name.text, .hidden⟩
  else none

/-- Whether a constructor of `declaring` can be called from a package. -/
def isVisibleFrom (package : String) (declaring : TypeModel) (c : Constructor) : Bool :=
  match c.access with
  | .publicAccess | .protectedAccess => true
  | .packageAccess => declaring.name.package == package
  | .privateAccess => false

/-- Whether an implicit constructor finds one above that it can call without arguments. The first
superclass that declares constructors decides. -/
def implicitConstructorFits (root : TypeModel) : Bool :=
  match root.superclasses.find? (!·.constructors.isEmpty) with
  | none => true
  | some declaring =>
    declaring.constructors.any fun c =>
      c.takesNoArguments && isVisibleFrom root.name.package declaring c

/-- The constructors that a subclass has to forward. -/
def constructorObligations (root : TypeModel) : Except ObligationError (List Constructor) :=
  if root.kind ≠ .abstractClass then .ok []
  else if root.constructors.isEmpty then
    if root.implicitConstructorFits then .ok [] else .error (.noConstructor root.name)
  else match root.accessibleConstructors with
    | [] => .error (.noConstructor root.name)
    | forwarded => .ok forwarded

end TypeModel

namespace Collect

/-- A candidate's result and throws clause, in the terms of the declaration that stands for all. -/
structure Contract where
  result : Ty
  throwing : List Ty

/-- Renames method type parameters by position, if there are equally many. -/
def align (base other : Method) : Contract :=
  if base.typeParameters.isEmpty || base.typeParameters.length != other.typeParameters.length then
    ⟨other.result, other.throwing⟩
  else
    let names : Substitution :=
      other.declaredNames.zip (base.declaredNames.map Ty.var)
    ⟨other.result.subst names, other.throwing.map (Ty.subst names)⟩

/-- The exceptions that need no declaration. -/
def uncheckedRoots : List Ty :=
  [.cls ⟨"java.lang.RuntimeException"⟩ [], .cls ⟨"java.lang.Error"⟩ []]

/-- The checked exceptions of a throws clause. -/
def checkedOnly (known : Knowledge) : List Ty → Inquiry (List Ty)
  | [] => pure []
  | e :: rest => do
    let unchecked ← uncheckedRoots.anyM fun top => known.isSubtype e top
    let rest ← checkedOnly known rest
    pure (if unchecked then rest else e :: rest)

/-- Whether every exception of `narrow` is a subtype of one in `wide`. -/
def covers (known : Knowledge) (narrow wide : List Ty) : Inquiry Bool :=
  narrow.allM fun e => wide.anyM fun w => known.isSubtype e w

/-- Whether neither clause covers the other. -/
def clash (known : Knowledge) (left right : List Ty) : Inquiry Bool := do
  if ← covers known left right then pure false
  else return !(← covers known right left)

/-- The first pair of clauses that clash. -/
def firstClash? (known : Knowledge) : List (List Ty) → Inquiry (Option (List Ty × List Ty))
  | [] => pure none
  | left :: rest => do
    match ← rest.findM? (clash known left) with
    | some right => pure (some (left, right))
    | none => firstClash? known rest

/-- The contracts of candidates with unchecked exceptions dropped. -/
def contracts (known : Knowledge) (base : Method) : List Inherited → Inquiry (List Contract)
  | [] => pure []
  | d :: rest => do
    let contract := align base d.method
    let throwing ← checkedOnly known contract.throwing
    return { contract with throwing } :: (← contracts known base rest)

/-- The first result type that is a subtype of all. -/
def commonResult? (known : Knowledge) (results : List Ty) : Inquiry (Option Ty) :=
  results.findM? fun result => results.allM fun other => known.isSubtype result other

/-- The first throws clause that all cover. -/
def commonThrows? (known : Knowledge) (clauses : List (List Ty)) : Inquiry (Option (List Ty)) :=
  clauses.findM? fun throwing => clauses.allM fun other => covers known throwing other

/-- The result type and throws clause that an implementation of all candidates may have. -/
def agree (known : Knowledge) (contracts : List Contract) :
    Inquiry (Except ConflictReason Contract) := do
  let results := contracts.map Contract.result
  let clauses := contracts.map Contract.throwing
  match ← commonResult? known results with
  | none => return .error (.results results)
  | some result =>
    match ← firstClash? known clauses with
    | some (left, right) => return .error (.throwsClauses left right)
    | none =>
      match ← commonThrows? known clauses with
      | none => return .error .noCommonThrows
      | some throwing => return .ok ⟨result, throwing⟩

/-- An abstract method that the package of the root cannot see cannot be overridden there. -/
def invisible? (root : TypeModel) (candidates : List Inherited) : Option Refusal :=
  let package := root.name.package
  let found := candidates.find? fun d =>
    d.method.isAbstract && d.method.access == .packageAccess && d.method.owner.package != package
  found.map fun d =>
    ⟨root.name.text, .packagePrivate d.method.name d.method.owner package⟩

/-- Everything known where the method stands: the root's parameters and the method's own. -/
def knowledgeFor (lookup : QualName → Option TypeModel) (root : TypeModel) (m : Method) :
    Knowledge :=
  (({ lookup } : Knowledge).withParameters root.typeParameters).withParameters m.typeParameters

/-- What one method group leaves to implement. -/
def resolve (lookup : QualName → Option TypeModel) (root : TypeModel) (group : MethodGroup) :
    Inquiry (Except ObligationError (Option MethodObligation)) :=
  match group.unsatisfied with
  | [] => pure (.ok none)
  | base :: others => do
    let candidates := base :: others
    match invisible? root candidates with
    | some refusal => return .error (.refused refusal)
    | none =>
      let known := knowledgeFor lookup root base.method
      match ← agree known (← contracts known base.method candidates) with
      | .error reason => return .error (.conflict group.key reason)
      | .ok contract => return .ok (some {
          method := base.method
          result := contract.result
          throwing := contract.throwing
          access := others.foldl (fun access d => access.wider d.method.access) base.method.access
          depth := base.depth })

/-- Resolves groups in order; the first failure ends it. -/
def resolveAll (lookup : QualName → Option TypeModel) (root : TypeModel) :
    List MethodGroup → Inquiry (Except ObligationError (List (SignatureKey × MethodObligation)))
  | [] => pure (.ok [])
  | group :: groups => do
    match ← resolve lookup root group with
    | .error error => return .error error
    | .ok found =>
      match ← resolveAll lookup root groups with
      | .error error => return .error error
      | .ok rest => return .ok ((found.map (group.key, ·)).toList ++ rest)

/-- Methods come by depth, then name, then erased parameters as written. -/
def comesBefore (a b : SignatureKey × MethodObligation) : Bool :=
  (compare a.2.depth b.2.depth).then ((compare a.1.name b.1.name).then
    (compare (a.1.parameters.map Ty.render) (b.1.parameters.map Ty.render))) |>.isLE

end Collect

/-- What a concrete subclass of `root` has to provide: constructors in the order of declaration,
and then methods in theirs. -/
def obligations (lookup : QualName → Option TypeModel) (root : TypeModel) :
    Inquiry (Except ObligationError (List Obligation)) :=
  match root.refusal? with
  | some refusal => pure (.error (.refused refusal))
  | none =>
    match root.constructorObligations with
    | .error error => pure (.error error)
    | .ok constructors => do
      match ← Collect.resolveAll lookup root (MethodGroup.ofRoot root) with
      | .error error => return .error error
      | .ok methods =>
        let sorted := methods.mergeSort Collect.comesBefore
        return .ok (constructors.map .constructor ++ sorted.map fun entry => .method entry.2)

end JavaStubs
