import JavaStubs.Name

namespace JavaStubs

inductive Primitive
  | boolean | byte | short | char | int | long | float | double
  deriving DecidableEq, Repr

namespace Primitive

def all : List Primitive :=
  [boolean, byte, short, char, int, long, float, double]

def name : Primitive → String
  | boolean => "boolean"
  | byte => "byte"
  | short => "short"
  | char => "char"
  | int => "int"
  | long => "long"
  | float => "float"
  | double => "double"

def ofName? (word : String) : Option Primitive :=
  all.find? (·.name == word)

theorem ofName?_name (p : Primitive) : ofName? p.name = some p := by
  cases p <;> decide

def isNumeric : Primitive → Bool
  | boolean => false
  | _ => true

end Primitive

/-- A type. The wildcards `any` (`?`), `upper` (`? extends`) and `lower` (`? super`) make sense only
as type arguments, `void` only as a result. -/
inductive Ty
  | void
  | prim (p : Primitive)
  | cls (name : QualName) (args : List Ty)
  | var (name : String)
  | array (element : Ty)
  | any
  | upper (bound : Ty)
  | lower (bound : Ty)
  deriving Repr, Inhabited

namespace Ty

/-- Induction over types that offers the hypothesis for every argument of a class type. -/
@[elab_as_elim, induction_eliminator]
theorem induct {motive : Ty → Prop} (void : motive void) (prim : ∀ p, motive (prim p))
    (cls : ∀ name args, (∀ arg ∈ args, motive arg) → motive (cls name args))
    (var : ∀ name, motive (var name)) (array : ∀ element, motive element → motive (array element))
    (any : motive any) (upper : ∀ bound, motive bound → motive (upper bound))
    (lower : ∀ bound, motive bound → motive (lower bound)) (ty : Ty) : motive ty :=
  @Ty.rec motive (fun args => ∀ arg ∈ args, motive arg)
    void prim cls var array any upper lower (by simp)
    (fun _ _ head tail => by
      intro arg member
      rcases List.mem_cons.mp member with rfl | member
      · exact head
      · exact tail arg member)
    ty

mutual

/-- Structural comparison. -/
def same : Ty → Ty → Bool
  | .void, .void => true
  | .prim p, .prim q => p == q
  | .cls name args, .cls name' args' => name == name' && sameAll args args'
  | .var name, .var name' => name == name'
  | .array element, .array element' => same element element'
  | .any, .any => true
  | .upper bound, .upper bound' => same bound bound'
  | .lower bound, .lower bound' => same bound bound'
  | _, _ => false

def sameAll : List Ty → List Ty → Bool
  | [], [] => true
  | s :: ss, t :: ts => same s t && sameAll ss ts
  | _, _ => false

end

theorem sameAll_iff {args : List Ty} (each : ∀ arg ∈ args, ∀ t, same arg t = true ↔ arg = t)
    (args' : List Ty) : sameAll args args' = true ↔ args = args' := by
  induction args generalizing args' with
  | nil => cases args' <;> simp [sameAll]
  | cons arg args ih =>
    cases args' with
    | nil => simp [sameAll]
    | cons t ts =>
      have rest := ih (fun a member => each a (List.mem_cons_of_mem _ member)) ts
      simp [sameAll, each arg (List.mem_cons_self ..) t, rest]

theorem same_iff (s t : Ty) : same s t = true ↔ s = t := by
  induction s generalizing t with
  | cls name args ih => cases t <;> simp [same, sameAll_iff ih]
  | array element ih => cases t <;> simp [same, ih]
  | upper bound ih => cases t <;> simp [same, ih]
  | lower bound ih => cases t <;> simp [same, ih]
  | _ => cases t <;> simp [same]

instance : DecidableEq Ty := fun s t => decidable_of_iff _ (same_iff s t)

/-- Class types, type variables and arrays: the types whose values are references. -/
def isReference : Ty → Bool
  | .cls .. | .var _ | .array _ => true
  | _ => false

def object : Ty := .cls QualName.object []

def isObject (ty : Ty) : Bool := ty == object

def isWildcard : Ty → Bool
  | .any | .upper _ | .lower _ => true
  | _ => false

mutual

/-- The written form. -/
def render : Ty → String
  | .void => "void"
  | .prim p => p.name
  | .cls name args =>
    if args.isEmpty then name.text else name.text ++ "<" ++ ", ".intercalate (renderAll args) ++ ">"
  | .var name => name
  | .array element => element.render ++ "[]"
  | .any => "?"
  | .upper bound => "? extends " ++ bound.render
  | .lower bound => "? super " ++ bound.render

def renderAll : List Ty → List String
  | [] => []
  | ty :: rest => ty.render :: renderAll rest

end

@[simp] theorem renderAll_eq_map (args : List Ty) : renderAll args = args.map render := by
  induction args with
  | nil => rfl
  | cons ty rest ih => simp [renderAll, ih]

/-- Types in a row, as parameter lists and throws clauses show them. -/
def renderList (types : List Ty) : String :=
  ", ".intercalate (types.map render)

mutual

/-- The variables that occur, from left to right. -/
def vars : Ty → List String
  | .cls _ args => varsAll args
  | .var name => [name]
  | .array element => element.vars
  | .upper bound => bound.vars
  | .lower bound => bound.vars
  | .void | .prim _ | .any => []

def varsAll : List Ty → List String
  | [] => []
  | ty :: rest => ty.vars ++ varsAll rest

end

@[simp] theorem varsAll_eq_flatMap (args : List Ty) : varsAll args = args.flatMap vars := by
  induction args with
  | nil => rfl
  | cons ty rest ih => simp [varsAll, ih]

/-- Whether a type variable occurs. -/
def mentions (ty : Ty) (name : String) : Bool :=
  ty.vars.contains name

end Ty

/-- A reference to a class or interface; no arguments means raw or not generic. -/
structure ClassRef where
  name : QualName
  args : List Ty := []
  deriving DecidableEq, Repr, Inhabited

def ClassRef.ty (ref : ClassRef) : Ty := .cls ref.name ref.args

def ClassRef.render (ref : ClassRef) : String := ref.ty.render

/-- A declared type parameter with its upper bounds; none means `java.lang.Object`. -/
structure TypeParameter where
  name : String
  bounds : List Ty := []
  deriving DecidableEq, Repr, Inhabited

def TypeParameter.render (parameter : TypeParameter) : String :=
  if parameter.bounds.isEmpty then parameter.name
  else parameter.name ++ " extends " ++ " & ".intercalate (parameter.bounds.map Ty.render)

end JavaStubs
