import JavaStubs.Model

namespace JavaStubs

namespace TypeModel

/-- The size of the models behind links. -/
noncomputable def linkWeight : List (Supertype TypeModel) → Nat
  | [] => 0
  | link :: rest => sizeOf link.model + linkWeight rest

theorem linkWeight_le (links : List (Supertype TypeModel)) : linkWeight links ≤ sizeOf links := by
  induction links with
  | nil => simp [linkWeight]
  | cons link rest ih =>
    obtain ⟨reference, model⟩ := link
    simp only [linkWeight, List.cons.sizeOf_spec, Supertype.mk.sizeOf_spec]
    omega

/-- A model is larger than its supertypes together. -/
theorem linkWeight_supertypes (model : TypeModel) : linkWeight model.supertypes < sizeOf model := by
  obtain ⟨name, kind, access, isFinal, parameters, superclass, interfaces, methods, constructors⟩ :=
    model
  have below := linkWeight_le interfaces
  cases superclass with
  | none => simp only [supertypes, Option.toList_none, List.nil_append, mk.sizeOf_spec]; omega
  | some link =>
    obtain ⟨reference, target⟩ := link
    simp only [supertypes, Option.toList_some, List.cons_append, List.nil_append, linkWeight,
      mk.sizeOf_spec, Option.some.sizeOf_spec, Supertype.mk.sizeOf_spec]
    omega

theorem sizeOf_superclass {model : TypeModel} {link : Supertype TypeModel}
    (above : model.superclass = some link) : sizeOf link.model < sizeOf model := by
  have total := model.linkWeight_supertypes
  simp only [supertypes, above, Option.toList_some, List.cons_append, linkWeight] at total
  omega

/-- The superclass, its superclass, and so on. -/
def superclasses (model : TypeModel) : List TypeModel :=
  match _above : model.superclass with
  | none => []
  | some link => link.model :: superclasses link.model
termination_by sizeOf model
decreasing_by exact sizeOf_superclass _above

end TypeModel

/-- A type met on the way up from a root. -/
structure Reached where
  model : TypeModel
  /-- The type's parameters in terms of the root's. -/
  subst : Substitution
  /-- Whether a raw reference lies on the way. -/
  raw : Bool
  depth : Nat
  /-- Whether it was met through superclasses only, from a root that is a class. -/
  onChain : Bool

namespace Reached

def root (model : TypeModel) : Reached where
  model := model
  subst := []
  raw := false
  depth := 0
  onChain := !model.isInterface

/-- The links upwards, each with whether it stays on the superclass chain. -/
def links (node : Reached) : List (Supertype TypeModel × Bool) :=
  node.model.superclass.toList.map (·, node.onChain) ++ node.model.interfaces.map (·, false)

/-- The type behind a link. Below a raw reference every parameter is erased. -/
def enter (node : Reached) (link : Supertype TypeModel × Bool) : Reached :=
  let raw := node.raw || link.1.isRaw
  { model := link.1.model
    subst :=
      if raw then link.1.model.rawSubstitution
      else link.1.substitution.map fun entry => (entry.1, entry.2.subst node.subst)
    raw
    depth := node.depth + 1
    onChain := link.2 }

end Reached

namespace Hierarchy

/-- The links to names not seen before, the first one to each. -/
def newLinks (seen : List QualName) :
    List (Supertype TypeModel × Bool) → List (Supertype TypeModel × Bool)
  | [] => []
  | link :: rest =>
    if seen.contains link.1.model.name then newLinks seen rest
    else link :: newLinks (link.1.model.name :: seen) rest

/-- The types above `node` that were not seen before. -/
def above (seen : List QualName) (node : Reached) : List Reached :=
  (newLinks seen node.links).map node.enter

def names (nodes : List Reached) : List QualName :=
  nodes.map (·.model.name)

/-- The size of the models in a queue. -/
noncomputable def weight : List Reached → Nat
  | [] => 0
  | node :: queue => sizeOf node.model + weight queue

theorem weight_append (queue next : List Reached) :
    weight (queue ++ next) = weight queue + weight next := by
  induction queue with
  | nil => simp [weight]
  | cons node queue ih =>
    simp only [List.cons_append, weight, ih]
    omega

theorem weight_newLinks_le (node : Reached) (seen : List QualName)
    (links : List (Supertype TypeModel × Bool)) :
    weight ((newLinks seen links).map node.enter) ≤
      TypeModel.linkWeight (links.map Prod.fst) := by
  induction links generalizing seen with
  | nil => simp [newLinks, weight]
  | cons link rest ih =>
    have known := ih seen
    have new := ih (link.1.model.name :: seen)
    unfold newLinks
    split
    · simp only [List.map_cons, TypeModel.linkWeight]
      omega
    · simp only [List.map_cons, weight, TypeModel.linkWeight, Reached.enter] at new ⊢
      omega

theorem weight_above_lt (seen : List QualName) (node : Reached) :
    weight (above seen node) < sizeOf node.model := by
  have bound := weight_newLinks_le node seen node.links
  have same : node.links.map Prod.fst = node.model.supertypes := by
    simp [Reached.links, TypeModel.supertypes, Function.comp_def]
  have larger := node.model.linkWeight_supertypes
  rw [same] at bound
  exact Nat.lt_of_le_of_lt bound larger

/-- Visits a queue of types whose names are all seen, and then the types above them. -/
def walk (seen : List QualName) : List Reached → List Reached
  | [] => []
  | node :: queue =>
    let next := above seen node
    node :: walk (names next ++ seen) (queue ++ next)
termination_by queue => weight queue
decreasing_by
  have step := weight_above_lt seen node
  simp only [weight_append, weight]
  omega

/-- The root and every type above it. -/
def ofRoot (model : TypeModel) : List Reached :=
  walk [model.name] [Reached.root model]

/-- The names of the types strictly above a type. -/
def ancestors (model : TypeModel) : List QualName :=
  names (ofRoot model).tail

end Hierarchy

end JavaStubs
