import JavaStubs.Obligation.Collect
import JavaStubs.Proofs.Hierarchy.Walk

namespace JavaStubs

namespace TypeModel

theorem sizeOf_interface {model : TypeModel} {link : Supertype TypeModel}
    (above : link ∈ model.interfaces) : sizeOf link.model < sizeOf model := by
  have inside := List.sizeOf_lt_of_mem above
  obtain ⟨reference, target⟩ := link
  obtain ⟨name, kind, access, isFinal, parameters, superclass, interfaces, methods, constructors⟩ :=
    model
  simp only [mk.sizeOf_spec, Supertype.mk.sizeOf_spec] at inside ⊢
  omega

/-- A revision of types that leaves classes their constructors and their superclasses. -/
structure KeepsClasses (revise : TypeModel → TypeModel) : Prop where
  name : ∀ model, (revise model).name = model.name
  kind : ∀ model, (revise model).kind = model.kind
  constructors : ∀ model, (revise model).constructors = model.constructors
  superclass : ∀ model, (revise model).superclass =
    model.superclass.map fun link => ⟨link.reference, revise link.model⟩

theorem KeepsClasses.superclasses {revise : TypeModel → TypeModel} (keeps : KeepsClasses revise)
    (model : TypeModel) : (revise model).superclasses = model.superclasses.map revise := by
  induction size : sizeOf model using Nat.strongRecOn generalizing model with
  | _ n ih =>
    have revised := keeps.superclass model
    cases above : model.superclass with
    | none =>
      rw [above] at revised
      rw [superclasses_of_none above, superclasses_of_none revised, List.map_nil]
    | some link =>
      rw [above] at revised
      rw [superclasses_of_some above, superclasses_of_some revised, List.map_cons,
        ← ih _ (size ▸ sizeOf_superclass above) link.model rfl]

/-- The constructors to forward are found among the superclasses. -/
theorem KeepsClasses.constructorObligations {revise : TypeModel → TypeModel}
    (keeps : KeepsClasses revise) (model : TypeModel) :
    (revise model).constructorObligations = model.constructorObligations := by
  have fits : (revise model).implicitConstructorFits = model.implicitConstructorFits := by
    unfold implicitConstructorFits
    rw [keeps.superclasses, List.find?_map]
    have same : (fun above : TypeModel => !above.constructors.isEmpty) ∘ revise =
        fun above => !above.constructors.isEmpty := by
      funext above
      simp [keeps.constructors]
    rw [same]
    cases model.superclasses.find? fun above => !above.constructors.isEmpty with
    | none => rfl
    | some declaring => simp [isVisibleFrom, keeps.constructors, keeps.name]
  unfold TypeModel.constructorObligations
  rw [fits]
  simp [accessibleConstructors, keeps.kind, keeps.constructors, keeps.name]

/-- Every type of the hierarchy with its methods revised, given its name. -/
def mapMethods (f : QualName → List Method → List Method) (model : TypeModel) : TypeModel :=
  { model with
    superclass := model.superclass.attach.map fun link =>
      ⟨link.1.reference, mapMethods f link.1.model⟩
    interfaces := model.interfaces.attach.map fun link =>
      ⟨link.1.reference, mapMethods f link.1.model⟩
    methods := f model.name model.methods }
termination_by sizeOf model
decreasing_by
  · exact sizeOf_superclass link.2
  · exact sizeOf_interface link.2

end TypeModel

/-- The link to the revised type. -/
def Supertype.mapMethods (f : QualName → List Method → List Method) (link : Supertype TypeModel) :
    Supertype TypeModel :=
  ⟨link.reference, link.model.mapMethods f⟩

/-- The revised type, reached on the same way. -/
def Reached.mapMethods (f : QualName → List Method → List Method) (node : Reached) : Reached :=
  { node with model := node.model.mapMethods f }

namespace TypeModel

variable (f : QualName → List Method → List Method) (model : TypeModel)

theorem mapMethods_eq : model.mapMethods f =
    { model with
      superclass := model.superclass.map (Supertype.mapMethods f)
      interfaces := model.interfaces.map (Supertype.mapMethods f)
      methods := f model.name model.methods } := by
  rw [mapMethods]
  simp only [mk.injEq, true_and, and_true]
  constructor
  · cases model.superclass <;> rfl
  · conv => rhs; rw [← List.attach_map_subtype_val model.interfaces, List.map_map]
    rfl

@[simp] theorem mapMethods_name : (model.mapMethods f).name = model.name := by rw [mapMethods_eq]

@[simp] theorem mapMethods_kind : (model.mapMethods f).kind = model.kind := by rw [mapMethods_eq]

@[simp] theorem mapMethods_typeParameters :
    (model.mapMethods f).typeParameters = model.typeParameters := by rw [mapMethods_eq]

@[simp] theorem mapMethods_superclass :
    (model.mapMethods f).superclass = model.superclass.map (Supertype.mapMethods f) := by
  rw [mapMethods_eq]

@[simp] theorem mapMethods_interfaces :
    (model.mapMethods f).interfaces = model.interfaces.map (Supertype.mapMethods f) := by
  rw [mapMethods_eq]

@[simp] theorem mapMethods_methods : (model.mapMethods f).methods = f model.name model.methods := by
  rw [mapMethods_eq]

@[simp] theorem mapMethods_constructors :
    (model.mapMethods f).constructors = model.constructors := by rw [mapMethods_eq]

theorem mapMethods_supertypes :
    (model.mapMethods f).supertypes = model.supertypes.map (Supertype.mapMethods f) := by
  cases above : model.superclass <;> simp [supertypes, above]

theorem mapMethods_refusal? : (model.mapMethods f).refusal? = model.refusal? := by
  rw [mapMethods_eq]
  rfl

theorem mapMethods_keepsClasses : KeepsClasses (mapMethods f) :=
  ⟨mapMethods_name f, mapMethods_kind f, mapMethods_constructors f, mapMethods_superclass f⟩

/-- The constructors to forward do not depend on methods. -/
theorem mapMethods_constructorObligations :
    (model.mapMethods f).constructorObligations = model.constructorObligations :=
  (mapMethods_keepsClasses f).constructorObligations model

end TypeModel

namespace Hierarchy

variable (f : QualName → List Method → List Method)

theorem newLinks_mapMethods (seen : List QualName) (links : List (Supertype TypeModel × Bool)) :
    newLinks seen (links.map fun link => (link.1.mapMethods f, link.2)) =
      (newLinks seen links).map fun link => (link.1.mapMethods f, link.2) := by
  induction links generalizing seen with
  | nil => rfl
  | cons link rest ih =>
    have sameName : (link.1.mapMethods f).model.name = link.1.model.name :=
      TypeModel.mapMethods_name ..
    simp only [List.map_cons, newLinks, sameName, ih]
    split <;> rfl

theorem above_mapMethods (seen : List QualName) (node : Reached) :
    above seen (node.mapMethods f) = (above seen node).map (Reached.mapMethods f) := by
  have links : (node.mapMethods f).links = node.links.map fun link => (link.1.mapMethods f, link.2) := by
    cases above : node.model.superclass <;>
      simp [Reached.links, Reached.mapMethods, above, Function.comp_def]
  have enter (link : Supertype TypeModel × Bool) :
      (node.mapMethods f).enter (link.1.mapMethods f, link.2) = (node.enter link).mapMethods f := by
    simp [Reached.enter, Reached.mapMethods, Supertype.mapMethods, Supertype.isRaw,
      TypeModel.isGeneric, TypeModel.rawSubstitution, TypeModel.erasureScope, Supertype.substitution,
      TypeModel.substitutionFor]
  rw [above, above, links, newLinks_mapMethods, List.map_map, List.map_map]
  exact List.map_congr_left fun link _ => enter link

/-- The walk upwards does not depend on methods. -/
theorem ofRoot_mapMethods (root : TypeModel) :
    ofRoot (root.mapMethods f) = (ofRoot root).map (Reached.mapMethods f) := by
  have start : Reached.root (root.mapMethods f) = (Reached.root root).mapMethods f := by
    simp [Reached.root, Reached.mapMethods, TypeModel.isInterface]
  have mapped := @walk_map (Reached.mapMethods f) [] (by simp [Reached.mapMethods])
    (fun seen node _ => by rw [List.append_nil]; exact above_mapMethods f seen node)
    [root.name] [Reached.root root] (by simp)
  rw [ofRoot, ofRoot, start, TypeModel.mapMethods_name]
  simpa using mapped

theorem ancestors_mapMethods (model : TypeModel) :
    ancestors (model.mapMethods f) = ancestors model := by
  rw [ancestors, ofRoot_mapMethods, ← List.map_tail, names, List.map_map]
  refine List.map_congr_left fun node _ => ?_
  simp [Reached.mapMethods]

end Hierarchy

end JavaStubs
