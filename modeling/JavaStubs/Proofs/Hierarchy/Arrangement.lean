import JavaStubs.Proofs.Hierarchy.Arguments
import JavaStubs.Proofs.Hierarchy.Revision

namespace JavaStubs

/-- An order for the interfaces of each type. -/
structure Arrangement where
  order : QualName → List (Supertype TypeModel) → List (Supertype TypeModel)
  perm : ∀ name links, (order name links).Perm links

namespace TypeModel

/-- Every type of the hierarchy with its interfaces put in order. -/
def arrange (a : Arrangement) (model : TypeModel) : TypeModel :=
  { model with
    superclass := model.superclass.attach.map fun link =>
      ⟨link.1.reference, arrange a link.1.model⟩
    interfaces := a.order model.name (model.interfaces.attach.map fun link =>
      ⟨link.1.reference, arrange a link.1.model⟩) }
termination_by sizeOf model
decreasing_by
  · exact sizeOf_superclass link.2
  · exact sizeOf_interface link.2

end TypeModel

/-- The types that a lookup knows, with their interfaces put in order. -/
def Arrangement.lookup (a : Arrangement) (lookup : QualName → Option TypeModel) :
    QualName → Option TypeModel :=
  fun name => (lookup name).map (TypeModel.arrange a)

/-- The link to the type with its interfaces put in order. -/
def Supertype.arrange (a : Arrangement) (link : Supertype TypeModel) : Supertype TypeModel :=
  ⟨link.reference, link.model.arrange a⟩

/-- The same type with its interfaces put in order, reached on a way like this one. -/
def Reached.arrange (a : Arrangement) (node : Reached) : Reached :=
  { node with model := node.model.arrange a }

namespace TypeModel

variable (a : Arrangement) (model : TypeModel)

theorem arrange_eq : model.arrange a =
    { model with
      superclass := model.superclass.map (Supertype.arrange a)
      interfaces := a.order model.name (model.interfaces.map (Supertype.arrange a)) } := by
  rw [arrange]
  simp only [mk.injEq, true_and, and_true]
  constructor
  · cases model.superclass <;> rfl
  · congr 1
    conv => rhs; rw [← List.attach_map_subtype_val model.interfaces, List.map_map]
    rfl

@[simp] theorem arrange_name : (model.arrange a).name = model.name := by rw [arrange_eq]

@[simp] theorem arrange_kind : (model.arrange a).kind = model.kind := by rw [arrange_eq]

@[simp] theorem arrange_typeParameters :
    (model.arrange a).typeParameters = model.typeParameters := by rw [arrange_eq]

@[simp] theorem arrange_superclass :
    (model.arrange a).superclass = model.superclass.map (Supertype.arrange a) := by rw [arrange_eq]

@[simp] theorem arrange_methods : (model.arrange a).methods = model.methods := by rw [arrange_eq]

@[simp] theorem arrange_constructors : (model.arrange a).constructors = model.constructors := by
  rw [arrange_eq]

@[simp] theorem arrange_isInterface : (model.arrange a).isInterface = model.isInterface := by
  simp [isInterface]

@[simp] theorem arrange_erasureScope : (model.arrange a).erasureScope = model.erasureScope := by
  simp [erasureScope]

@[simp] theorem arrange_parameterNames :
    (model.arrange a).parameterNames = model.parameterNames := by simp [parameterNames]

@[simp] theorem arrange_substitutionFor (args : List Ty) :
    (model.arrange a).substitutionFor args = model.substitutionFor args := by
  simp [substitutionFor, rawSubstitution]

theorem arrange_interfaces :
    (model.arrange a).interfaces.Perm (model.interfaces.map (Supertype.arrange a)) := by
  rw [arrange_eq]
  exact a.perm ..

theorem arrange_supertypes :
    (model.arrange a).supertypes.Perm (model.supertypes.map (Supertype.arrange a)) := by
  have superclass : (model.superclass.map (Supertype.arrange a)).toList =
      model.superclass.toList.map (Supertype.arrange a) := by cases model.superclass <;> rfl
  rw [supertypes, supertypes, arrange_superclass, superclass, List.map_append]
  exact (model.arrange_interfaces a).append_left _

theorem arrange_refusal? : (model.arrange a).refusal? = model.refusal? := by
  rw [arrange_eq]
  rfl

/-- The constructors to forward do not depend on interfaces. -/
theorem arrange_constructorObligations :
    (model.arrange a).constructorObligations = model.constructorObligations :=
  KeepsClasses.constructorObligations
    ⟨arrange_name a, arrange_kind a, arrange_constructors a, arrange_superclass a⟩ model

variable {a model} {upper : TypeModel}

theorem hasSupertype_arrange : (model.arrange a).HasSupertype upper ↔
    ∃ original, model.HasSupertype original ∧ upper = original.arrange a := by
  simp only [HasSupertype, (model.arrange_supertypes a).mem_iff, List.mem_map]
  constructor
  · rintro ⟨_, ⟨link, member, rfl⟩, rfl⟩
    exact ⟨link.model, ⟨link, member, rfl⟩, rfl⟩
  · rintro ⟨_, ⟨link, member, rfl⟩, rfl⟩
    exact ⟨_, ⟨link, member, rfl⟩, rfl⟩

theorem hasAncestor_arrange : (model.arrange a).HasAncestor upper ↔
    ∃ original, model.HasAncestor original ∧ upper = original.arrange a := by
  constructor
  · intro above
    induction above with
    | single step =>
      obtain ⟨original, first, rfl⟩ := hasSupertype_arrange.mp step
      exact ⟨original, .single first, rfl⟩
    | tail _ step ih =>
      obtain ⟨middle, before, rfl⟩ := ih
      obtain ⟨original, next, rfl⟩ := hasSupertype_arrange.mp step
      exact ⟨original, .tail before next, rfl⟩
  · rintro ⟨original, above, rfl⟩
    induction above with
    | single step => exact .single (hasSupertype_arrange.mpr ⟨_, step, rfl⟩)
    | tail _ step ih => exact .tail ih (hasSupertype_arrange.mpr ⟨_, step, rfl⟩)

theorem reaches_arrange : (model.arrange a).Reaches upper ↔
    ∃ original, model.Reaches original ∧ upper = original.arrange a := by
  simp only [Reaches, Relation.reflTransGen_iff_eq_or_transGen]
  constructor
  · rintro (rfl | above)
    · exact ⟨model, Or.inl rfl, rfl⟩
    · obtain ⟨original, strictly, rfl⟩ := hasAncestor_arrange.mp above
      exact ⟨original, Or.inr strictly, rfl⟩
  · rintro ⟨original, rfl | above, rfl⟩
    · exact Or.inl rfl
    · exact Or.inr (hasAncestor_arrange.mpr ⟨original, above, rfl⟩)

theorem Proper.arrange (proper : model.Proper) : (model.arrange a).Proper where
  distinct := by simpa using proper.distinct
  bounds := by simpa using proper.bounds
  methods := by simpa using proper.methods
  superclass := by
    intro link above
    rw [arrange_superclass] at above
    obtain ⟨original, extended, rfl⟩ := Option.map_eq_some_iff.mp above
    simpa [Supertype.arrange] using proper.superclass original extended
  interfaces := by
    intro link listed
    obtain ⟨original, inside, rfl⟩ := List.mem_map.mp ((arrange_interfaces a model).mem_iff.mp listed)
    simpa [Supertype.arrange] using proper.interfaces original inside
  arguments := by
    intro link listed
    obtain ⟨original, inside, rfl⟩ := List.mem_map.mp ((arrange_supertypes a model).mem_iff.mp listed)
    simpa [Supertype.arrange] using proper.arguments original inside

/-- What linking guarantees does not depend on the order of interfaces. -/
theorem Linked.arrange {root : TypeModel} (linked : root.Linked) (a : Arrangement) :
    (root.arrange a).Linked where
  coherent := by
    intro left right toLeft toRight sameName
    obtain ⟨one, toOne, rfl⟩ := reaches_arrange.mp toLeft
    obtain ⟨two, toTwo, rfl⟩ := reaches_arrange.mp toRight
    rw [linked.coherent one two toOne toTwo (by simpa using sameName)]
  proper := by
    intro model reached
    obtain ⟨original, toOriginal, rfl⟩ := reaches_arrange.mp reached
    exact (linked.proper original toOriginal).arrange

end TypeModel

theorem Hierarchy.mem_ancestors_arrange {model : TypeModel} (linked : model.Linked) (a : Arrangement)
    {name : QualName} : name ∈ ancestors (model.arrange a) ↔ name ∈ ancestors model := by
  rw [mem_ancestors (linked.arrange a).coherent, mem_ancestors linked.coherent]
  constructor
  · rintro ⟨_, above, rfl⟩
    obtain ⟨original, strictly, rfl⟩ := TypeModel.hasAncestor_arrange.mp above
    exact ⟨original, strictly, by simp⟩
  · rintro ⟨original, above, rfl⟩
    exact ⟨_, TypeModel.hasAncestor_arrange.mpr ⟨original, above, rfl⟩, by simp⟩

namespace Reached

theorem root_arrange (a : Arrangement) (root : TypeModel) :
    Reached.root (root.arrange a) = (Reached.root root).arrange a := by
  simp [Reached.root, Reached.arrange]

theorem links_arrange (a : Arrangement) (node : Reached) :
    (node.arrange a).links.Perm (node.links.map fun link => (link.1.arrange a, link.2)) := by
  have superclass : ((node.model.arrange a).superclass.toList.map (·, node.onChain)) =
      (node.model.superclass.toList.map (·, node.onChain)).map
        fun link => (link.1.arrange a, link.2) := by
    cases above : node.model.superclass <;> simp [above]
  have interfaces := ((node.model.arrange_interfaces a).map (·, false)).append_left
    ((node.model.arrange a).superclass.toList.map (·, node.onChain))
  rw [links, links, List.map_append, ← superclass]
  simpa [Reached.arrange, Function.comp_def] using interfaces

theorem enter_arrange (a : Arrangement) (node : Reached) (link : Supertype TypeModel × Bool) :
    (node.arrange a).enter (link.1.arrange a, link.2) = (node.enter link).arrange a := by
  simp [enter, Reached.arrange, Supertype.arrange, Supertype.isRaw, TypeModel.isGeneric,
    TypeModel.rawSubstitution, Supertype.substitution]

end Reached

namespace TypeModel

/-- What is found on the ways up from a root. -/
inductive Meets (root : TypeModel) : Reached → Prop
  | start : Meets root (Reached.root root)
  | enter {node : Reached} {link : Supertype TypeModel × Bool} (met : Meets root node)
    (listed : link ∈ node.links) : Meets root (node.enter link)

variable {root : TypeModel} {a : Arrangement} {path path' : List Nat} {node node' : Reached}

theorem meets_iff : root.Meets node ↔ ∃ path, root.climb path = some node := by
  constructor
  · intro met
    induction met with
    | start => exact ⟨[], rfl⟩
    | enter _ listed ih =>
      obtain ⟨path, led⟩ := ih
      obtain ⟨i, found⟩ := List.mem_iff_getElem?.mp listed
      exact ⟨path ++ [i], Reached.follow_concat.mpr ⟨_, _, led, found, rfl⟩⟩
  · rintro ⟨path, led⟩
    induction path using List.reverseRecOn generalizing node with
    | nil =>
      cases led
      exact .start
    | append_singleton path i ih =>
      obtain ⟨before, link, ledBefore, found, rfl⟩ := Reached.follow_concat.mp led
      exact (ih ledBefore).enter (List.mem_of_getElem? found)

theorem Meets.arrange (met : root.Meets node) (a : Arrangement) :
    (root.arrange a).Meets (node.arrange a) := by
  induction met with
  | start =>
    rw [← Reached.root_arrange]
    exact .start
  | @enter node link _ listed ih =>
    rw [← Reached.enter_arrange]
    exact ih.enter ((Reached.links_arrange a node).mem_iff.mpr (List.mem_map_of_mem listed))

/-- In the other order nothing else is found. -/
theorem Meets.of_arrange (met : (root.arrange a).Meets node') :
    ∃ node, root.Meets node ∧ node' = node.arrange a := by
  induction met with
  | start => exact ⟨_, .start, Reached.root_arrange a root⟩
  | enter _ listed ih =>
    obtain ⟨node, met, rfl⟩ := ih
    obtain ⟨link, inside, rfl⟩ := List.mem_map.mp ((Reached.links_arrange a node).mem_iff.mp listed)
    exact ⟨node.enter link, met.enter inside, Reached.enter_arrange a node link⟩

/-- Every type is reached with the same arguments, and is just as raw, on all paths to it. -/
def Uniform (root : TypeModel) : Prop :=
  ∀ path path' node node', root.climb path = some node → root.climb path' = some node' →
    node'.model = node.model → node'.subst = node.subst ∧ node'.raw = node.raw

/-- The first path is a shortest one. -/
theorem FirstPath.depth_le (first : root.FirstPath path node) (met : root.Meets node')
    (sameName : node'.model.name = node.model.name) : node.depth ≤ node'.depth := by
  obtain ⟨other, led⟩ := meets_iff.mp met
  rw [climb_depth first.leads, climb_depth led]
  rcases first.first other node' led sameName with rfl | later
  · exact Nat.le_refl _
  · exact later.length_le

/-- What is met first is met first in any other order, at the same depth and with the same
arguments. -/
theorem FirstPath.arrange (linked : root.Linked) (uniform : root.Uniform)
    (first : root.FirstPath path node) (a : Arrangement) :
    ∃ path', (root.arrange a).FirstPath path' (node.arrange a) := by
  have reached := Reached.follow_reaches first.leads
  obtain ⟨path', _, first', sameModel⟩ := exists_firstPath (linked.arrange a).coherent
    (reaches_arrange.mpr ⟨node.model, reached, rfl⟩)
  obtain ⟨other, met, rfl⟩ := Meets.of_arrange (meets_iff.mpr ⟨path', first'.leads⟩)
  obtain ⟨way, led⟩ := meets_iff.mp met
  have sameName : other.model.name = node.model.name := by
    simpa [Reached.arrange] using congrArg TypeModel.name sameModel
  have model : other.model = node.model :=
    linked.coherent _ _ (Reached.follow_reaches led) reached sameName
  have arguments := uniform path way node other first.leads led model
  -- Each of the two ways is a shortest one in its order, and each has a counterpart in the other.
  have depth : other.depth = node.depth := by
    have farther := first.depth_le met sameName
    have nearer := first'.depth_le ((meets_iff.mpr ⟨path, first.leads⟩).arrange a)
      (by simpa [Reached.arrange] using sameName.symm)
    simp only [Reached.arrange] at nearer
    omega
  have onChain : other.onChain = node.onChain := by
    rw [(Reached.onChain_spec linked led).1, (Reached.onChain_spec linked first.leads).1, model]
  have same : other = node := by
    obtain ⟨model', subst', raw', depth', onChain'⟩ := other
    obtain ⟨model'', subst'', raw'', depth'', onChain''⟩ := node
    simp only at model arguments depth onChain
    rw [model, arguments.1, arguments.2, depth, onChain]
  exact ⟨path', same ▸ first'⟩

/-- Nothing else is met in the other order. -/
theorem FirstPath.of_arrange (linked : root.Linked) (uniform : root.Uniform)
    (first' : (root.arrange a).FirstPath path' node') :
    ∃ path node, root.FirstPath path node ∧ node' = node.arrange a := by
  obtain ⟨other, met, rfl⟩ := Meets.of_arrange (meets_iff.mpr ⟨path', first'.leads⟩)
  obtain ⟨way, led⟩ := meets_iff.mp met
  obtain ⟨path, node, first, sameModel⟩ :=
    exists_firstPath linked.coherent (Reached.follow_reaches led)
  obtain ⟨_, arranged⟩ := first.arrange linked uniform a
  exact ⟨path, node, first, (arranged.unique first' (by simp [Reached.arrange, sameModel])).2⟩

end TypeModel

end JavaStubs
