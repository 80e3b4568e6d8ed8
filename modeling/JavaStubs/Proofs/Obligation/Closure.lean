import JavaStubs.Proofs.Hierarchy.Walk
import JavaStubs.Proofs.Obligation.Groups
import JavaStubs.Proofs.Obligation.Order
import JavaStubs.Proofs.Types.Capture
import Mathlib

namespace JavaStubs

def Reached.lower (node : Reached) : Reached := { node with depth := node.depth + 1 }

def Inherited.lower (d : Inherited) : Inherited := { d with depth := d.depth + 1 }

def MethodGroup.lower (group : MethodGroup) : MethodGroup :=
  { group with declarations := group.declarations.map Inherited.lower }

def MethodObligation.lower (o : MethodObligation) : MethodObligation := { o with depth := o.depth + 1 }

/-- A method that fulfils an obligation. -/
def MethodObligation.implementation (o : MethodObligation) : Method :=
  { o.method with
    result := o.result, throwing := o.throwing, access := o.access, isAbstract := false }

/-- The constructor as a subclass forwards it. -/
def Constructor.forwarded (c : Constructor) : Constructor := { c with access := .publicAccess }

namespace TypeModel

/-- The link from a type with the same parameters to `root` itself. -/
def selfLink (root : TypeModel) : Supertype TypeModel := ⟨root.selfReference, root⟩

/-- An abstract class below `root` alone, with its parameters, that forwards constructors and
implements methods. -/
def stub (root : TypeModel) (name : QualName) (constructors : List Constructor)
    (implemented : List MethodObligation) : TypeModel where
  name := name
  kind := .abstractClass
  typeParameters := root.typeParameters
  superclass := if root.isInterface then none else some root.selfLink
  interfaces := if root.isInterface then [root.selfLink] else []
  methods := implemented.map MethodObligation.implementation
  constructors := constructors.map Constructor.forwarded

variable {root : TypeModel}

theorem selfLink_isRaw : root.selfLink.isRaw = false := by
  cases parameters : root.typeParameters <;>
    simp [selfLink, Supertype.isRaw, selfReference, isGeneric, parameters]

theorem selfLink_neutral : root.selfLink.substitution.Neutral := by
  intro entry member
  unfold selfLink Supertype.substitution substitutionFor selfReference at member
  split at member
  · rename_i empty
    have none : root.typeParameters = [] := by simpa using empty
    simp [rawSubstitution, none] at member
  · rw [List.zip_map', List.mem_map] at member
    obtain ⟨parameter, _, rfl⟩ := member
    rfl

end TypeModel

namespace Hierarchy

/-- The root as the stub sees it: one level up, with its parameters replaced by themselves. -/
def rootBelow (root : TypeModel) : Reached :=
  { (Reached.root root).lower with
    subst := root.selfLink.substitution.map fun entry => (entry.1, entry.2.subst []) }

variable {root : TypeModel} {name : QualName} {constructors : List Constructor}
  {implemented : List MethodObligation}

theorem rootBelow_neutral : (rootBelow root).subst.Neutral := by
  intro entry member
  obtain ⟨original, inside, rfl⟩ := List.mem_map.mp member
  have itself := TypeModel.selfLink_neutral original inside
  simp [itself]

theorem links_stub :
    (Reached.root (root.stub name constructors implemented)).links =
      [(root.selfLink, !root.isInterface)] := by
  cases kind : root.isInterface <;> simp only [Reached.links, Reached.root, TypeModel.stub, kind] <;> rfl

theorem enter_stub :
    (Reached.root (root.stub name constructors implemented)).enter
      (root.selfLink, !root.isInterface) = rootBelow root := by
  simp only [Reached.enter, Reached.root, Bool.false_or, TypeModel.selfLink_isRaw,
    Bool.false_eq_true, if_false, rootBelow, Reached.lower]
  rfl

theorem above_rootBelow (seen : List QualName) :
    above seen (rootBelow root) = above seen (Reached.root root).lower := by
  have same (ty : Ty) : ty.subst (rootBelow root).subst = ty.subst [] := by
    rw [Ty.subst_neutral rootBelow_neutral, Ty.subst_neutral (by simp [Substitution.Neutral])]
  unfold above
  refine List.map_congr_left fun link _ => ?_
  simp only [Reached.enter, same]
  rfl

theorem above_lower {extras seen : List QualName} {node : Reached}
    (absent : ∀ next ∈ above seen node, next.model.name ∉ extras) :
    above (seen ++ extras) node.lower = (above seen node).map Reached.lower := by
  have unmet : ∀ link ∈ newLinks seen node.links, link.1.model.name ∉ extras := fun link member =>
    absent (node.enter link) (List.mem_map_of_mem member)
  simp only [above, List.map_map]
  rw [show node.lower.links = node.links from rfl, newLinks_append unmet]
  rfl

/-- Other names that were seen and are never met do not change the walk from the root. -/
theorem walk_rootBelow {extras : List QualName} (fresh : ∀ name ∈ extras, name ∉ names (ofRoot root)) :
    walk (root.name :: extras) [rootBelow root] =
      rootBelow root :: (ofRoot root).tail.map Reached.lower := by
  have lowered := @walk_map Reached.lower extras (fun _ => rfl)
    (fun _ _ => above_lower) [root.name] [Reached.root root]
    (fun node visited inside => fresh _ inside (List.mem_map_of_mem visited))
  rw [List.map_singleton, walk_cons, walk_cons, List.map_cons] at lowered
  have rest := (List.cons.inj lowered).2
  unfold ofRoot
  rw [walk_cons, walk_cons [root.name], List.tail_cons, ← rest]
  simp only [above_rootBelow, List.singleton_append]

/-- The walk from a stub is the walk from its root, one level further up. -/
theorem ofRoot_stub (fresh : name ∉ names (ofRoot root)) :
    ofRoot (root.stub name constructors implemented) =
      Reached.root (root.stub name constructors implemented) :: rootBelow root ::
        (ofRoot root).tail.map Reached.lower := by
  have other : name ≠ root.name := by
    intro same
    exact fresh (same ▸ List.mem_map_of_mem (mem_walk_of_mem_queue (List.mem_cons_self ..)))
  have first : above [name] (Reached.root (root.stub name constructors implemented)) =
      [rootBelow root] := by
    unfold above
    rw [links_stub, newLinks, if_neg (by simpa [TypeModel.selfLink] using other.symm), newLinks,
      List.map_singleton, enter_stub]
  have rest := @walk_rootBelow root [name] (by simpa using fresh)
  rw [← rest, ofRoot, walk_cons]
  exact congrArg _ (congrArg₂ walk (congrArg (names · ++ [name]) first) first)

end Hierarchy

namespace Inherited

variable {root : TypeModel} {name : QualName} {constructors : List Constructor}
  {implemented : List MethodObligation}

theorem ofNode_lower (node : Reached) : ofNode node.lower = (ofNode node).map lower := by
  simp [ofNode, Reached.lower, lower, Function.comp_def]

theorem ofNode_rootBelow : ofNode (Hierarchy.rootBelow root) = (ofNode (Reached.root root)).map lower := by
  have same (m : Method) : m.subst (Hierarchy.rootBelow root).subst = m.subst [] := by
    rw [Method.subst_neutral Hierarchy.rootBelow_neutral,
      Method.subst_neutral (by simp [Substitution.Neutral])]
  simp only [ofNode, same, List.map_map]
  rfl

/-- The declaration that a stub makes of an obligation. -/
def ofStub (root : TypeModel) (name : QualName) (constructors : List Constructor)
    (implemented : List MethodObligation) (o : MethodObligation) : Inherited where
  method := o.implementation
  declaredIn := name
  ancestors := Hierarchy.ancestors (root.stub name constructors implemented)
  depth := 0
  onChain := true

theorem ofNode_stub
    (overridable : ∀ o ∈ implemented, o.method.isStatic = false ∧ o.access ≠ .privateAccess) :
    ofNode (Reached.root (root.stub name constructors implemented)) =
      implemented.map (ofStub root name constructors implemented) := by
  have kept : ∀ m ∈ implemented.map MethodObligation.implementation,
      (!m.isStatic && m.access != .privateAccess) = true := by
    intro m member
    obtain ⟨o, chosen, rfl⟩ := List.mem_map.mp member
    obtain ⟨dynamic, visible⟩ := overridable o chosen
    simp [MethodObligation.implementation, dynamic, visible]
  simp only [ofNode, Reached.root, TypeModel.stub]
  rw [List.filter_eq_self.mpr kept, List.map_map]
  refine List.map_congr_left fun o _ => ?_
  simp only [Function.comp_apply, @Method.subst_neutral [] (by simp [Substitution.Neutral])]
  rfl

/-- A stub inherits what its root inherits, and overrides what it implements. -/
theorem all_stub (fresh : name ∉ Hierarchy.names (Hierarchy.ofRoot root))
    (overridable : ∀ o ∈ implemented, o.method.isStatic = false ∧ o.access ≠ .privateAccess) :
    all (root.stub name constructors implemented) =
      implemented.map (ofStub root name constructors implemented) ++ (all root).map lower := by
  have start : Hierarchy.ofRoot root = Reached.root root :: (Hierarchy.ofRoot root).tail := by
    rw [Hierarchy.ofRoot, Hierarchy.walk_cons, List.tail_cons]
  unfold all
  rw [Hierarchy.ofRoot_stub fresh, List.flatMap_cons, List.flatMap_cons, ofNode_stub overridable,
    ofNode_rootBelow, List.flatMap_map]
  conv => rhs; rw [start, List.flatMap_cons, List.map_append, List.map_flatMap]
  simp only [ofNode_lower]

theorem nearest?_lower (declarations : List Inherited) :
    nearest? (declarations.map lower) = (nearest? declarations).map lower := by
  induction declarations with
  | nil => rfl
  | cons d rest ih =>
    simp only [List.map_cons, nearest?, ih]
    cases nearest? rest with
    | none => rfl
    | some other =>
      simp only [Option.map_some, lower, Nat.add_le_add_iff_right]
      split <;> rfl

theorem nearest?_of_depth_zero {d : Inherited} (top : d.depth = 0) (rest : List Inherited) :
    nearest? (d :: rest) = some d := by
  unfold nearest?
  split
  · rfl
  · rw [if_pos (by omega)]

theorem mostSpecific_lower (declarations : List Inherited) :
    mostSpecific (declarations.map lower) = (mostSpecific declarations).map lower := by
  simp only [mostSpecific, List.filter_map, List.any_map, Function.comp_def]
  rfl

end Inherited

namespace MethodGroup

theorem unsatisfied_lower (group : MethodGroup) :
    group.lower.unsatisfied = group.unsatisfied.map Inherited.lower := by
  have classes : group.lower.fromClass? = group.fromClass?.map Inherited.lower := by
    simp only [fromClass?, lower, List.filter_map, ← Inherited.nearest?_lower]
    rfl
  have interfaces : group.lower.fromInterfaces = group.fromInterfaces.map Inherited.lower := by
    simp only [fromInterfaces, lower, List.filter_map, ← Inherited.mostSpecific_lower]
    rfl
  unfold unsatisfied
  rw [classes, interfaces]
  cases group.fromClass? with
  | some d =>
    simp only [Option.map_some]
    rw [show (Inherited.lower d).method = d.method from rfl]
    split <;> rfl
  | none =>
    simp only [Option.map_none]
    rw [show group.lower.key = group.key from rfl]
    split
    · rfl
    · cases group.fromInterfaces with
      | nil => rfl
      | cons first rest =>
        cases rest with
        | nil =>
          simp only [List.map_cons, List.map_nil]
          rw [show (Inherited.lower first).method = first.method from rfl]
          split <;> rfl
        | cons second rest => rfl

theorem unsatisfied_of_implemented {key : SignatureKey} {d : Inherited} {rest : List Inherited}
    (top : d.depth = 0) (onChain : d.onChain = true) (concrete : d.method.isAbstract = false) :
    (⟨key, d :: rest⟩ : MethodGroup).unsatisfied = [] := by
  have nearest : (⟨key, d :: rest⟩ : MethodGroup).fromClass? = some d := by
    unfold fromClass?
    rw [List.filter_cons_of_pos onChain]
    exact Inherited.nearest?_of_depth_zero top _
  unfold unsatisfied
  simp [nearest, concrete]

/-- Declarations in front keep the groups of other keys as they are. -/
theorem gather_append (scope : ErasureScope) (own above : List Inherited) :
    gather scope (own ++ above.map Inherited.lower) =
      ((own.map (·.key scope)).eraseDups.map fun key =>
        ⟨key, (own ++ above.map Inherited.lower).filter fun d => d.key scope = key⟩) ++
      ((gather scope above).filter fun group => group.key ∉ own.map (·.key scope)).map lower := by
  have sameKeys : (above.map Inherited.lower).map (·.key scope) = above.map (·.key scope) := by
    simp only [List.map_map]
    rfl
  have removed (keys known : List SignatureKey) : keys.removeAll known = keys.filter (· ∉ known) := by
    simp [List.removeAll]
  have split : ((own ++ above.map Inherited.lower).map (·.key scope)).eraseDups =
      (own.map (·.key scope)).eraseDups ++
        (above.map (·.key scope)).eraseDups.filter (· ∉ own.map (·.key scope)) := by
    rw [List.map_append, List.eraseDups_append, sameKeys, ← eraseDups_filter, removed]
  unfold gather
  rw [split, List.map_append, List.filter_map, List.map_map]
  congr 1
  refine List.map_congr_left fun key member => ?_
  have absent : key ∉ own.map (·.key scope) := by simpa using (List.mem_filter.mp member).2
  have none : own.filter (fun d => d.key scope = key) = [] := by
    rw [List.filter_eq_nil_iff]
    intro d inside
    simp only [decide_eq_true_eq]
    exact fun same => absent (same ▸ List.mem_map_of_mem inside)
  simp only [List.filter_append, none, List.nil_append, Function.comp_apply, lower, List.filter_map]
  rfl

/-- The groups of a stub: one for each key that it implements, all satisfied, and then those of the
root that are left. -/
theorem ofRoot_stub {root : TypeModel} {name : QualName} {constructors : List Constructor}
    {implemented : List MethodObligation} (fresh : name ∉ Hierarchy.names (Hierarchy.ofRoot root))
    (overridable : ∀ o ∈ implemented, o.method.isStatic = false ∧ o.access ≠ .privateAccess) :
    ∃ done : List MethodGroup, (∀ group ∈ done, group.unsatisfied = []) ∧
      ofRoot (root.stub name constructors implemented) =
        done ++ ((ofRoot root).filter fun group =>
          group.key ∉ implemented.map (·.key root)).map lower := by
  let scope := root.erasureScope
  let own := implemented.map (Inherited.ofStub root name constructors implemented)
  let above := (Inherited.all root).map Inherited.lower
  have ownKeys : own.map (·.key scope) = implemented.map (·.key root) := by
    simp only [own, List.map_map]
    rfl
  have split := gather_append scope own (Inherited.all root)
  rw [ofRoot_eq_gather, ofRoot_eq_gather, Inherited.all_stub fresh overridable]
  rw [← ownKeys]
  refine ⟨_, ?_, split⟩
  -- The stub's own declaration comes first, on the chain and at depth zero.
  intro group member
  obtain ⟨key, inside, rfl⟩ := List.mem_map.mp member
  rw [List.mem_eraseDups] at inside
  obtain ⟨d, chosen, same⟩ := List.mem_map.mp inside
  have kept : d ∈ own.filter fun d => d.key scope = key := by simpa [same] using chosen
  rw [List.filter_append]
  cases first : own.filter fun d => d.key scope = key with
  | nil => simp [first] at kept
  | cons head rest =>
    have origin : head ∈ own := (List.mem_filter.mp (first ▸ List.mem_cons_self ..)).1
    obtain ⟨o, _, rfl⟩ := List.mem_map.mp origin
    exact unsatisfied_of_implemented rfl rfl rfl

end MethodGroup

namespace Collect

variable {lookup : QualName → Option TypeModel} {root : TypeModel} {name : QualName}
  {constructors : List Constructor} {implemented : List MethodObligation}

section Lowered

variable {below : TypeModel}

theorem invisible?_lower (neighbour : below.name.package = root.name.package)
    (candidates : List Inherited) :
    invisible? below (candidates.map Inherited.lower) = none ↔ invisible? root candidates = none := by
  simp only [invisible?, Option.map_eq_none_iff, List.find?_eq_none, List.forall_mem_map, neighbour]
  rfl

theorem agreement_lower (parameters : below.typeParameters = root.typeParameters) (base : Inherited)
    (others : List Inherited) :
    agreement lookup below base.lower (others.map Inherited.lower) =
      agreement lookup root base others := by
  have contractsLower (known : Knowledge) (m : Method) (candidates : List Inherited) :
      contracts known m (candidates.map Inherited.lower) = contracts known m candidates := by
    induction candidates with
    | nil => rfl
    | cons d rest ih =>
      simp only [List.map_cons, contracts, ih]
      rfl
  simp only [agreement, ← List.map_cons, contractsLower, knowledgeFor, parameters]
  rfl

/-- What a group leaves to implement does not change below the root, apart from the depth. -/
theorem resolve_lower (neighbour : below.name.package = root.name.package)
    (parameters : below.typeParameters = root.typeParameters) (group : MethodGroup)
    (found : Option MethodObligation) :
    (resolve lookup below group.lower).value = .ok found ↔
      ∃ original, (resolve lookup root group).value = .ok original ∧
        found = original.map MethodObligation.lower := by
  have lowered := group.unsatisfied_lower
  cases unsatisfied : group.unsatisfied with
  | nil =>
    rw [unsatisfied] at lowered
    rw [resolve_value_nil unsatisfied, resolve_value_nil lowered]
    simp [eq_comm]
  | cons base others =>
    rw [unsatisfied, List.map_cons] at lowered
    have visible := invisible?_lower neighbour (base :: others)
    rw [resolve_value_cons unsatisfied, resolve_value_cons lowered, agreement_lower parameters,
      ← List.map_cons]
    cases seen : invisible? root (base :: others) with
    | none =>
      rw [visible.mpr seen]
      cases agreement lookup root base others with
      | error reason => simp
      | ok contract => simp [eq_comm, obligationOf, MethodObligation.lower, List.foldl_map, Inherited.lower]
    | some refusal =>
      obtain ⟨other, hidden⟩ := Option.ne_none_iff_exists'.mp (mt visible.mp (by simp [seen]))
      rw [hidden]
      simp

theorem owed_lower (neighbour : below.name.package = root.name.package)
    (parameters : below.typeParameters = root.typeParameters) (group : MethodGroup) :
    owed lookup below group.lower = (owed lookup root group).map MethodObligation.lower := by
  ext o
  rw [owed_eq_some, resolve_lower neighbour parameters]
  constructor
  · rintro ⟨original, resolved, same⟩
    rw [owed, resolved, same]
  · intro owes
    obtain ⟨original, owesOriginal, rfl⟩ := Option.map_eq_some_iff.mp owes
    exact ⟨some original, owed_eq_some.mp owesOriginal, rfl⟩

/-- A group is settled below the root if and only if it is settled for the root. -/
theorem settled_lower (neighbour : below.name.package = root.name.package)
    (parameters : below.typeParameters = root.typeParameters) (group : MethodGroup) :
    (resolve lookup below group.lower).value = .ok (owed lookup below group.lower) ↔
      (resolve lookup root group).value = .ok (owed lookup root group) := by
  rw [resolve_lower neighbour parameters, owed_lower neighbour parameters]
  constructor
  · rintro ⟨original, resolved, _⟩
    rw [owed, resolved]
  · exact fun settled => ⟨_, settled, rfl⟩

end Lowered

theorem refusal?_stub : (root.stub name constructors implemented).refusal? = none := rfl

theorem superclasses_stub : (root.stub name constructors implemented).superclasses =
    if root.isInterface then [] else root :: root.superclasses := by
  cases kind : root.isInterface with
  | true => exact TypeModel.superclasses_of_none (by simp [TypeModel.stub, kind])
  | false =>
    have link : (root.stub name constructors implemented).superclass = some root.selfLink := by
      simp [TypeModel.stub, kind]
    rw [TypeModel.superclasses_of_some link]
    rfl

/-- The implicit constructor of a stub calls the one that the root's would call. -/
theorem implicitConstructorFits_stub (neighbour : name.package = root.name.package)
    (accepted : root.refusal? = none) (forwarded : root.constructorObligations = .ok []) :
    (root.stub name [] implemented).implicitConstructorFits = true := by
  unfold TypeModel.implicitConstructorFits
  rw [superclasses_stub]
  cases kind : root.kind with
  | interface => simp [TypeModel.isInterface, kind]
  | concreteClass => simp [TypeModel.refusal?, kind] at accepted
  | abstractClass =>
    unfold TypeModel.constructorObligations at forwarded
    rw [if_neg (by simp [kind])] at forwarded
    cases own : root.constructors with
    | cons first rest =>
      simp only [own, List.isEmpty_cons, Bool.false_eq_true, if_false] at forwarded
      split at forwarded
      · cases forwarded
      · rename_i forwardable nonempty
        exact absurd (Except.ok.inj forwarded) nonempty
    | nil =>
      simp only [own, List.isEmpty_nil, if_true] at forwarded
      have fits : root.implicitConstructorFits = true := by
        by_cases fits : root.implicitConstructorFits = true
        · exact fits
        · simp [fits] at forwarded
      unfold TypeModel.implicitConstructorFits at fits
      have notInterface : root.isInterface = false := by simp [TypeModel.isInterface, kind]
      rw [notInterface, show (root.stub name [] implemented).name.package = root.name.package from
        neighbour]
      simpa [own] using fits

/-- A stub can always be extended: it forwards what its root lets it call. -/
theorem constructorObligations_stub (neighbour : name.package = root.name.package)
    (accepted : root.refusal? = none)
    (forwarded : root.constructorObligations = .ok constructors) :
    (root.stub name constructors implemented).constructorObligations =
      .ok (constructors.map Constructor.forwarded) := by
  have abstractClass : ¬ (root.stub name constructors implemented).kind ≠ .abstractClass := by
    simp [TypeModel.stub]
  have own : (root.stub name constructors implemented).constructors =
      constructors.map Constructor.forwarded := rfl
  unfold TypeModel.constructorObligations
  rw [if_neg abstractClass, own]
  cases constructors with
  | nil => simp [implicitConstructorFits_stub neighbour accepted forwarded]
  | cons first rest =>
    have all : (root.stub name (first :: rest) implemented).accessibleConstructors =
        (first :: rest).map Constructor.forwarded := by
      refine List.filter_eq_self.mpr fun c member => ?_
      obtain ⟨original, _, rfl⟩ := List.mem_map.mp member
      rfl
    simp only [List.map_cons, List.isEmpty_cons, Bool.false_eq_true, if_false] at all ⊢
    rw [all]

/-- Entries of lowered groups, with some keys left out. -/
theorem entriesOf_lower {below : TypeModel} (neighbour : below.name.package = root.name.package)
    (parameters : below.typeParameters = root.typeParameters) (p : SignatureKey → Bool)
    (groups : List MethodGroup) :
    entriesOf lookup below ((groups.filter fun group => p group.key).map MethodGroup.lower) =
      ((entriesOf lookup root groups).filter fun entry => p entry.1).map fun entry =>
        (entry.1, entry.2.lower) := by
  induction groups with
  | nil => rfl
  | cons group groups ih =>
    have first := @owed_lower lookup root below neighbour parameters group
    unfold entriesOf at ih ⊢
    cases keep : p group.key with
    | false =>
      rw [List.filter_cons_of_neg (by simp [keep]), ih]
      cases owes : owed lookup root group <;> simp [owes, keep]
    | true =>
      have sameKey : group.lower.key = group.key := rfl
      rw [List.filter_cons_of_pos (by simp [keep]), List.map_cons]
      cases owes : owed lookup root group <;> simp [owes, keep, first, ih, sameKey]

/-- A type below the root settles what the root settles, apart from groups that it satisfies. -/
theorem resolveAll_lower {below : TypeModel} (neighbour : below.name.package = root.name.package)
    (parameters : below.typeParameters = root.typeParameters) {p : SignatureKey → Bool}
    {done groups : List MethodGroup} (satisfied : ∀ group ∈ done, group.unsatisfied = [])
    {entries : List (SignatureKey × MethodObligation)} :
    (resolveAll lookup below
        (done ++ (groups.filter fun group => p group.key).map MethodGroup.lower)).value = .ok entries ↔
      (∀ group ∈ groups, p group.key = true →
        (resolve lookup root group).value = .ok (owed lookup root group)) ∧
      entries = ((entriesOf lookup root groups).filter fun entry => p entry.1).map fun entry =>
        (entry.1, entry.2.lower) := by
  have nothing : ∀ group ∈ done, (resolve lookup below group).value = .ok none := fun group member =>
    resolve_value_nil (satisfied group member)
  have noEntries : entriesOf lookup below done = [] := by
    refine List.filterMap_eq_nil_iff.mpr fun group member => ?_
    simp [owed, nothing group member]
  have others := @entriesOf_lower lookup root below neighbour parameters p groups
  unfold entriesOf at noEntries others
  rw [resolveAll_value, entriesOf, List.filterMap_append, noEntries, List.nil_append, others]
  refine and_congr_left fun _ => ?_
  simp only [List.forall_mem_append, List.forall_mem_map, List.mem_filter, and_imp,
    settled_lower neighbour parameters]
  refine and_iff_right fun group member => ?_
  rw [owed, nothing group member]

/-- A stub owes the entries of its root that it does not implement. -/
theorem entriesOf_stub (fresh : name ∉ Hierarchy.names (Hierarchy.ofRoot root))
    (neighbour : name.package = root.name.package)
    (overridable : ∀ o ∈ implemented, o.method.isStatic = false ∧ o.access ≠ .privateAccess)
    (settled : ∀ group ∈ MethodGroup.ofRoot root,
      (resolve lookup root group).value = .ok (owed lookup root group)) :
    (resolveAll lookup (root.stub name constructors implemented)
        (MethodGroup.ofRoot (root.stub name constructors implemented))).value =
      .ok (((entriesOf lookup root (MethodGroup.ofRoot root)).filter fun entry =>
        entry.1 ∉ implemented.map (·.key root)).map fun entry => (entry.1, entry.2.lower)) := by
  obtain ⟨done, satisfied, groups⟩ := MethodGroup.ofRoot_stub fresh overridable
  rw [groups]
  exact (@resolveAll_lower lookup root (root.stub name constructors implemented) neighbour rfl
    (· ∉ implemented.map (·.key root)) _ _ satisfied _).mpr
    ⟨fun group member _ => settled group member, rfl⟩

end Collect

namespace Collect

variable {lookup : QualName → Option TypeModel} {root : TypeModel}

/-- Keys tell obligations apart: leaving out the keys of some is leaving out these. -/
theorem key_mem_iff {chosen : List MethodObligation} {entry : SignatureKey × MethodObligation}
    (within : ∀ o ∈ chosen,
      o ∈ (entriesOf lookup root (MethodGroup.ofRoot root)).map Prod.snd)
    (member : entry ∈ entriesOf lookup root (MethodGroup.ofRoot root)) :
    entry.1 ∈ chosen.map (·.key root) ↔ entry.2 ∈ chosen := by
  constructor
  · intro known
    obtain ⟨o, picked, sameKey⟩ := List.mem_map.mp known
    obtain ⟨other, present, rfl⟩ := List.mem_map.mp (within o picked)
    rw [entry_key present] at sameKey
    have same : other = entry := List.inj_on_of_nodup_map keys_distinct present member sameKey
    exact same ▸ picked
  · intro picked
    exact entry_key member ▸ List.mem_map_of_mem picked

theorem comesBefore_lower (a b : SignatureKey × MethodObligation) :
    comesBefore a b = comesBefore (a.1, a.2.lower) (b.1, b.2.lower) := by
  have depths : compare (a.2.depth + 1) (b.2.depth + 1) = compare a.2.depth b.2.depth := by
    simp [compare, compareOfLessAndEq]
  simp only [comesBefore, MethodObligation.lower, depths]

/-- What collecting says of a stub, in terms of the entries of its root. -/
theorem obligations_stub {name : QualName} {constructors : List Constructor}
    {entries : List (SignatureKey × MethodObligation)} {chosen : List MethodObligation}
    (fresh : name ∉ Hierarchy.names (Hierarchy.ofRoot root))
    (neighbour : name.package = root.name.package) (accepted : root.refusal? = none)
    (forwarded : root.constructorObligations = .ok constructors)
    (resolved : (resolveAll lookup root (MethodGroup.ofRoot root)).value = .ok entries)
    (within : ∀ o ∈ chosen, o ∈ entries.map Prod.snd) :
    (obligations lookup (root.stub name constructors chosen)).value =
      .ok ((constructors.map Constructor.forwarded).map .constructor ++
        ((((entries.mergeSort comesBefore).map Prod.snd).filter (· ∉ chosen)).map
          MethodObligation.lower).map .method) := by
  obtain ⟨settled, rfl⟩ := resolveAll_value.mp resolved
  have overridable : ∀ o ∈ chosen, o.method.isStatic = false ∧ o.access ≠ .privateAccess := by
    intro o picked
    obtain ⟨entry, member, rfl⟩ := List.mem_map.mp (within o picked)
    exact entry_overridable member
  refine obligations_value.mpr ⟨refusal?_stub, _, _,
    constructorObligations_stub neighbour accepted forwarded,
    entriesOf_stub fresh neighbour overridable settled, ?_⟩
  let lowered (entry : SignatureKey × MethodObligation) := (entry.1, entry.2.lower)
  have sameOrder (items : List (SignatureKey × MethodObligation)) :
      (items.map lowered).mergeSort comesBefore = (items.mergeSort comesBefore).map lowered :=
    (List.map_mergeSort fun a _ b _ => comesBefore_lower a b).symm
  have kept : ((entriesOf lookup root (MethodGroup.ofRoot root)).mergeSort comesBefore).filter
      (fun entry => entry.1 ∉ chosen.map (·.key root)) =
        ((entriesOf lookup root (MethodGroup.ofRoot root)).mergeSort comesBefore).filter
          (fun entry => entry.2 ∉ chosen) := by
    refine List.filter_congr fun entry member => ?_
    rw [decide_eq_decide]
    exact not_congr (key_mem_iff within (List.mem_mergeSort.mp member))
  rw [sameOrder, ← filter_mergeSort _ comesBefore_trans comesBefore_total, kept]
  simp [List.filter_map, Function.comp_def, lowered]

end Collect

/-- A stub that implements some of what its root owes, whatever it chooses and in whatever order,
owes exactly the rest in the same order, one level further up. So a stub that implements all owes
no method, and one that leaves a single method out owes that one. -/
theorem stub_owes_rest {lookup : QualName → Option TypeModel} {root : TypeModel}
    {obs : List Obligation} {name : QualName}
    (collected : (obligations lookup root).value = .ok obs)
    (fresh : name ∉ Hierarchy.names (Hierarchy.ofRoot root))
    (neighbour : name.package = root.name.package) :
    let collect := fun chosen => (obligations lookup (root.stub name (constructorsOf obs) chosen)).value
    let forwarded := ((constructorsOf obs).map Constructor.forwarded).map Obligation.constructor
    (∀ chosen, (∀ o ∈ chosen, o ∈ methodsOf obs) → collect chosen =
      .ok (forwarded ++ (((methodsOf obs).filter (· ∉ chosen)).map MethodObligation.lower).map .method)) ∧
    collect (methodsOf obs) = .ok forwarded ∧
    ∀ o ∈ methodsOf obs, collect ((methodsOf obs).erase o) = .ok (forwarded ++ [.method o.lower]) := by
  intro collect forwarded
  have distinct := methodsOf_nodup collected
  have rest : ∀ chosen, (∀ o ∈ chosen, o ∈ methodsOf obs) → collect chosen =
      .ok (forwarded ++
        (((methodsOf obs).filter (· ∉ chosen)).map MethodObligation.lower).map .method) := by
    intro chosen within
    obtain ⟨accepted, forwardable, entries, resolved, methods⟩ := collected_parts collected
    rw [methods] at within ⊢
    refine Collect.obligations_stub fresh neighbour accepted forwardable resolved fun o picked => ?_
    simpa using within o picked
  refine ⟨rest, ?_, ?_⟩
  · rw [rest _ fun o member => member]
    simp
  · intro o owed
    rw [rest _ fun other member => List.mem_of_mem_erase member]
    have only : (methodsOf obs).filter (· ∉ (methodsOf obs).erase o) = [o] := by
      have same : (methodsOf obs).filter (· ∉ (methodsOf obs).erase o) =
          (methodsOf obs).filter (· == o) := by
        refine List.filter_congr fun other member => ?_
        by_cases equal : other = o
        · simp [equal, distinct.not_mem_erase]
        · simp [equal, distinct.mem_erase_iff, member]
      rw [same, List.filter_beq, List.count_eq_one_of_mem distinct owed, List.replicate_one]
    rw [only]
    rfl

/-- What a subclass of `consumer` owes: `void accept(T)`. -/
def acceptance : MethodObligation where
  method := { name := "accept", owner := ⟨"Consumer"⟩, parameters := [.var "T"], isAbstract := true }
  result := .void
  throwing := []
  access := .publicAccess
  depth := 0

/-- A generic interface with one method. -/
def consumer : TypeModel where
  name := ⟨"Consumer"⟩
  kind := .interface
  typeParameters := [⟨"T", []⟩]
  methods := [acceptance.method]

theorem consumer_stub_owes_rest :
    (obligations (fun _ => none) (consumer.stub ⟨"Sink"⟩ [] [acceptance])).value = .ok [] ∧
      (obligations (fun _ => none) (consumer.stub ⟨"Sink"⟩ [] [])).value =
        .ok [.method acceptance.lower] := by
  have collected : (obligations (fun _ => none) consumer).value = .ok [.method acceptance] := by cbv
  have visited : Hierarchy.names (Hierarchy.ofRoot consumer) = [⟨"Consumer"⟩] := by cbv
  have fresh : ⟨"Sink"⟩ ∉ Hierarchy.names (Hierarchy.ofRoot consumer) := by
    rw [visited]
    decide
  have neighbour : (⟨"Sink"⟩ : QualName).package = consumer.name.package := by cbv
  obtain ⟨_, all, each⟩ := stub_owes_rest collected fresh neighbour
  exact ⟨all, each acceptance (by decide)⟩

end JavaStubs
