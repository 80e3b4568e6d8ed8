import JavaStubs.Proofs.Obligation.Closure
import JavaStubs.Proofs.Stub.Emission

namespace JavaStubs

namespace TypeModel

/-- `java.lang.Object` as the standard library has it. -/
def standardObject : TypeModel := Linking.modelOf StandardLibrary.object none []

/-- An abstract class without members that implements `root` with its own parameters. -/
def shell (root : TypeModel) (name : QualName) : TypeModel where
  name := name
  kind := .abstractClass
  typeParameters := root.typeParameters
  superclass := some ⟨⟨.object, []⟩, standardObject⟩
  interfaces := [root.selfLink]

theorem constructorObligations_shell (root : TypeModel) (name : QualName) :
    (root.shell name).constructorObligations = .ok [] := by
  have fits : (root.shell name).implicitConstructorFits = true := by
    rw [implicitConstructorFits, superclasses_of_some rfl, superclasses_of_none rfl]
    rfl
  rw [constructorObligations, if_neg (by simp [shell]), if_pos (by simp [shell]), if_pos fits]

/-- Where types are told apart by their names, only the superclass of a shell is called
`java.lang.Object`. -/
theorem Coherent.standard {root model : TypeModel} {name : QualName}
    (coherent : (root.shell name).Coherent) (reached : root.Reaches model)
    (named : model.name = .object) : model = standardObject := by
  have implemented : (root.shell name).HasSupertype root :=
    ⟨root.selfLink, by simp [supertypes, shell], rfl⟩
  have extended : (root.shell name).HasSupertype standardObject :=
    ⟨⟨⟨.object, []⟩, standardObject⟩, by simp [supertypes, shell], rfl⟩
  exact coherent model standardObject (.head implemented reached) (.single extended) named

/-- An interface whose hierarchy knows neither `java.lang.Object` nor a name. -/
structure Wrappable (root : TypeModel) (name : QualName) : Prop where
  kind : root.kind = .interface
  absent : QualName.object ∉ Hierarchy.names (Hierarchy.ofRoot root)
  fresh : name ∉ Hierarchy.names (Hierarchy.ofRoot root)
  other : name ≠ .object

/-- What is above an interface are interfaces. -/
theorem isInterface_of_reaches {root model : TypeModel}
    (wellFormed : ∀ model, root.Reaches model → model.WellFormed) (kind : root.kind = .interface)
    (reached : root.Reaches model) : model.kind = .interface := by
  induction reached with
  | refl => exact kind
  | @tail model upper reached step ih =>
    obtain ⟨link, above, rfl⟩ := step
    have sound := wellFormed model reached
    have none : model.superclass = none := by
      have lawful := sound.declared.lawful.interfaces ih
      simpa [declaration] using lawful.2.2
    have implemented : link ∈ model.interfaces := by simpa [supertypes, none] using above
    exact (sound.interfaces link implemented).isInterface

end TypeModel

namespace Hierarchy

variable {root : TypeModel} {name : QualName}

theorem above_shell (wrappable : root.Wrappable name) : above [name] (Reached.root (root.shell name)) =
    [(Reached.root TypeModel.standardObject).lower, rootBelow root] := by
  have visited : root.name ∈ names (ofRoot root) :=
    List.mem_map_of_mem (mem_walk_of_mem_queue (List.mem_cons_self ..))
  have apart : root.name ≠ name := fun same => wrappable.fresh (same ▸ visited)
  have notObject : root.name ≠ .object := fun same => wrappable.absent (same ▸ visited)
  have isInterface : root.isInterface = true := by simp [TypeModel.isInterface, wrappable.kind]
  have links : (Reached.root (root.shell name)).links =
      [(⟨⟨.object, []⟩, TypeModel.standardObject⟩, true), (root.selfLink, false)] := rfl
  have enterRoot : (Reached.root (root.shell name)).enter (root.selfLink, false) = rootBelow root := by
    simp only [Reached.enter, Reached.root, Bool.false_or, TypeModel.selfLink_isRaw, Bool.false_eq_true,
      if_false, rootBelow, Reached.lower, isInterface, Bool.not_true]
    rfl
  have named : TypeModel.standardObject.name = .object := rfl
  rw [above, links, newLinks, if_neg (by simpa [named] using wrappable.other.symm), newLinks,
    if_neg (by simpa [named, TypeModel.selfLink] using ⟨notObject, apart⟩), newLinks, List.map_cons,
    List.map_singleton, enterRoot]
  rfl

/-- The walk from a shell meets `java.lang.Object`, and then what the walk from the interface meets. -/
theorem ofRoot_shell (wrappable : root.Wrappable name) :
    ofRoot (root.shell name) = Reached.root (root.shell name) ::
      (Reached.root TypeModel.standardObject).lower :: rootBelow root ::
        (ofRoot root).tail.map Reached.lower := by
  have rest := @walk_rootBelow root [.object, name]
    (by simpa using ⟨wrappable.absent, wrappable.fresh⟩)
  -- The interface was seen after `java.lang.Object`, which makes no difference.
  have reordered := walk_congr [.object, root.name, name] [rootBelow root] (root.name :: [.object, name])
    (fun other => by simp only [List.mem_cons]; tauto)
  rw [← rest, ← reordered, ofRoot]
  change walk [name] [_] = _
  rw [walk_cons, above_shell wrappable]
  change _ :: walk [.object, root.name, name] [_, rootBelow root] = _
  rw [walk_cons]
  rfl

/-- Off the superclass chain there is no way back to it. -/
theorem offChain_walk {seen : List QualName} {queue : List Reached}
    (offChain : ∀ node ∈ queue, node.onChain = false) :
    ∀ node ∈ walk seen queue, node.onChain = false := by
  fun_induction walk seen queue with
  | case1 => simp
  | case2 seen node queue next ih =>
    obtain ⟨own, others⟩ := List.forall_mem_cons.mp offChain
    have later : ∀ other ∈ next, other.onChain = false := by
      intro other above
      obtain ⟨link, new, rfl⟩ := List.mem_map.mp above
      obtain ⟨entries, positions, _, found, _⟩ := newLinks_positions seen node.links
      rw [positions] at new
      obtain ⟨entry, inside, rfl⟩ := List.mem_map.mp new
      have listed := List.mem_of_getElem? (found entry inside)
      simp only [Reached.links, List.mem_append, List.mem_map, own] at listed
      rcases listed with ⟨_, _, same⟩ | ⟨_, _, same⟩ <;> exact (congrArg Prod.snd same).symm
    refine List.forall_mem_cons.mpr ⟨own, ih ?_⟩
    exact List.forall_mem_append.mpr ⟨others, later⟩

end Hierarchy

namespace Inherited

variable {root : TypeModel} {name : QualName}

/-- What a class right below `java.lang.Object` inherits from it. -/
def ofObject : List Inherited := (ofNode (Reached.root TypeModel.standardObject)).map lower

theorem all_shell (wrappable : root.Wrappable name) :
    all (root.shell name) = ofObject ++ (all root).map lower := by
  have start : Hierarchy.ofRoot root = Reached.root root :: (Hierarchy.ofRoot root).tail := by
    rw [Hierarchy.ofRoot, Hierarchy.walk_cons, List.tail_cons]
  unfold all
  rw [Hierarchy.ofRoot_shell wrappable, List.flatMap_cons, List.flatMap_cons,
    List.flatMap_cons, ofNode_lower, ofNode_rootBelow, List.flatMap_map]
  conv => rhs; rw [start, List.flatMap_cons, List.map_append, List.map_flatMap]
  simp only [ofNode_lower]
  rfl

theorem exists_nearest? {declarations : List Inherited} (some : declarations ≠ []) :
    ∃ d, nearest? declarations = .some d := by
  cases declarations with
  | nil => exact absurd rfl some
  | cons d rest =>
    unfold nearest?
    split
    · exact ⟨d, rfl⟩
    · split <;> exact ⟨_, rfl⟩

theorem mem_ofObject {d : Inherited} (declared : d ∈ ofObject) :
    d.onChain = true ∧ d.method ∈ TypeModel.standardObject.methods := by
  obtain ⟨above, inside, rfl⟩ := List.mem_map.mp declared
  obtain ⟨m, kept, rfl⟩ := List.mem_map.mp inside
  refine ⟨rfl, ?_⟩
  have same : m.subst [] = m := Method.subst_neutral (by simp [Substitution.Neutral]) m
  change m.subst [] ∈ _
  rw [same]
  exact (List.mem_filter.mp kept).1

/-- What an interface inherits lies on no superclass chain. -/
theorem onChain_of_interface (kind : root.kind = .interface) {d : Inherited} (inherited : d ∈ all root) :
    d.onChain = false := by
  obtain ⟨node, met, inside⟩ := List.mem_flatMap.mp inherited
  obtain ⟨m, _, rfl⟩ := List.mem_map.mp inside
  refine Hierarchy.offChain_walk (fun node queued => ?_) node met
  rw [List.mem_singleton.mp queued]
  simp [Reached.root, TypeModel.isInterface, kind]

end Inherited

/-- The name and the erased parameters of a method, as a scope sees them. -/
def Method.key (scope : ErasureScope) (m : Method) : SignatureKey := ⟨m.name, m.erasedParameters scope⟩

/-- Of the methods of `java.lang.Object`, a root inherits further declarations of `equals`, `hashCode`
and `toString` at most. -/
def TypeModel.SharesWithObject (root : TypeModel) : Prop :=
  ∀ d ∈ Inherited.all root, ∀ m ∈ standardObject.methods,
    d.key root.erasureScope = m.key root.erasureScope → m.name ∈ ["equals", "hashCode", "toString"]

namespace MethodGroup

variable {root : TypeModel} {name : QualName}

/-- The methods of `java.lang.Object` that an interface may declare again. -/
theorem isObjectMethod_key {m : Method} (declared : m ∈ TypeModel.standardObject.methods)
    (shared : m.name ∈ ["equals", "hashCode", "toString"]) (scope : ErasureScope) :
    isObjectMethod (m.key scope) = true := by
  simp only [TypeModel.standardObject, Linking.modelOf, StandardLibrary.object, List.mem_cons,
    List.not_mem_nil, or_false] at declared
  rcases declared with rfl | rfl | rfl | rfl | rfl | rfl | rfl | rfl | rfl
  · rfl
  · rfl
  · rfl
  all_goals simp at shared

theorem unsatisfied_of_chain {group : MethodGroup} (met : ∃ d ∈ group.declarations, d.onChain = true)
    (concrete : ∀ d ∈ group.declarations, d.onChain = true → d.method.isAbstract = false) :
    group.unsatisfied = [] := by
  obtain ⟨d, declared, onChain⟩ := met
  have member : d ∈ group.declarations.filter Inherited.onChain :=
    List.mem_filter.mpr ⟨declared, onChain⟩
  obtain ⟨nearest, found⟩ := Inherited.exists_nearest? (List.ne_nil_of_mem member)
  have origin := List.mem_filter.mp (nearest?_mem found)
  have done := concrete nearest origin.1 origin.2
  unfold unsatisfied fromClass?
  simp [found, done]

/-- An interface leaves nothing to implement of what every object has. -/
theorem unsatisfied_of_object (kind : root.kind = .interface) {group : MethodGroup}
    (listed : group ∈ ofRoot root) (object : isObjectMethod group.key = true) : group.unsatisfied = [] := by
  have declared : ∀ d ∈ group.declarations, d ∈ Inherited.all root := by
    rw [ofRoot_eq_gather] at listed
    rw [(mem_gather.mp listed).2]
    exact fun d inside => (List.mem_filter.mp inside).1
  have classless : group.fromClass? = none := by
    have none : group.declarations.filter Inherited.onChain = [] := by
      rw [List.filter_eq_nil_iff]
      intro d inside
      simp [Inherited.onChain_of_interface kind (declared d inside)]
    rw [fromClass?, none]
    rfl
  unfold unsatisfied
  rw [classless]
  simp [object]

/-- The groups of a shell: those of `java.lang.Object`, all satisfied, and then those of the interface
under other keys. -/
theorem ofRoot_shell (wrappable : root.Wrappable name) :
    ∃ done : List MethodGroup, (∀ group ∈ done, group.unsatisfied = []) ∧
      ofRoot (root.shell name) = done ++ ((ofRoot root).filter fun group =>
        group.key ∉ Inherited.ofObject.map (·.key root.erasureScope)).map lower := by
  let scope := root.erasureScope
  have split := gather_append scope Inherited.ofObject (Inherited.all root)
  rw [ofRoot_eq_gather, ofRoot_eq_gather, Inherited.all_shell wrappable]
  refine ⟨_, ?_, split⟩
  intro group member
  obtain ⟨key, inside, rfl⟩ := List.mem_map.mp member
  rw [List.mem_eraseDups] at inside
  obtain ⟨d, declared, same⟩ := List.mem_map.mp inside
  refine unsatisfied_of_chain ⟨d, ?_, (Inherited.mem_ofObject declared).1⟩ fun e kept onChain => ?_
  · exact List.mem_filter.mpr ⟨List.mem_append_left _ declared, by simpa using same⟩
  · -- What the interface declares is off the chain.
    rcases List.mem_append.mp (List.mem_filter.mp kept).1 with own | above
    · have concrete : ∀ m ∈ TypeModel.standardObject.methods, m.isAbstract = false := by decide
      exact concrete _ (Inherited.mem_ofObject own).2
    · obtain ⟨original, inherited, rfl⟩ := List.mem_map.mp above
      have offChain := Inherited.onChain_of_interface wrappable.kind inherited
      exact absurd (offChain.symm.trans onChain) (by decide)

end MethodGroup

namespace Collect

variable {lookup : QualName → Option TypeModel} {root : TypeModel} {name : QualName}

/-- Resolving the groups of a shell succeeds if it does for the interface, with the same entries one
level further up. -/
theorem resolveAll_shell (wrappable : root.Wrappable name)
    (neighbour : name.package = root.name.package) (sharing : root.SharesWithObject)
    {entries : List (SignatureKey × MethodObligation)} :
    (resolveAll lookup (root.shell name) (MethodGroup.ofRoot (root.shell name))).value = .ok entries ↔
      ∃ originals, (resolveAll lookup root (MethodGroup.ofRoot root)).value = .ok originals ∧
        entries = originals.map fun entry => (entry.1, entry.2.lower) := by
  obtain ⟨done, satisfied, groups⟩ := MethodGroup.ofRoot_shell wrappable
  let keys := Inherited.ofObject.map (·.key root.erasureScope)
  have shared : ∀ group ∈ MethodGroup.ofRoot root, group.key ∈ keys → group.unsatisfied = [] := by
    intro group listed among
    obtain ⟨d, declared, same⟩ := List.mem_map.mp among
    have found := (Inherited.mem_ofObject declared).2
    have listed' := listed
    rw [MethodGroup.ofRoot_eq_gather] at listed'
    obtain ⟨e, inherited, sameKey⟩ := (MethodGroup.mem_gather.mp listed').1
    have named := sharing e inherited d.method found (sameKey.trans same.symm)
    refine MethodGroup.unsatisfied_of_object wrappable.kind listed ?_
    rw [← same]
    exact MethodGroup.isObjectMethod_key found named root.erasureScope
  have settled : ∀ group ∈ MethodGroup.ofRoot root, group.key ∈ keys →
      (resolve lookup root group).value = .ok (owed lookup root group) := by
    intro group listed among
    rw [owed, resolve_value_nil (shared group listed among)]
  have kept : (entriesOf lookup root (MethodGroup.ofRoot root)).filter (fun entry => entry.1 ∉ keys) =
      entriesOf lookup root (MethodGroup.ofRoot root) := by
    refine List.filter_eq_self.mpr fun entry member => ?_
    obtain ⟨group, listed, sameKey, owes⟩ := mem_entriesOf.mp member
    have outside : group.key ∉ keys := by
      intro among
      rw [owed, resolve_value_nil (shared group listed among)] at owes
      cases owes
    simpa [← sameKey] using outside
  rw [groups, @resolveAll_lower lookup root (root.shell name) neighbour rfl (· ∉ keys) _ _ satisfied, kept]
  constructor
  · rintro ⟨others, rfl⟩
    refine ⟨_, resolveAll_value.mpr ⟨fun group listed => ?_, rfl⟩, rfl⟩
    by_cases among : group.key ∈ keys
    · exact settled group listed among
    · exact others group listed (by simpa using among)
  · rintro ⟨originals, resolved, rfl⟩
    obtain ⟨all, rfl⟩ := resolveAll_value.mp resolved
    exact ⟨fun group listed _ => all group listed, rfl⟩

/-- What collecting says of a shell, in terms of the interface. -/
theorem obligations_shell (accepted : root.refusal? = none) (wrappable : root.Wrappable name)
    (neighbour : name.package = root.name.package) (sharing : root.SharesWithObject)
    {obs : List Obligation} : (obligations lookup (root.shell name)).value = .ok obs ↔
      ∃ direct, (obligations lookup root).value = .ok direct ∧
        obs = ((methodsOf direct).map MethodObligation.lower).map .method := by
  let lowered (entry : SignatureKey × MethodObligation) := (entry.1, entry.2.lower)
  have written (originals : List (SignatureKey × MethodObligation)) :
      ((originals.map lowered).mergeSort comesBefore).map (fun entry => Obligation.method entry.2) =
        (((originals.mergeSort comesBefore).map Prod.snd).map MethodObligation.lower).map .method := by
    rw [← List.map_mergeSort fun a _ b _ => comesBefore_lower a b]
    simp [Function.comp_def]
  have noConstructors : root.constructorObligations = .ok [] := by
    simp [TypeModel.constructorObligations, wrappable.kind]
  have resolved := @resolveAll_shell lookup root name wrappable neighbour sharing
  rw [obligations_value]
  constructor
  · rintro ⟨_, constructors, entries, forwarded, settled, rfl⟩
    rw [TypeModel.constructorObligations_shell] at forwarded
    cases forwarded
    obtain ⟨originals, found, rfl⟩ := resolved.mp settled
    have direct := obligations_value.mpr ⟨accepted, [], originals, noConstructors, found, rfl⟩
    obtain ⟨_, _, entries, again, methods⟩ := collected_parts direct
    cases found.symm.trans again
    exact ⟨_, direct, by rw [methods]; exact written originals⟩
  · rintro ⟨direct, collected, rfl⟩
    obtain ⟨_, _, originals, found, methods⟩ := collected_parts collected
    refine ⟨rfl, [], originals.map lowered, TypeModel.constructorObligations_shell root name,
      resolved.mpr ⟨originals, found, rfl⟩, ?_⟩
    rw [methods]
    exact (written originals).symm

end Collect

/-- An interface and the empty abstract class behind which it is put owe the same. Collecting fails for
both or for neither, and what the class owes are the methods that the interface asks for, in the same
order and one level further up. For this no other type may go by the name of the class or of its
superclass, which none does once the class has been resolved. -/
theorem shell_owes_same {lookup : QualName → Option TypeModel} {fs : FileSystem} {resolver : Resolver}
    {asked name : QualName} {root : TypeModel} (opened : resolver.Opened)
    (resolved : (resolver.resolve fs asked).1 = .ok root) (kind : root.kind = .interface)
    (accessible : root.access ≠ .privateAccess)
    (standard : ∀ model, root.Reaches model → model.name = .object → model = .standardObject)
    (sharing : root.SharesWithObject) (neighbour : name.package = root.name.package)
    (fresh : name ∉ QualName.object :: Hierarchy.names (Hierarchy.ofRoot root)) :
    ((∃ obs, (obligations lookup (root.shell name)).value = .ok obs) ↔
      ∃ obs, (obligations lookup root).value = .ok obs) ∧
    ∀ obs, (obligations lookup root).value = .ok obs → (obligations lookup (root.shell name)).value =
      .ok (((methodsOf obs).map MethodObligation.lower).map .method) := by
  have wellFormed := (resolved_wellFormed opened resolved).2
  have accepted : root.refusal? = none := by
    have notFinal : root.isFinal = false := ((wellFormed root .refl).declared.lawful.interfaces kind).1
    simp [TypeModel.refusal?, kind, notFinal, TypeModel.isAccessible, accessible]
  have absent : QualName.object ∉ Hierarchy.names (Hierarchy.ofRoot root) := by
    intro met
    obtain ⟨node, visited, named⟩ := List.mem_map.mp met
    have reached := Hierarchy.reaches_of_mem_ofRoot visited
    have isInterface := TypeModel.isInterface_of_reaches wellFormed kind reached
    rw [standard node.model reached named] at isInterface
    cases isInterface
  obtain ⟨other, unmet⟩ : name ≠ .object ∧ name ∉ Hierarchy.names (Hierarchy.ofRoot root) := by
    simpa using fresh
  have same := fun obs =>
    @Collect.obligations_shell lookup root name accepted ⟨kind, absent, unmet, other⟩ neighbour sharing obs
  constructor
  · constructor
    · rintro ⟨obs, collected⟩
      obtain ⟨direct, found, _⟩ := (same obs).mp collected
      exact ⟨direct, found⟩
    · rintro ⟨direct, found⟩
      exact ⟨_, (same _).mpr ⟨direct, found, rfl⟩⟩
  · exact fun direct found => (same _).mpr ⟨direct, found, rfl⟩

namespace Wrapped

/-- The first method of `p.I<T>` erases to one of `java.lang.Object`, and `p.A<T>` is a shell of
`p.I<T>`. -/
def text : String :=
  "<types><interface name='p.I'><typeParameter name='T'/>" ++
    "<method name='equals' returns='boolean'><param type='T'/></method>" ++
    "<method name='put'><param type='T'/></method></interface>" ++
    "<class name='p.A' abstract='true'><typeParameter name='T'/><implements type='p.I&lt;T>'/></class></types>"

def equality : Method :=
  { name := "equals", owner := ⟨"p.I"⟩, parameters := [.var "T"], result := .prim .boolean
    isAbstract := true }

def putting : Method :=
  { name := "put", owner := ⟨"p.I"⟩, parameters := [.var "T"], isAbstract := true }

def direct : Descriptor :=
  { name := ⟨"p.I"⟩, kind := .interface, typeParameters := [⟨"T", []⟩]
    methods := [equality, putting] }

def through : Descriptor :=
  { name := ⟨"p.A"⟩, kind := .abstractClass, typeParameters := [⟨"T", []⟩]
    superclass := some ⟨.object, []⟩, interfaces := [⟨⟨"p.I"⟩, [.var "T"]⟩] }

def resolver : Resolver where
  sources := [.inMemory "<inline descriptors>" { descriptors := [direct, through], distinct := by decide },
    .standardLibrary]

def root : TypeModel := Linking.modelOf direct none []

theorem parsed : Descriptor.parseAll text = .ok [direct, through] := by decide +kernel

theorem built : Resolver.ofDocument text = .ok resolver := by
  unfold Resolver.ofDocument Source.ofDocument
  rw [parsed]
  rfl

theorem resolved : (resolver.resolve {} ⟨"p.I"⟩).1 = .ok root := rfl

theorem resolved_shell : (resolver.resolve {} ⟨"p.A"⟩).1 = .ok (root.shell ⟨"p.A"⟩) := rfl

theorem names_ofRoot : Hierarchy.names (Hierarchy.ofRoot root) = [⟨"p.I"⟩] := by cbv

theorem keys : (Inherited.all root).map (·.key root.erasureScope) =
    [⟨"equals", [.object]⟩, ⟨"put", [.object]⟩] := by cbv

theorem coherent_shell : (root.shell ⟨"p.A"⟩).Coherent :=
  ((Resolver.ofDocument_used built).linked resolved_shell).coherent

theorem sharing : root.SharesWithObject := by
  intro d inherited m declared same
  have among : m.key root.erasureScope ∈ (Inherited.all root).map (·.key root.erasureScope) :=
    List.mem_map.mpr ⟨d, inherited, same⟩
  rw [keys] at among
  have only : ∀ m ∈ TypeModel.standardObject.methods,
      m.key root.erasureScope ∈ [⟨"equals", [.object]⟩, ⟨"put", [.object]⟩] →
        m.name ∈ ["equals", "hashCode", "toString"] := by decide +kernel
  exact only m declared among

/-- What `p.I` owes: `put` alone. -/
def owed : MethodObligation where
  method := putting
  result := .void
  throwing := []
  access := .publicAccess
  depth := 0

theorem collected : (obligations (resolver.lookup {}) root).value = .ok [.method owed] := by cbv

end Wrapped

theorem wrapped_owes_same : Wrapped.root.SharesWithObject ∧
    (Wrapped.resolver.resolve {} ⟨"p.A"⟩).1 = .ok (Wrapped.root.shell ⟨"p.A"⟩) ∧
      (obligations (Wrapped.resolver.lookup {}) (Wrapped.root.shell ⟨"p.A"⟩)).value =
        .ok [.method Wrapped.owed.lower] := by
  have fresh : ⟨"p.A"⟩ ∉ QualName.object :: Hierarchy.names (Hierarchy.ofRoot Wrapped.root) := by
    rw [Wrapped.names_ofRoot]
    decide
  obtain ⟨_, owes⟩ := @shell_owes_same (Wrapped.resolver.lookup {}) {} Wrapped.resolver ⟨"p.I"⟩ ⟨"p.A"⟩
    Wrapped.root (.document Wrapped.text Wrapped.resolver Wrapped.built) Wrapped.resolved rfl (by decide)
    (fun _ => Wrapped.coherent_shell.standard) Wrapped.sharing (by decide +kernel) fresh
  exact ⟨Wrapped.sharing, Wrapped.resolved_shell, owes _ Wrapped.collected⟩

end JavaStubs
