import JavaStubs.Proofs.Hierarchy.Arguments
import JavaStubs.Proofs.Obligation.Groups
import JavaStubs.Proofs.Obligation.Order
import Mathlib

namespace JavaStubs

/-- A method where it is declared: a path to a type, and a place among its methods. -/
structure Site where
  path : List Nat
  node : Reached
  index : Nat
  method : Method

namespace Site

/-- The method stands on the path and is neither static nor private. -/
structure OnPath (root : TypeModel) (s : Site) : Prop where
  leads : root.climb s.path = some s.node
  declared : s.node.model.methods[s.index]? = some s.method
  dynamic : s.method.isStatic = false
  visible : s.method.access ≠ .privateAccess

/-- The name and the parameter types, with arguments replaced and erased as the root sees them. -/
def key (root : TypeModel) (s : Site) : SignatureKey :=
  ⟨s.method.name, (s.method.subst s.node.subst).erasedParameters root.erasureScope⟩

/-- The path is the first one to the declaring type. -/
structure InheritedBy (root : TypeModel) (s : Site) : Prop where
  onPath : s.OnPath root
  first : root.FirstPath s.path s.node

/-- An inherited declaration of a key. -/
def Declares (root : TypeModel) (key : SignatureKey) (s : Site) : Prop :=
  s.InheritedBy root ∧ s.key root = key

/-- The declaring type is the root or one of its superclasses. -/
def OnChain (root : TypeModel) (s : Site) : Prop := s.node.model ∈ root.chain

/-- A shorter way, or an earlier place in the same type. -/
def NearerThan (s other : Site) : Prop :=
  s.path.length < other.path.length ∨ s.path = other.path ∧ s.index < other.index

end Site

namespace TypeModel

variable (root : TypeModel) (declares : Site → Prop)

/-- The nearest declaration on the superclass chain has a body. -/
def ClassProvides : Prop :=
  ∃ s, declares s ∧ s.OnChain root ∧ s.method.isAbstract = false ∧
    ∀ other, declares other → other.OnChain root → other = s ∨ s.NearerThan other

/-- No class on the superclass chain declares the key. -/
def Classless : Prop := ∀ s, declares s → ¬ s.OnChain root

/-- Every object has the method. -/
def ObjectProvides (key : SignatureKey) : Prop :=
  root.Classless declares ∧ key ∈ [⟨"equals", [.object]⟩, ⟨"hashCode", []⟩, ⟨"toString", []⟩]

/-- An interface declares the key, and no interface below it does. -/
structure Specific (s : Site) : Prop where
  declared : declares s
  offChain : ¬ s.OnChain root
  lowest : ∀ other, declares other → ¬ other.OnChain root →
    ¬ other.node.model.HasAncestor s.node.model

/-- There is a single most specific interface declaration, and it has a body. -/
def DefaultProvides : Prop :=
  root.Classless declares ∧ ∃ s, root.Specific declares s ∧ s.method.isAbstract = false ∧
    ∀ other, root.Specific declares other → other = s

/-- The key is declared and nothing provides it. -/
def OwesOf (key : SignatureKey) : Prop :=
  (∃ s, declares s) ∧ ¬ root.ClassProvides declares ∧ ¬ root.ObjectProvides declares key ∧
    ¬ root.DefaultProvides declares

/-- A method with this key is left to implement. -/
def Owes (key : SignatureKey) : Prop := root.OwesOf (Site.Declares root key) key

end TypeModel

namespace Site

theorem NearerThan.asymm {s other : Site} (nearer : s.NearerThan other) : ¬ other.NearerThan s := by
  rcases nearer with shorter | ⟨same, less⟩
  · rintro (longer | ⟨samePath, _⟩)
    · omega
    · simp [samePath] at shorter
  · rintro (longer | ⟨_, greater⟩)
    · simp [same] at longer
    · omega

/-- The declaration as the collector keeps it. -/
def inherited (s : Site) : Inherited where
  method := s.method.subst s.node.subst
  declaredIn := s.node.model.name
  ancestors := Hierarchy.ancestors s.node.model
  depth := s.node.depth
  onChain := s.node.onChain

/-- An earlier path, or an earlier place in the same type. -/
def Before (s other : Site) : Prop :=
  Earlier s.path other.path ∨ s.path = other.path ∧ s.index < other.index

theorem Before.irrefl (s : Site) : ¬ s.Before s := by
  rintro (earlier | ⟨_, less⟩)
  · exact Earlier.irrefl _ earlier
  · omega

/-- The declarations of one node. -/
def ofNode (path : List Nat) (node : Reached) : List Site :=
  (node.model.methods.zipIdx.filter fun entry =>
    !entry.1.isStatic && entry.1.access != .privateAccess).map fun entry =>
      ⟨path, node, entry.2, entry.1⟩

theorem ofNode_inherited (path : List Nat) (node : Reached) :
    (ofNode path node).map inherited = Inherited.ofNode node := by
  have places : node.model.methods = node.model.methods.zipIdx.map Prod.fst := by simp
  conv => rhs; rw [Inherited.ofNode, places]
  simp only [ofNode, List.filter_map, List.map_map]
  rfl

theorem mem_ofNode {path : List Nat} {node : Reached} {s : Site} :
    s ∈ ofNode path node ↔ s.path = path ∧ s.node = node ∧
      s.node.model.methods[s.index]? = some s.method ∧ s.method.isStatic = false ∧
      s.method.access ≠ .privateAccess := by
  obtain ⟨path', node', index, method⟩ := s
  simp only [ofNode, List.mem_map, List.mem_filter, Prod.exists, List.mem_zipIdx_iff_getElem?,
    Bool.and_eq_true, Bool.not_eq_true', bne_iff_ne, mk.injEq]
  constructor
  · rintro ⟨m, i, ⟨found, kept⟩, rfl, rfl, rfl, rfl⟩
    exact ⟨rfl, rfl, found, kept⟩
  · rintro ⟨rfl, rfl, found, kept⟩
    exact ⟨method, index, ⟨found, kept⟩, rfl, rfl, rfl, rfl⟩

theorem ofNode_sorted (path : List Nat) (node : Reached) : (ofNode path node).Pairwise Before := by
  have places : node.model.methods.zipIdx.Pairwise (·.2 < ·.2) := by
    have order := @List.pairwise_lt_range' 0 node.model.methods.length 1
    rw [← List.zipIdx_map_snd 0 node.model.methods, List.pairwise_map] at order
    exact order
  rw [ofNode, List.pairwise_map]
  exact (places.filter _).imp fun less => Or.inr ⟨rfl, less⟩

/-- What a root inherits is what the sites of its hierarchy declare, in order and each once. -/
theorem exists_sites {root : TypeModel} (coherent : root.Coherent) : ∃ sites : List Site,
    Inherited.all root = sites.map inherited ∧ sites.Pairwise Before ∧
      ∀ s, s ∈ sites ↔ s.InheritedBy root := by
  obtain ⟨entries, walked, sorted, firsts, _⟩ := Hierarchy.ofRoot_firstPaths coherent
  refine ⟨entries.flatMap fun entry => ofNode entry.1 entry.2, ?_, ?_, fun s => ?_⟩
  · simp only [Inherited.all, walked, List.flatMap_map, List.map_flatMap, ofNode_inherited]
  · rw [List.pairwise_flatMap]
    refine ⟨fun entry _ => ofNode_sorted .., sorted.imp fun earlier s inS other inOther => ?_⟩
    left
    rw [(mem_ofNode.mp inS).1, (mem_ofNode.mp inOther).1]
    exact earlier
  · rw [List.mem_flatMap]
    constructor
    · rintro ⟨⟨path, node⟩, member, inside⟩
      obtain ⟨samePath, sameNode, declared, dynamic, visible⟩ := mem_ofNode.mp inside
      have first : root.FirstPath s.path s.node := by
        rw [samePath, sameNode]
        exact (firsts path node).mp member
      exact ⟨⟨first.leads, declared, dynamic, visible⟩, first⟩
    · rintro ⟨⟨_, declared, dynamic, visible⟩, first⟩
      exact ⟨(s.path, s.node), (firsts _ _).mpr first,
        mem_ofNode.mpr ⟨rfl, rfl, declared, dynamic, visible⟩⟩

variable {root : TypeModel} {s other : Site}

theorem onChain_iff (linked : root.Linked) (member : s.InheritedBy root) :
    s.inherited.onChain = true ↔ s.OnChain root :=
  Reached.onChain_iff linked member.first.leads

/-- On the superclass chain there is one path of each length, so earlier means nearer. -/
theorem Before.nearer (linked : root.Linked) (before : s.Before other) (inS : s.InheritedBy root)
    (inOther : other.InheritedBy root) (chainS : s.OnChain root) (chainOther : other.OnChain root) :
    s.NearerThan other := by
  have straight {site : Site} (member : site.InheritedBy root) (chain : site.OnChain root) :
      site.path = List.replicate site.path.length 0 :=
    ((Reached.onChain_spec linked member.first.leads).2 ((onChain_iff linked member).mpr chain)).2
  rcases before with earlier | same
  · left
    rcases Earlier.iff_lex.mp earlier with shorter | ⟨sameLength, _⟩
    · exact shorter
    · have samePath : s.path = other.path := by
        rw [straight inS chainS, straight inOther chainOther, sameLength]
      exact absurd (samePath ▸ earlier) (Earlier.irrefl _)
  · exact Or.inr same

theorem isBelow_iff (coherent : root.Coherent) (inS : s.InheritedBy root)
    (inOther : other.InheritedBy root) :
    other.inherited.isBelow s.inherited = true ↔ other.node.model.HasAncestor s.node.model := by
  have toS := Reached.follow_reaches inS.first.leads
  have toOther := Reached.follow_reaches inOther.first.leads
  have ancestors := @Hierarchy.mem_ancestors other.node.model (coherent.of_reaches toOther)
    s.node.model.name
  simp only [Inherited.isBelow, inherited, Bool.and_eq_true, bne_iff_ne, List.contains_iff_mem]
  rw [ancestors]
  constructor
  · rintro ⟨_, upper, above, sameName⟩
    have same : upper = s.node.model :=
      coherent _ _ (Relation.ReflTransGen.trans toOther above.reaches) toS sameName
    exact same ▸ above
  · intro above
    exact ⟨(coherent.name_ne toOther above).symm, _, above, rfl⟩

end Site

/-- Of declarations in the order of their depth the first is the nearest. -/
theorem Inherited.nearest?_of_sorted {declarations : List Inherited}
    (sorted : declarations.Pairwise (·.depth ≤ ·.depth)) :
    Inherited.nearest? declarations = declarations.head? := by
  induction declarations with
  | nil => rfl
  | cons d rest ih =>
    rw [List.pairwise_cons] at sorted
    rw [Inherited.nearest?, ih sorted.2]
    cases rest with
    | nil => rfl
    | cons other rest => simp [sorted.1 other (List.mem_cons_self ..)]

namespace TypeModel

variable {root : TypeModel} {key : SignatureKey}

theorem Reaches.sizeOf_le {upper : TypeModel} (reached : root.Reaches upper) :
    sizeOf upper ≤ sizeOf root := by
  rcases Relation.reflTransGen_iff_eq_or_transGen.mp reached with rfl | above
  · exact Nat.le_refl _
  · exact Nat.le_of_lt (HasAncestor.sizeOf_lt above)

/-- Without classes some interface declaration is most specific: going down must end. -/
theorem exists_specific (classless : root.Classless (Site.Declares root key)) {s : Site}
    (declares : s.Declares root key) : ∃ lowest, root.Specific (Site.Declares root key) lowest := by
  induction distance : sizeOf root - sizeOf s.node.model using Nat.strongRecOn generalizing s with
  | _ n ih =>
    by_cases lowest : ∀ other : Site, other.Declares root key → ¬ other.OnChain root →
        ¬ other.node.model.HasAncestor s.node.model
    · exact ⟨s, declares, classless s declares, lowest⟩
    · push Not at lowest
      obtain ⟨other, declaresOther, _, above⟩ := lowest
      have larger := above.sizeOf_lt
      have bounded := (Reached.follow_reaches declaresOther.1.first.leads).sizeOf_le
      simp only [Reached.root] at bounded
      exact ih _ (by omega) declaresOther rfl

end TypeModel

namespace MethodGroup

theorem isObjectMethod_iff {key : SignatureKey} : isObjectMethod key = true ↔
    key ∈ [⟨"equals", [.object]⟩, ⟨"hashCode", []⟩, ⟨"toString", []⟩] := by
  obtain ⟨name, parameters⟩ := key
  simp only [isObjectMethod]
  split
  · rename_i parameter
    simp [Ty.isObject]
  · simp
  · simp
  · rename_i notEquals notHash notString
    simp only [List.mem_cons, SignatureKey.mk.injEq, List.not_mem_nil, or_false, Bool.false_eq_true,
      false_iff, not_or, not_and]
    exact ⟨notEquals Ty.object, notHash, notString⟩

variable {root : TypeModel}

/-- A group and the sites of its key. -/
theorem exists_sites_of_mem (linked : root.Linked) {group : MethodGroup} (member : group ∈ ofRoot root) :
    ∃ sites : List Site, sites ≠ [] ∧ group.declarations = sites.map Site.inherited ∧
      sites.Pairwise Site.Before ∧ ∀ s, s ∈ sites ↔ s.Declares root group.key := by
  obtain ⟨all, inherited, sorted, members⟩ := Site.exists_sites linked.coherent
  rw [ofRoot_eq_gather, mem_gather] at member
  obtain ⟨⟨d, listed, sameKey⟩, declarations⟩ := member
  have mem {s : Site} : s ∈ all.filter (fun s => s.key root = group.key) ↔
      s.Declares root group.key := by
    simp [members, Site.Declares]
  refine ⟨all.filter fun s => s.key root = group.key, ?_, ?_, sorted.filter _, fun s => mem⟩
  · rw [inherited] at listed
    obtain ⟨s, inside, rfl⟩ := List.mem_map.mp listed
    exact List.ne_nil_of_mem (List.mem_filter.mpr ⟨inside, decide_eq_true sameKey⟩)
  · rw [declarations, inherited, List.filter_map]
    rfl

/-- The class declaration that decides is the nearest one on the superclass chain. -/
theorem fromClass?_spec (linked : root.Linked) {group : MethodGroup} (member : group ∈ ofRoot root) :
    (group.fromClass? = none ∧ root.Classless (Site.Declares root group.key)) ∨
      ∃ s : Site, group.fromClass? = some s.inherited ∧ s.Declares root group.key ∧
        s.OnChain root ∧ ∀ other : Site, other.Declares root group.key → other.OnChain root →
          other = s ∨ s.NearerThan other := by
  obtain ⟨sites, _, declarations, sorted, members⟩ := exists_sites_of_mem linked member
  let classes := sites.filter fun s => s.inherited.onChain
  have mem {s : Site} : s ∈ classes ↔ s.Declares root group.key ∧ s.OnChain root := by
    rw [List.mem_filter, members]
    exact and_congr_right fun declares => Site.onChain_iff linked declares.1
  have ordered : classes.Pairwise Site.Before := sorted.filter _
  have deeper : (classes.map Site.inherited).Pairwise (·.depth ≤ ·.depth) := by
    rw [List.pairwise_map]
    refine List.Pairwise.imp_of_mem (fun inS inOther before => ?_) ordered
    obtain ⟨declaresS, chainS⟩ := mem.mp inS
    obtain ⟨declaresOther, chainOther⟩ := mem.mp inOther
    have depthS := Reached.follow_depth declaresS.1.first.leads
    have depthOther := Reached.follow_depth declaresOther.1.first.leads
    simp only [Site.inherited, depthS, depthOther]
    rcases before.nearer linked declaresS.1 declaresOther.1 chainS chainOther with shorter | ⟨same, _⟩
    · omega
    · rw [same]
  have found : group.fromClass? = (classes.map Site.inherited).head? := by
    rw [fromClass?, declarations, List.filter_map, ← Inherited.nearest?_of_sorted deeper]
    rfl
  rw [found]
  cases first : classes with
  | nil =>
    refine Or.inl ⟨rfl, fun s declares chain => ?_⟩
    have inside := mem.mpr ⟨declares, chain⟩
    simp [first] at inside
  | cons s rest =>
    rw [first] at mem ordered
    obtain ⟨declares, chain⟩ := mem.mp (List.mem_cons_self ..)
    refine Or.inr ⟨s, rfl, declares, chain, fun other declaresOther chainOther => ?_⟩
    rcases List.mem_cons.mp (mem.mpr ⟨declaresOther, chainOther⟩) with same | later
    · exact Or.inl same
    · exact Or.inr (((List.pairwise_cons.mp ordered).1 other later).nearer linked declares.1
        declaresOther.1 chain chainOther)

/-- The interface declarations that decide are the most specific ones, in order and each once. -/
theorem fromInterfaces_spec (linked : root.Linked) {group : MethodGroup}
    (member : group ∈ ofRoot root) : ∃ sites : List Site,
      group.fromInterfaces = sites.map Site.inherited ∧ sites.Pairwise Site.Before ∧
        ∀ s, s ∈ sites ↔ root.Specific (Site.Declares root group.key) s := by
  obtain ⟨sites, _, declarations, sorted, members⟩ := exists_sites_of_mem linked member
  let interfaces := sites.filter fun s => !s.inherited.onChain
  have mem {s : Site} : s ∈ interfaces ↔ s.Declares root group.key ∧ ¬ s.OnChain root := by
    rw [List.mem_filter, members]
    refine and_congr_right fun declares => ?_
    rw [← Site.onChain_iff linked declares.1]
    simp
  refine ⟨interfaces.filter fun s => !interfaces.any fun other => other.inherited.isBelow s.inherited,
    ?_, (sorted.filter _).filter _, fun s => ?_⟩
  · rw [fromInterfaces, declarations, List.filter_map, Inherited.mostSpecific, List.filter_map]
    simp only [List.any_map]
    rfl
  · rw [List.mem_filter, mem]
    constructor
    · rintro ⟨⟨declares, offChain⟩, lowest⟩
      refine ⟨declares, offChain, fun other declaresOther offOther below => ?_⟩
      have inside := mem.mpr ⟨declaresOther, offOther⟩
      have flagged := (Site.isBelow_iff linked.coherent declares.1 declaresOther.1).mpr below
      simp only [Bool.not_eq_true', List.any_eq_false] at lowest
      exact lowest other inside flagged
    · rintro ⟨declares, offChain, lowest⟩
      refine ⟨⟨declares, offChain⟩, ?_⟩
      simp only [Bool.not_eq_true', List.any_eq_false]
      intro other inside flagged
      obtain ⟨declaresOther, offOther⟩ := mem.mp inside
      exact lowest other declaresOther offOther
        ((Site.isBelow_iff linked.coherent declares.1 declaresOther.1).mp flagged)

/-- Whether the nearest class declaration has a body decides whether classes provide the key. -/
theorem classProvides_iff {declares : Site → Prop} {s : Site} (declared : declares s)
    (chain : s.OnChain root) (nearest : ∀ other, declares other → other.OnChain root →
      other = s ∨ s.NearerThan other) :
    root.ClassProvides declares ↔ s.method.isAbstract = false := by
  constructor
  · rintro ⟨other, declaresOther, chainOther, concrete, nearestOther⟩
    rcases nearest other declaresOther chainOther with rfl | nearer
    · exact concrete
    · rcases nearestOther s declared chain with rfl | nearerOther
      · exact concrete
      · exact absurd nearerOther nearer.asymm
  · exact fun concrete => ⟨s, declared, chain, concrete, nearest⟩

/-- Without class declarations the most specific interface declarations decide. -/
theorem defaultProvides_iff {declares : Site → Prop} {sites : List Site}
    (classless : root.Classless declares) (distinct : sites.Nodup)
    (specifics : ∀ s, s ∈ sites ↔ root.Specific declares s) :
    root.DefaultProvides declares ↔ ∃ s, sites = [s] ∧ s.method.isAbstract = false := by
  constructor
  · rintro ⟨_, s, isSpecific, concrete, only⟩
    refine ⟨s, ?_, concrete⟩
    have member := (specifics s).mpr isSpecific
    have all : ∀ other ∈ sites, other = s := fun other inside => only other ((specifics other).mp inside)
    have single : sites.length ≤ 1 := by
      by_contra long
      have first : sites[0] = s := all _ (List.getElem_mem _)
      have second : sites[1] = s := all _ (List.getElem_mem _)
      have same := (List.Nodup.getElem_inj_iff distinct).mp (first.trans second.symm)
      omega
    cases sites with
    | nil => simp at member
    | cons other rest =>
      have none : rest = [] := List.eq_nil_of_length_eq_zero (by simpa using single)
      rw [none, all other (List.mem_cons_self ..)]
  · rintro ⟨s, rfl, concrete⟩
    refine ⟨classless, s, (specifics s).mp (by simp), concrete, fun other isSpecific => ?_⟩
    simpa using (specifics other).mpr isSpecific

theorem unsatisfied_of_classless (linked : root.Linked) {group : MethodGroup}
    (member : group ∈ ofRoot root) (none : group.fromClass? = none)
    (classless : root.Classless (Site.Declares root group.key)) :
    group.unsatisfied ≠ [] ↔ ¬ root.ObjectProvides (Site.Declares root group.key) group.key ∧
      ¬ root.DefaultProvides (Site.Declares root group.key) := by
  obtain ⟨sites, nonempty, _, _, members⟩ := exists_sites_of_mem linked member
  obtain ⟨site, inside⟩ := List.exists_mem_of_ne_nil _ nonempty
  obtain ⟨specific, fromInterfaces, sorted, specifics⟩ := fromInterfaces_spec linked member
  have distinct : specific.Nodup := by
    refine sorted.imp fun before same => ?_
    exact Site.Before.irrefl _ (same ▸ before)
  have object : root.ObjectProvides (Site.Declares root group.key) group.key ↔
      isObjectMethod group.key = true :=
    ⟨fun provided => isObjectMethod_iff.mpr provided.2, fun is => ⟨classless, isObjectMethod_iff.mp is⟩⟩
  rw [object, defaultProvides_iff classless distinct specifics]
  unfold unsatisfied
  rw [none, fromInterfaces]
  by_cases isObject : isObjectMethod group.key = true
  · simp [isObject]
  · cases specific with
    | nil =>
      obtain ⟨lowest, isSpecific⟩ := TypeModel.exists_specific classless ((members site).mp inside)
      exact absurd ((specifics lowest).mpr isSpecific) (by simp)
    | cons first rest =>
      cases rest with
      | nil =>
        have sameFlag : first.inherited.method.isAbstract = first.method.isAbstract := rfl
        cases flag : first.method.isAbstract <;> simp [isObject, sameFlag, flag]
      | cons second rest => simp [isObject]

/-- The group of a key that is owed. -/
theorem exists_group (linked : root.Linked) {key : SignatureKey} (owes : root.Owes key) :
    ∃ group ∈ ofRoot root, group.key = key := by
  obtain ⟨s, site, sameKey⟩ := owes.1
  obtain ⟨sites, all, _, members⟩ := Site.exists_sites linked.coherent
  have inherited : s.inherited ∈ Inherited.all root := by
    rw [all]
    exact List.mem_map_of_mem ((members s).mpr site)
  refine ⟨⟨key, (Inherited.all root).filter fun d => d.key root.erasureScope = key⟩, ?_, rfl⟩
  rw [ofRoot_eq_gather]
  exact mem_gather.mpr ⟨⟨_, inherited, sameKey⟩, rfl⟩

/-- A group leaves something to implement exactly if its key is owed. -/
theorem unsatisfied_ne_nil_iff (linked : root.Linked) {group : MethodGroup}
    (member : group ∈ ofRoot root) : group.unsatisfied ≠ [] ↔ root.Owes group.key := by
  obtain ⟨sites, nonempty, _, _, members⟩ := exists_sites_of_mem linked member
  obtain ⟨site, inside⟩ := List.exists_mem_of_ne_nil _ nonempty
  have declared : ∃ s : Site, s.Declares root group.key := ⟨site, (members site).mp inside⟩
  rcases fromClass?_spec linked member with ⟨none, classless⟩ | ⟨s, found, declares, chain, nearest⟩
  · have noClass : ¬ root.ClassProvides (Site.Declares root group.key) :=
      fun ⟨s, declares, chain, _⟩ => classless s declares chain
    rw [unsatisfied_of_classless linked member none classless]
    exact ⟨fun rest => ⟨declared, noClass, rest⟩, fun owes => owes.2.2⟩
  · have someClass : ¬ root.Classless (Site.Declares root group.key) := fun classless =>
      classless s declares chain
    have owes_iff : root.Owes group.key ↔ ¬ root.ClassProvides (Site.Declares root group.key) :=
      ⟨fun owes => owes.2.1, fun noClass => ⟨declared, noClass, fun object => someClass object.1,
        fun default => someClass default.1⟩⟩
    rw [owes_iff, classProvides_iff declares chain nearest]
    have sameFlag : s.inherited.method.isAbstract = s.method.isAbstract := rfl
    unfold unsatisfied
    rw [found]
    cases flag : s.method.isAbstract <;> simp [sameFlag, flag]

end MethodGroup

namespace Collect

variable {lookup : QualName → Option TypeModel} {root : TypeModel}

/-- The parameter types in a key are erased types with valid names. -/
theorem key_isErased (linked : root.Linked) {entry : SignatureKey × MethodObligation}
    (member : entry ∈ entriesOf lookup root (MethodGroup.ofRoot root)) :
    ∀ ty ∈ entry.1.parameters, ty.IsErased := by
  obtain ⟨base, others, contract, _, _, candidates⟩ := entry_candidates member
  obtain ⟨inherited, sameKey⟩ := candidates base (List.mem_cons_self ..)
  have scope : root.erasureScope.Erased :=
    ErasureScope.Erased.extend (by simp [ErasureScope.Erased]) linked.own.bounds
  rw [← sameKey]
  exact (Inherited.method_proper linked inherited).erasedParameters scope

/-- Entries that compare as equal have the same key: their parameters are told apart as written. -/
theorem key_eq_of_compare (linked : root.Linked) {a b : SignatureKey × MethodObligation}
    (inA : a ∈ entriesOf lookup root (MethodGroup.ofRoot root))
    (inB : b ∈ entriesOf lookup root (MethodGroup.ofRoot root)) (same : compareEntries a b = .eq) :
    a.1 = b.1 := by
  simp only [compareEntries, compareLex, compareOn, Ordering.then_eq_eq] at same
  obtain ⟨_, name, parameters⟩ := same
  have names : a.1.name = b.1.name := Std.LawfulEqCmp.eq_of_compare name
  have rendered : a.1.parameters.map Ty.render = b.1.parameters.map Ty.render :=
    Std.LawfulEqCmp.eq_of_compare parameters
  have types : a.1.parameters = b.1.parameters :=
    Ty.map_render_injective (key_isErased linked inA) (key_isErased linked inB) rendered
  obtain ⟨⟨nameA, typesA⟩, _⟩ := a
  obtain ⟨⟨nameB, typesB⟩, _⟩ := b
  simp only at names types
  rw [names, types]

/-- Sorted entries stand in strictly increasing order. -/
theorem entries_sorted (linked : root.Linked) :
    ((entriesOf lookup root (MethodGroup.ofRoot root)).mergeSort comesBefore).Pairwise
      fun a b => compareEntries a b = .lt := by
  have order := List.pairwise_mergeSort comesBefore_trans comesBefore_total
    (entriesOf lookup root (MethodGroup.ofRoot root))
  have keys := ((List.mergeSort_perm (entriesOf lookup root (MethodGroup.ofRoot root))
    comesBefore).map Prod.fst).nodup_iff.mpr keys_distinct
  rw [List.Nodup, List.pairwise_map] at keys
  refine List.Pairwise.imp_of_mem (fun inA inB both => ?_) (order.and keys)
  obtain ⟨before, different⟩ := both
  rw [comesBefore_eq] at before
  cases compared : compareEntries _ _ with
  | lt => rfl
  | eq => exact absurd (key_eq_of_compare linked (List.mem_mergeSort.mp inA)
      (List.mem_mergeSort.mp inB) compared) different
  | gt => simp [compared] at before

/-- There is an entry for every key that is owed. -/
theorem exists_entry_iff (linked : root.Linked) (settled : ∀ group ∈ MethodGroup.ofRoot root,
      (resolve lookup root group).value = .ok (owed lookup root group)) {key : SignatureKey} :
    (∃ entry ∈ entriesOf lookup root (MethodGroup.ofRoot root), entry.1 = key) ↔ root.Owes key := by
  constructor
  · rintro ⟨entry, member, rfl⟩
    obtain ⟨group, inside, sameKey, owes⟩ := mem_entriesOf.mp member
    rw [← sameKey, ← MethodGroup.unsatisfied_ne_nil_iff linked inside,
      ← exists_owed_iff (settled group inside)]
    exact ⟨_, owes⟩
  · intro owes
    obtain ⟨group, inside, rfl⟩ := MethodGroup.exists_group linked owes
    obtain ⟨o, owed⟩ := (exists_owed_iff (settled group inside)).mpr
      ((MethodGroup.unsatisfied_ne_nil_iff linked inside).mpr owes)
    exact ⟨(group.key, o), mem_entriesOf.mpr ⟨group, inside, rfl, owed⟩, rfl⟩

end Collect

/-- By depth, then by name, then by the erased parameter types as written. -/
def MethodObligation.Precedes (root : TypeModel) (o other : MethodObligation) : Prop :=
  Collect.compareEntries (o.key root, o) (other.key root, other) = .lt

/-- What is collected for a resolved type: constructors first, and then, in strictly increasing
order, one method for each key that the type owes and for no other key. -/
theorem obligations_exact {lookup : QualName → Option TypeModel} {fs : FileSystem}
    {resolver : Resolver} {name : QualName} {root : TypeModel} {obs : List Obligation}
    (used : resolver.Used) (resolved : (resolver.resolve fs name).1 = .ok root)
    (collected : (obligations lookup root).value = .ok obs) :
    obs = (constructorsOf obs).map .constructor ++ (methodsOf obs).map .method ∧
      (∀ key, (∃ o ∈ methodsOf obs, o.key root = key) ↔ root.Owes key) ∧
      ((methodsOf obs).map (·.key root)).Nodup ∧
      (methodsOf obs).Pairwise (MethodObligation.Precedes root) := by
  have linked := used.linked resolved
  obtain ⟨_, _, entries, resolvedAll, methods⟩ := collected_parts collected
  obtain ⟨settled, rfl⟩ := Collect.resolveAll_value.mp resolvedAll
  have ownKey : ∀ entry ∈ (Collect.entriesOf lookup root (MethodGroup.ofRoot root)).mergeSort
      Collect.comesBefore, entry.2.key root = entry.1 := fun entry member =>
    Collect.entry_key (List.mem_mergeSort.mp member)
  have keys : (methodsOf obs).map (·.key root) = ((Collect.entriesOf lookup root
      (MethodGroup.ofRoot root)).mergeSort Collect.comesBefore).map Prod.fst := by
    rw [methods, List.map_map]
    exact List.map_congr_left ownKey
  refine ⟨collected_order collected, fun key => ?_, ?_, ?_⟩
  · rw [← Collect.exists_entry_iff linked settled, ← List.mem_map, keys]
    simp [List.mem_mergeSort]
  · rw [keys]
    exact ((List.mergeSort_perm ..).map Prod.fst).nodup_iff.mpr Collect.keys_distinct
  · rw [methods, List.pairwise_map]
    refine List.Pairwise.imp_of_mem (fun inA inB before => ?_) (Collect.entries_sorted linked)
    rw [MethodObligation.Precedes, ownKey _ inA, ownKey _ inB]
    exact before

namespace TwoPaths

def method : Method :=
  { name := "f", owner := ⟨"A"⟩, parameters := [.var "T"], isAbstract := true }

/-- `A<T>` with `f(T)`, `B` that extends `A<S>`, and `R` that extends `A<I>` and `B`. -/
def types : DescriptorIndex where
  descriptors := [
    { name := ⟨"A"⟩, kind := .interface, typeParameters := [⟨"T", []⟩], methods := [method] },
    { name := ⟨"B"⟩, kind := .interface, interfaces := [⟨⟨"A"⟩, [.cls ⟨"S"⟩ []]⟩] },
    { name := ⟨"R"⟩, kind := .interface,
      interfaces := [⟨⟨"A"⟩, [.cls ⟨"I"⟩ []]⟩, ⟨⟨"B"⟩, []⟩] }]
  distinct := by decide

def resolver : Resolver := { sources := [.inMemory "two paths" types] }

def top : TypeModel where
  name := ⟨"A"⟩
  kind := .interface
  typeParameters := [⟨"T", []⟩]
  methods := [method]

def middle : TypeModel where
  name := ⟨"B"⟩
  kind := .interface
  interfaces := [⟨⟨⟨"A"⟩, [.cls ⟨"S"⟩ []]⟩, top⟩]

def bottom : TypeModel where
  name := ⟨"R"⟩
  kind := .interface
  interfaces := [⟨⟨⟨"A"⟩, [.cls ⟨"I"⟩ []]⟩, top⟩, ⟨⟨⟨"B"⟩, []⟩, middle⟩]

/-- `f(I)`, as the shorter path has it. -/
def obligation : MethodObligation where
  method := { method with parameters := [.cls ⟨"I"⟩ []] }
  result := .void
  throwing := []
  access := .publicAccess
  depth := 1

theorem used : resolver.Used := .new _ (by simpa using .inMemory _ types (by decide +kernel))

theorem resolved : (resolver.resolve {} ⟨"R"⟩).1 = .ok bottom := rfl

theorem collected : (obligations (resolver.lookup {}) bottom).value = .ok [.method obligation] := by
  cbv

theorem reaches {model : TypeModel} (reached : bottom.Reaches model) :
    model = bottom ∨ model = middle ∨ model = top := by
  induction reached with
  | refl => exact Or.inl rfl
  | tail _ step ih =>
    obtain ⟨link, member, rfl⟩ := step
    rcases ih with rfl | rfl | rfl
    · simp only [TypeModel.supertypes, bottom, Option.toList_none, List.nil_append, List.mem_cons,
        List.not_mem_nil, or_false] at member
      rcases member with rfl | rfl <;> simp
    · simp only [TypeModel.supertypes, middle, Option.toList_none, List.nil_append,
        List.mem_singleton] at member
      simp [member]
    · simp [TypeModel.supertypes, top] at member

theorem method_abstract {s : Site} (onPath : s.OnPath bottom) : s.method.isAbstract = true := by
  have member := List.mem_of_getElem? onPath.declared
  rcases reaches (Reached.follow_reaches onPath.leads) with same | same | same
  · simp [same, bottom] at member
  · simp [same, middle] at member
  · rw [same, top, List.mem_singleton] at member
    rw [member]
    rfl

end TwoPaths

theorem twoPaths_exact : TwoPaths.bottom.Owes (TwoPaths.obligation.key TwoPaths.bottom) := by
  obtain ⟨_, owes, _, _⟩ :=
    obligations_exact TwoPaths.used TwoPaths.resolved TwoPaths.collected
  exact (owes _).mp ⟨TwoPaths.obligation, by decide, rfl⟩

/-- A declaration on any path, not only on the first one to its type. -/
def Site.DeclaresOnPath (root : TypeModel) (key : SignatureKey) (s : Site) : Prop :=
  s.OnPath root ∧ s.key root = key

/-- If every path counted, `R` would owe `f(S)` as well, but it does not. -/
theorem later_path_not_owed :
    TwoPaths.resolver.Used ∧ (TwoPaths.resolver.resolve {} ⟨"R"⟩).1 = .ok TwoPaths.bottom ∧
      (obligations (TwoPaths.resolver.lookup {}) TwoPaths.bottom).value = .ok [.method TwoPaths.obligation] ∧
      TwoPaths.bottom.OwesOf (Site.DeclaresOnPath TwoPaths.bottom ⟨"f", [.cls ⟨"S"⟩ []]⟩)
        ⟨"f", [.cls ⟨"S"⟩ []]⟩ ∧
      TwoPaths.obligation.key TwoPaths.bottom ≠ ⟨"f", [.cls ⟨"S"⟩ []]⟩ := by
  have offChain (s : Site) : ¬ s.OnChain TwoPaths.bottom := by
    simp [Site.OnChain, TypeModel.chain, TypeModel.isInterface, TwoPaths.bottom]
  refine ⟨TwoPaths.used, TwoPaths.resolved, TwoPaths.collected, ⟨?_, ?_, ?_, ?_⟩, by decide⟩
  · let node : Reached :=
      { model := TwoPaths.top, subst := [("T", .cls ⟨"S"⟩ [])], raw := false, depth := 2,
        onChain := false }
    exact ⟨⟨[1, 0], node, 0, TwoPaths.method⟩, ⟨rfl, rfl, rfl, by decide⟩, by cbv⟩
  · rintro ⟨s, _, onChain, _⟩
    exact offChain s onChain
  · rintro ⟨_, member⟩
    simp at member
  · rintro ⟨_, s, specific, concrete, _⟩
    rw [TwoPaths.method_abstract specific.declared.1] at concrete
    cases concrete

end JavaStubs
