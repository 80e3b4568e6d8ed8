import JavaStubs.Proofs.Obligation.Contract

namespace JavaStubs

namespace Site

variable {root : TypeModel} {s other : Site}

/-- A declaration is known by its type and its place there. -/
theorem InheritedBy.eq_of_place (inS : s.InheritedBy root) (inOther : other.InheritedBy root)
    (sameType : other.node.model.name = s.node.model.name) (sameIndex : other.index = s.index) :
    other = s := by
  obtain ⟨samePath, sameNode⟩ := inS.first.unique inOther.first sameType
  have sameMethod : other.method = s.method := by
    have declared := inOther.onPath.declared
    rw [sameNode, sameIndex, inS.onPath.declared] at declared
    exact (Option.some.inj declared).symm
  obtain ⟨path, node, index, method⟩ := s
  obtain ⟨path', node', index', method'⟩ := other
  simp only at samePath sameNode sameIndex sameMethod
  rw [samePath, sameNode, sameIndex, sameMethod]

theorem InheritedBy.depth_eq (inS : s.InheritedBy root) : s.inherited.depth = s.path.length :=
  TypeModel.climb_depth inS.first.leads

theorem Before.depth_le (before : s.Before other) (inS : s.InheritedBy root)
    (inOther : other.InheritedBy root) : s.inherited.depth ≤ other.inherited.depth := by
  rw [inS.depth_eq, inOther.depth_eq]
  rcases before with earlier | ⟨same, _⟩
  · exact earlier.length_le
  · rw [same]

/-- One declaration as two roots inherit it. -/
structure Twins (root root' : TypeModel) (s s' : Site) : Prop where
  left : s.InheritedBy root
  right : s'.InheritedBy root'
  index : s'.index = s.index
  declaredIn : s'.inherited.declaredIn = s.inherited.declaredIn
  method : s'.inherited.method = s.inherited.method
  ancestors : ∀ name, name ∈ s'.inherited.ancestors ↔ name ∈ s.inherited.ancestors
  depth : s'.inherited.depth = s.inherited.depth
  onChain : s'.inherited.onChain = s.inherited.onChain

theorem Twins.symm {root' : TypeModel} {s' : Site} (twins : s.Twins root root' s') :
    s'.Twins root' root s where
  left := twins.right
  right := twins.left
  index := twins.index.symm
  declaredIn := twins.declaredIn.symm
  method := twins.method.symm
  ancestors := fun name => (twins.ancestors name).symm
  depth := twins.depth.symm
  onChain := twins.onChain.symm

end Site

namespace TypeModel

/-- Every declaration that one of two roots inherits is inherited by the other as well. -/
structure Mirrors (root root' : TypeModel) : Prop where
  linked : root.Linked
  linked' : root'.Linked
  name : root'.name = root.name
  scope : root'.erasureScope = root.erasureScope
  there : ∀ s : Site, s.InheritedBy root → ∃ s', s.Twins root root' s'
  back : ∀ s' : Site, s'.InheritedBy root' → ∃ s, s'.Twins root' root s

theorem Mirrors.symm {root root' : TypeModel} (mirror : root.Mirrors root') : root'.Mirrors root where
  linked := mirror.linked'
  linked' := mirror.linked
  name := mirror.name.symm
  scope := mirror.scope.symm
  there := mirror.back
  back := mirror.there

end TypeModel

namespace Site.Twins

variable {root root' : TypeModel} {key : SignatureKey} {s s' t t' : Site}

theorem unique (one : s.Twins root root' s') (two : s.Twins root root' t') : t' = s' :=
  one.right.eq_of_place two.right (two.declaredIn.trans one.declaredIn.symm)
    (two.index.trans one.index.symm)

theorem modifiers (twins : s.Twins root root' s') : s'.method.isAbstract = s.method.isAbstract ∧
    s'.method.access = s.method.access ∧ s'.method.owner = s.method.owner :=
  ⟨(congrArg Method.isAbstract twins.method :), (congrArg Method.access twins.method :),
    (congrArg Method.owner twins.method :)⟩

theorem nearer (one : s.Twins root root' s') (two : t.Twins root root' t')
    (nearer : s.NearerThan t) : s'.NearerThan t' := by
  rcases nearer with shorter | ⟨samePath, less⟩
  · left
    rw [← one.right.depth_eq, ← two.right.depth_eq, one.depth, two.depth, one.left.depth_eq,
      two.left.depth_eq]
    exact shorter
  · have sameNode : s.node = t.node :=
      Option.some.inj (one.left.first.leads.symm.trans (samePath ▸ two.left.first.leads))
    have sameType : s'.node.model.name = t'.node.model.name := by
      calc s'.node.model.name = s.node.model.name := one.declaredIn
        _ = t.node.model.name := by rw [sameNode]
        _ = t'.node.model.name := two.declaredIn.symm
    refine Or.inr ⟨(two.right.first.unique one.right.first sameType).1, ?_⟩
    rw [one.index, two.index]
    exact less

theorem hasAncestor (mirror : root.Mirrors root') (one : s.Twins root root' s')
    (two : t.Twins root root' t') :
    s'.node.model.HasAncestor t'.node.model ↔ s.node.model.HasAncestor t.node.model := by
  rw [← isBelow_iff mirror.linked'.coherent two.right one.right,
    ← isBelow_iff mirror.linked.coherent two.left one.left]
  simp only [Inherited.isBelow, Bool.and_eq_true, bne_iff_ne, List.contains_iff_mem, one.declaredIn,
    two.declaredIn, one.ancestors]

theorem onChain_iff (mirror : root.Mirrors root') (twins : s.Twins root root' s') :
    s'.OnChain root' ↔ s.OnChain root := by
  rw [← Site.onChain_iff mirror.linked' twins.right, ← Site.onChain_iff mirror.linked twins.left,
    twins.onChain]

theorem declares (mirror : root.Mirrors root') (twins : s.Twins root root' s')
    (declares : s.Declares root key) : s'.Declares root' key := by
  have sameKey : s'.inherited.key root'.erasureScope = s.inherited.key root.erasureScope := by
    rw [Inherited.key, Inherited.key, twins.method, mirror.scope]
  exact ⟨twins.right, sameKey.trans declares.2⟩

theorem nearest (mirror : root.Mirrors root') (twins : s.Twins root root' s')
    (nearest : root.Nearest (Declares root key) s) : root'.Nearest (Declares root' key) s' := by
  refine ⟨twins.declares mirror nearest.declared, (twins.onChain_iff mirror).mpr nearest.onChain, ?_⟩
  intro other' declares' chain'
  obtain ⟨other, pair⟩ := mirror.back other' declares'.1
  rcases nearest.nearest other (pair.declares mirror.symm declares')
    ((pair.onChain_iff mirror.symm).mpr chain') with rfl | closer
  · exact Or.inl (twins.unique pair.symm)
  · exact Or.inr (twins.nearer pair.symm closer)

theorem specific (mirror : root.Mirrors root') (twins : s.Twins root root' s')
    (specific : root.Specific (Declares root key) s) : root'.Specific (Declares root' key) s' := by
  refine ⟨twins.declares mirror specific.declared, ?_, ?_⟩
  · rw [twins.onChain_iff mirror]
    exact specific.offChain
  · intro other' declares' offChain' below
    obtain ⟨other, pair⟩ := mirror.back other' declares'.1
    refine specific.lowest other (pair.declares mirror.symm declares') ?_
      ((pair.symm.hasAncestor mirror twins).mp below)
    rwa [pair.onChain_iff mirror.symm]

end Site.Twins

namespace TypeModel.Mirrors

variable {root root' : TypeModel} {key : SignatureKey} {s : Site}

theorem classProvides (mirror : root.Mirrors root')
    (provided : root.ClassProvides (Site.Declares root key)) :
    root'.ClassProvides (Site.Declares root' key) := by
  obtain ⟨s, declares, chain, concrete, nearest⟩ := provided
  obtain ⟨s', twins⟩ := mirror.there s declares.1
  have nearest' := twins.nearest mirror ⟨declares, chain, nearest⟩
  exact ⟨s', nearest'.declared, nearest'.onChain, twins.modifiers.1.trans concrete, nearest'.nearest⟩

theorem classless (mirror : root.Mirrors root') (classless : root.Classless (Site.Declares root key)) :
    root'.Classless (Site.Declares root' key) := by
  intro s' declares' chain'
  obtain ⟨s, twins⟩ := mirror.back s' declares'.1
  exact classless s (twins.declares mirror.symm declares') ((twins.onChain_iff mirror.symm).mpr chain')

theorem defaultProvides (mirror : root.Mirrors root')
    (provided : root.DefaultProvides (Site.Declares root key)) :
    root'.DefaultProvides (Site.Declares root' key) := by
  obtain ⟨classless, s, specific, concrete, only⟩ := provided
  obtain ⟨s', twins⟩ := mirror.there s specific.declared.1
  refine ⟨mirror.classless classless, s', twins.specific mirror specific,
    twins.modifiers.1.trans concrete, fun other' specific' => ?_⟩
  obtain ⟨other, pair⟩ := mirror.back other' specific'.declared.1
  obtain rfl := only other (pair.specific mirror.symm specific')
  exact twins.unique pair.symm

/-- The same keys are left to implement. -/
theorem owes (mirror : root.Mirrors root') (owes : root.Owes key) : root'.Owes key := by
  obtain ⟨⟨s, declares⟩, noClass, noObject, noDefault⟩ := owes
  obtain ⟨s', twins⟩ := mirror.there s declares.1
  refine ⟨⟨s', twins.declares mirror declares⟩, fun provided => ?_, fun provided => ?_,
    fun provided => ?_⟩
  · exact noClass (mirror.symm.classProvides provided)
  · exact noObject ⟨mirror.symm.classless provided.1, provided.2⟩
  · exact noDefault (mirror.symm.defaultProvides provided)

theorem candidate (mirror : root.Mirrors root') {sites sites' : List Site}
    (candidates : root.Candidates key sites) (candidates' : root'.Candidates key sites')
    (listed : s ∈ sites) : ∃ s' ∈ sites', s.Twins root root' s' := by
  rcases (candidates.members s).mp listed with nearest | specific
  · obtain ⟨s', twins⟩ := mirror.there s nearest.declared.1
    exact ⟨s', (candidates'.members s').mpr (Or.inl (twins.nearest mirror nearest)), twins⟩
  · obtain ⟨s', twins⟩ := mirror.there s specific.declared.1
    exact ⟨s', (candidates'.members s').mpr (Or.inr (twins.specific mirror specific)), twins⟩

variable {base base' : Site} {others others' : List Site}

theorem base_depth_le (mirror : root.Mirrors root') (isOpen : root.Open key base others)
    (isOpen' : root'.Open key base' others') : base.inherited.depth ≤ base'.inherited.depth := by
  obtain ⟨s, listed, twins⟩ := mirror.symm.candidate isOpen'.candidates isOpen.candidates
    (List.mem_cons_self ..)
  rcases List.mem_cons.mp listed with rfl | later
  · exact twins.depth.le
  · obtain ⟨offChain, order⟩ := (List.pairwise_cons.mp isOpen.candidates.order).1 s later
    obtain ⟨first', listed', pair⟩ := mirror.candidate isOpen.candidates isOpen'.candidates
      (List.mem_cons_self ..)
    rcases order with chain | before
    · -- Only the first candidate can be a class's, and it is one for both roots or for neither.
      have chain' := (pair.onChain_iff mirror).mpr chain
      rcases List.mem_cons.mp listed' with rfl | later'
      · exact absurd ((twins.onChain_iff mirror.symm).mpr chain') offChain
      · exact absurd chain' ((List.pairwise_cons.mp isOpen'.candidates.order).1 first' later').1
    · exact (before.depth_le pair.left twins.right).trans twins.depth.le

/-- The candidates that stand for all may differ, but not in depth. -/
theorem base_depth (mirror : root.Mirrors root') (isOpen : root.Open key base others)
    (isOpen' : root'.Open key base' others') : base'.inherited.depth = base.inherited.depth :=
  Nat.le_antisymm (mirror.symm.base_depth_le isOpen' isOpen) (mirror.base_depth_le isOpen isOpen')

theorem mayOverride (mirror : root.Mirrors root') (isOpen : root.Open key base others)
    (isOpen' : root'.Open key base' others') (allowed : root.MayOverride (base :: others)) :
    root'.MayOverride (base' :: others') := by
  intro s' listed' isAbstract packaged
  obtain ⟨s, listed, twins⟩ := mirror.symm.candidate isOpen'.candidates isOpen.candidates listed'
  obtain ⟨sameKind, sameAccess, sameOwner⟩ := twins.modifiers
  rw [mirror.name, ← sameOwner]
  exact allowed s listed (sameKind.trans isAbstract) (sameAccess.trans packaged)

end TypeModel.Mirrors

namespace Knowledge

/-- Two ways of judging that never differ. -/
def Agrees (known known' : Knowledge) : Prop := ∀ sub sup, known'.Below sub sup ↔ known.Below sub sup

variable {known known' : Knowledge}

theorem Agrees.symm (agrees : known.Agrees known') : known'.Agrees known := fun sub sup =>
  (agrees sub sup).symm

theorem Agrees.covers (agrees : known.Agrees known') {narrow wide : List Ty} :
    known'.Covers narrow wide ↔ known.Covers narrow wide := by
  simp only [Covers, agrees _ _]

theorem Agrees.checked (agrees : known.Agrees known') {e : Ty} :
    known'.Checked e ↔ known.Checked e := by
  simp only [Checked, agrees _ _]

end Knowledge

/-- What is known in the terms of a root. -/
def TypeModel.knowledge (lookup : QualName → Option TypeModel) (root : TypeModel) : Knowledge :=
  ({ lookup } : Knowledge).withParameters root.typeParameters

/-- What a declaration without type parameters asks of an implementation. -/
def Site.asks (known : Knowledge) (s : Site) : Collect.Contract where
  result := s.inherited.method.result
  throwing := s.inherited.method.throwing.filter fun e => known.Checked e

namespace Collect

/-- Mirrored roots that inherit no method with type parameters, and lookups that judge types
alike. -/
structure Balanced (lookup lookup' : QualName → Option TypeModel) (root root' : TypeModel) : Prop where
  mirror : root.Mirrors root'
  plain : ∀ s : Site, s.InheritedBy root → s.inherited.method.typeParameters = []
  agrees : (root.knowledge lookup).Agrees (root'.knowledge lookup')

variable {lookup lookup' : QualName → Option TypeModel} {root root' : TypeModel}
  {key : SignatureKey} {base base' : Site} {others others' : List Site}

theorem knowledgeAt_of_plain (plain : base.inherited.method.typeParameters = []) :
    root.knowledgeAt lookup base = root.knowledge lookup := by
  rw [TypeModel.knowledgeAt, knowledgeFor, plain]
  rfl

/-- Without type parameters nothing has to be put in the terms of the first candidate. -/
theorem demands_of_plain (plain : base.inherited.method.typeParameters = []) :
    root.demands lookup base others = (base :: others).map (Site.asks (root.knowledge lookup)) := by
  rw [TypeModel.demands, knowledgeAt_of_plain plain]
  refine List.map_congr_left fun s _ => ?_
  simp [contractIn, align, plain, Site.asks]

theorem Defect.of_same {known known' : Knowledge} (agrees : known.Agrees known')
    {all all' : List Contract} (same : ∀ c, c ∈ all' ↔ c ∈ all) {reason : ConflictReason}
    (defect : Defect known all reason) : ∃ reason', Defect known' all' reason' := by
  cases defect with
  | results none =>
    refine ⟨_, .results fun c listed => ?_⟩
    obtain ⟨other, listedOther, fails⟩ := none c ((same c).mp listed)
    exact ⟨other, (same other).mpr listedOther, by rwa [agrees]⟩
  | throwsClauses c other listed listedOther uncovered uncoveredOther =>
    refine ⟨_, .throwsClauses c other ((same c).mpr listed) ((same other).mpr listedOther) ?_ ?_⟩
    · rwa [agrees.covers]
    · rwa [agrees.covers]
  | noCommonThrows none =>
    refine ⟨_, .noCommonThrows fun c listed => ?_⟩
    obtain ⟨other, listedOther, fails⟩ := none c ((same c).mp listed)
    exact ⟨other, (same other).mpr listedOther, by rwa [agrees.covers]⟩

theorem Agreed.of_same {known known' : Knowledge} (agrees : known.Agrees known')
    {all all' : List Contract} (same : ∀ c, c ∈ all' ↔ c ∈ all) {contract : Contract}
    (agreed : Agreed known all contract) : Agreed known' all' contract := by
  obtain ⟨c, listed, sameResult⟩ := agreed.result
  obtain ⟨other, listedOther, sameClause⟩ := agreed.throwing
  constructor
  case result => exact ⟨c, (same c).mpr listed, sameResult⟩
  case narrow => exact fun c inside => (agrees ..).mpr (agreed.narrow c ((same c).mp inside))
  case throwing => exact ⟨other, (same other).mpr listedOther, sameClause⟩
  case covered => exact fun c inside => agrees.covers.mpr (agreed.covered c ((same c).mp inside))
  case comparable =>
    intro c inside other insideOther
    rw [agrees.covers, agrees.covers]
    exact agreed.comparable c ((same c).mp inside) other ((same other).mp insideOther)

/-- Two agreements of the same contracts can stand in for each other. -/
theorem Agreed.below {known : Knowledge} {all : List Contract} {contract contract' : Contract}
    (agreed : Agreed known all contract) (agreed' : Agreed known all contract') :
    known.Below contract.result contract'.result ∧
      known.Covers contract.throwing contract'.throwing := by
  obtain ⟨c, listed, sameResult⟩ := agreed'.result
  obtain ⟨other, listedOther, sameClause⟩ := agreed'.throwing
  rw [sameResult, sameClause]
  exact ⟨agreed.narrow c listed, agreed.covered other listedOther⟩

namespace Balanced

theorem symm (balanced : Balanced lookup lookup' root root') : Balanced lookup' lookup root' root where
  mirror := balanced.mirror.symm
  plain := by
    intro s' inherited
    obtain ⟨s, twins⟩ := balanced.mirror.back s' inherited
    rw [← twins.method]
    exact balanced.plain s twins.right
  agrees := balanced.agrees.symm

theorem base_plain (balanced : Balanced lookup lookup' root root')
    (isOpen : root.Open key base others) : base.inherited.method.typeParameters = [] :=
  balanced.plain base (isOpen.candidates.declares (List.mem_cons_self ..)).1

theorem demand (balanced : Balanced lookup lookup' root root') (isOpen : root.Open key base others)
    (isOpen' : root'.Open key base' others') {c : Contract}
    (asked : c ∈ root.demands lookup base others) : c ∈ root'.demands lookup' base' others' := by
  rw [demands_of_plain (balanced.base_plain isOpen)] at asked
  rw [demands_of_plain (balanced.symm.base_plain isOpen')]
  obtain ⟨s, listed, rfl⟩ := List.mem_map.mp asked
  obtain ⟨s', listed', twins⟩ := balanced.mirror.candidate isOpen.candidates isOpen'.candidates listed
  have same : s'.asks (root'.knowledge lookup') = s.asks (root.knowledge lookup) := by
    simp only [Site.asks, twins.method, balanced.agrees.checked]
  rw [← same]
  exact List.mem_map_of_mem listed'

theorem demand_iff (balanced : Balanced lookup lookup' root root') (isOpen : root.Open key base others)
    (isOpen' : root'.Open key base' others') (c : Contract) :
    c ∈ root'.demands lookup' base' others' ↔ c ∈ root.demands lookup base others :=
  ⟨balanced.symm.demand isOpen' isOpen, balanced.demand isOpen isOpen'⟩

theorem agreesAt (balanced : Balanced lookup lookup' root root') (isOpen : root.Open key base others)
    (isOpen' : root'.Open key base' others') :
    (root.knowledgeAt lookup base).Agrees (root'.knowledgeAt lookup' base') := by
  rw [knowledgeAt_of_plain (balanced.base_plain isOpen),
    knowledgeAt_of_plain (balanced.symm.base_plain isOpen')]
  exact balanced.agrees

/-- No group of one root fails if none of the other does. -/
theorem settled (balanced : Balanced lookup lookup' root root')
    (settled : ∀ group ∈ MethodGroup.ofRoot root,
      ∃ found, (resolve lookup root group).value = .ok found) :
    ∀ group ∈ MethodGroup.ofRoot root', ∃ found, (resolve lookup' root' group).value = .ok found := by
  have mirror := balanced.mirror
  rw [settled_iff mirror.linked] at settled
  rw [settled_iff mirror.linked']
  intro key base' others' isOpen'
  obtain ⟨base, others, isOpen⟩ := exists_open mirror.linked (mirror.symm.owes isOpen'.owed)
  obtain ⟨allowed, harmless⟩ := settled key base others isOpen
  refine ⟨mirror.mayOverride isOpen isOpen' allowed, fun reason' defect' => ?_⟩
  obtain ⟨reason, defect⟩ := defect'.of_same (balanced.agreesAt isOpen isOpen').symm
    fun c => (balanced.demand_iff isOpen isOpen' c).symm
  exact harmless reason defect

end Balanced

/-- An entry is as deep as the candidate that stands for all. -/
theorem entry_depth (linked : root.Linked) {entry : SignatureKey × MethodObligation}
    (member : entry ∈ entriesOf lookup root (MethodGroup.ofRoot root))
    (isOpen : root.Open entry.1 base others) : entry.2.depth = base.inherited.depth := by
  obtain ⟨group, inside, sameKey, owes⟩ := mem_entriesOf.mp member
  obtain ⟨first, rest, contract, unsatisfied, _, _, value⟩ := resolve_value_some (owed_eq_some.mp owes)
  obtain ⟨sites, listed, candidates⟩ := MethodGroup.exists_candidates linked inside
    (by simp [unsatisfied])
  rw [sameKey] at candidates
  obtain rfl := candidates.unique isOpen.candidates
  rw [unsatisfied, List.map_cons, List.cons.injEq] at listed
  rw [value, ← listed.1]
  rfl

end Collect

/-- Obligations of two roots for one method that ask the same of an implementation: each result is
a subtype of the other, and each throws clause covers the other. -/
structure MethodObligation.Matches (known : Knowledge) (root root' : TypeModel)
    (o o' : MethodObligation) : Prop where
  key : o'.key root' = o.key root
  depth : o'.depth = o.depth
  access : o'.access = o.access
  results : known.Below o.result o'.result ∧ known.Below o'.result o.result
  throwing : known.Covers o.throwing o'.throwing ∧ known.Covers o'.throwing o.throwing

theorem MethodObligation.Fulfils.access_le {lookup lookup' : QualName → Option TypeModel}
    {root root' : TypeModel} {key : SignatureKey} {base base' : Site} {others others' : List Site}
    {o o' : MethodObligation} (mirror : root.Mirrors root') (isOpen : root.Open key base others)
    (isOpen' : root'.Open key base' others') (fulfils : o.Fulfils lookup root base others)
    (fulfils' : o'.Fulfils lookup' root' base' others') : o.access.rank ≤ o'.access.rank := by
  obtain ⟨s, listed, same⟩ := fulfils.access
  obtain ⟨s', listed', twins⟩ := mirror.candidate isOpen.candidates isOpen'.candidates listed
  rw [same, ← twins.modifiers.2.1]
  exact fulfils'.widest s' listed'

theorem Access.rank_injective {a b : Access} (same : a.rank = b.rank) : a = b := by
  cases a <;> cases b <;> simp_all [Access.rank]

/-- Sorted lists whose items have counterparts on the other side are paired one by one. -/
theorem forall₂_of_sorted {α β : Type} {R : α → β → Prop} {before : α → α → Prop}
    {before' : β → β → Prop} (asymm : ∀ a b, before a b → ¬ before b a)
    (alike : ∀ a a' b b', R a a' → R b b' → (before' a' b' ↔ before a b)) {items : List α}
    {items' : List β} (sorted : items.Pairwise before) (sorted' : items'.Pairwise before')
    (there : ∀ a ∈ items, ∃ a' ∈ items', R a a') (back : ∀ a' ∈ items', ∃ a ∈ items, R a a') :
    List.Forall₂ R items items' := by
  have irrefl (a : α) : ¬ before a a := fun less => asymm a a less less
  induction items generalizing items' with
  | nil =>
    cases items' with
    | nil => exact .nil
    | cons first' rest' =>
      obtain ⟨a, member, _⟩ := back first' (List.mem_cons_self ..)
      simp at member
  | cons first rest ih =>
    cases items' with
    | nil =>
      obtain ⟨a', member, _⟩ := there first (List.mem_cons_self ..)
      simp at member
    | cons first' rest' =>
      rw [List.pairwise_cons] at sorted sorted'
      obtain ⟨partner', listed', pair⟩ := there first (List.mem_cons_self ..)
      obtain ⟨partner, listed, pair'⟩ := back first' (List.mem_cons_self ..)
      -- If the first items had partners further on, each of them would come before the other.
      have firsts : R first first' := by
        rcases List.mem_cons.mp listed with rfl | later
        · exact pair'
        · rcases List.mem_cons.mp listed' with rfl | later'
          · exact pair
          · have less := sorted.1 partner later
            have more := (alike _ _ _ _ pair' pair).mp (sorted'.1 partner' later')
            exact absurd more (asymm _ _ less)
      refine .cons firsts (ih sorted.2 sorted'.2 (fun a member => ?_) (fun a' member' => ?_))
      · obtain ⟨a', inside', related⟩ := there a (List.mem_cons_of_mem _ member)
        rcases List.mem_cons.mp inside' with rfl | later'
        · have less := (alike _ _ _ _ firsts related).mpr (sorted.1 a member)
          exact absurd ((alike _ _ _ _ firsts firsts).mp less) (irrefl _)
        · exact ⟨a', later', related⟩
      · obtain ⟨a, inside, related⟩ := back a' (List.mem_cons_of_mem _ member')
        rcases List.mem_cons.mp inside with rfl | later
        · exact absurd ((alike _ _ _ _ firsts related).mp (sorted'.1 a' member')) (irrefl _)
        · exact ⟨a, later, related⟩

namespace Collect.Balanced

variable {lookup lookup' : QualName → Option TypeModel} {root root' : TypeModel}

/-- What two balanced roots collect for one key matches. -/
theorem entries_match (balanced : Balanced lookup lookup' root root')
    {entry entry' : SignatureKey × MethodObligation}
    (member : entry ∈ entriesOf lookup root (MethodGroup.ofRoot root))
    (member' : entry' ∈ entriesOf lookup' root' (MethodGroup.ofRoot root'))
    (owes : root.Owes entry.1) (sameKey : entry'.1 = entry.1) :
    entry.2.Matches (root.knowledge lookup) root root' entry'.2 := by
  have mirror := balanced.mirror
  obtain ⟨base, others, isOpen⟩ := exists_open mirror.linked owes
  obtain ⟨base', others', isOpen'⟩ := exists_open mirror.linked' (mirror.owes owes)
  have openThere : root'.Open entry'.1 base' others' := sameKey ▸ isOpen'
  have fulfils := entry_fulfils mirror.linked member isOpen
  have fulfils' := entry_fulfils mirror.linked' member' openThere
  have agreed := fulfils.agreed
  have agreed' := fulfils'.agreed.of_same (balanced.agreesAt isOpen isOpen').symm
    fun c => (balanced.demand_iff isOpen isOpen' c).symm
  rw [knowledgeAt_of_plain (balanced.base_plain isOpen)] at agreed agreed'
  have wider := fulfils.access_le mirror isOpen isOpen' fulfils'
  have narrower := fulfils'.access_le mirror.symm isOpen' isOpen fulfils
  constructor
  case key => rw [entry_key member, entry_key member', sameKey]
  case depth =>
    rw [entry_depth mirror.linked member isOpen, entry_depth mirror.linked' member' openThere]
    exact mirror.base_depth isOpen isOpen'
  case access => exact Access.rank_injective (Nat.le_antisymm narrower wider)
  case results => exact ⟨(agreed.below agreed').1, (agreed'.below agreed).1⟩
  case throwing => exact ⟨(agreed.below agreed').2, (agreed'.below agreed).2⟩

/-- Where both collections succeed, their methods match one by one. -/
theorem methods_match (balanced : Balanced lookup lookup' root root') {obs obs' : List Obligation}
    (collected : (obligations lookup root).value = .ok obs)
    (collected' : (obligations lookup' root').value = .ok obs') :
    List.Forall₂ (MethodObligation.Matches (root.knowledge lookup) root root') (methodsOf obs)
      (methodsOf obs') := by
  have mirror := balanced.mirror
  obtain ⟨_, _, entries, resolved, methods⟩ := collected_parts collected
  obtain ⟨_, _, entries', resolved', methods'⟩ := collected_parts collected'
  obtain ⟨settled, rfl⟩ := resolveAll_value.mp resolved
  obtain ⟨settled', rfl⟩ := resolveAll_value.mp resolved'
  let Pair (entry entry' : SignatureKey × MethodObligation) : Prop :=
    entry'.1 = entry.1 ∧ entry.2.Matches (root.knowledge lookup) root root' entry'.2
  rw [methods, methods', List.forall₂_map_left_iff, List.forall₂_map_right_iff]
  refine List.Forall₂.imp (fun _ _ pair => pair.2) (forall₂_of_sorted (R := Pair) ?_ ?_
    (entries_sorted mirror.linked) (entries_sorted mirror.linked') ?_ ?_)
  · intro a b less more
    rw [compareEntries_swap a b, less] at more
    cases more
  · intro a a' b b' pairA pairB
    simp only [compareEntries, compareLex, compareOn, pairA.1, pairB.1, pairA.2.depth, pairB.2.depth]
  · intro entry sorted
    have member := List.mem_mergeSort.mp sorted
    have owes := (exists_entry_iff mirror.linked settled).mp ⟨entry, member, rfl⟩
    obtain ⟨entry', member', sameKey⟩ :=
      (exists_entry_iff mirror.linked' settled').mpr (mirror.owes owes)
    exact ⟨entry', List.mem_mergeSort.mpr member', sameKey,
      balanced.entries_match member member' owes sameKey⟩
  · intro entry' sorted'
    have member' := List.mem_mergeSort.mp sorted'
    have owes' := (exists_entry_iff mirror.linked' settled').mp ⟨entry', member', rfl⟩
    obtain ⟨entry, member, sameKey⟩ :=
      (exists_entry_iff mirror.linked settled).mpr (mirror.symm.owes owes')
    exact ⟨entry, List.mem_mergeSort.mpr member, sameKey.symm,
      balanced.entries_match member member' (sameKey ▸ mirror.symm.owes owes') sameKey.symm⟩

end Collect.Balanced

end JavaStubs
