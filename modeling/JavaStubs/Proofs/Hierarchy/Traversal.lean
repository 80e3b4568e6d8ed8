import JavaStubs.Proofs.Hierarchy.Arguments
import Mathlib

namespace JavaStubs

namespace TypeModel

/-- A number of links that lead from a type up to another. -/
inductive LinkPath : Nat → TypeModel → TypeModel → Prop
  | nil (model : TypeModel) : LinkPath 0 model model
  | cons {links : Nat} {model upper : TypeModel} {link : Supertype TypeModel}
      (member : link ∈ model.supertypes) (rest : LinkPath links link.model upper) :
      LinkPath (links + 1) model upper

end TypeModel

namespace Reached

theorem follow_linkPath {node next : Reached} {path : List Nat} (led : node.follow path = some next) :
    TypeModel.LinkPath path.length node.model next.model := by
  induction path generalizing node with
  | nil =>
    cases led
    exact .nil _
  | cons i path ih =>
    obtain ⟨link, found, rest⟩ := Option.bind_eq_some_iff.mp led
    exact .cons (List.mem_of_getElem? (links_getElem? found)) (ih rest)

theorem exists_follow_of_linkPath {links : Nat} {model upper : TypeModel}
    (way : TypeModel.LinkPath links model upper) : ∀ node : Reached, node.model = model →
      ∃ path next, node.follow path = some next ∧ path.length = links ∧ next.model = upper := by
  induction way with
  | nil model =>
    intro node same
    exact ⟨[], node, rfl, rfl, same⟩
  | @cons links model upper link member _ ih =>
    rintro node rfl
    obtain ⟨i, found⟩ := List.mem_iff_getElem?.mp member
    obtain ⟨flag, here⟩ := exists_link found
    obtain ⟨path, next, led, length, same⟩ := ih (node.enter (link, flag)) rfl
    refine ⟨i :: path, next, ?_, by rw [List.length_cons, length], same⟩
    rw [follow, here]
    exact led

end Reached

/-- The first member of a list that has a property. -/
def FirstWith {α : Type} (p : α → Prop) (list : List α) (a : α) : Prop :=
  p a ∧ ∃ before after, list = before ++ a :: after ∧ ∀ b ∈ before, ¬ p b

theorem FirstWith.unique {α : Type} {p : α → Prop} {list : List α} {a b : α} (first : FirstWith p list a)
    (other : FirstWith p list b) : a = b := by
  classical
  have found : ∀ c, FirstWith p list c → list.find? (fun x => decide (p x)) = some c := by
    rintro c ⟨has, before, after, same, none⟩
    exact List.find?_eq_some_iff_append.mpr
      ⟨by simpa using has, before, after, same, fun x early => by simpa using none x early⟩
  exact Option.some.inj ((found a first).symm.trans (found b other))

namespace TypeModel.FirstPath

variable {root : TypeModel} {path other : List Nat} {node next : Reached} {i j : Nat}

/-- No link to the type lies on an earlier path. -/
theorem not_earlier (first : root.FirstPath path node) (led : root.climb other = some next)
    {link : Supertype TypeModel} (found : next.model.supertypes[j]? = some link)
    (target : link.model = node.model) : ¬ Earlier (other ++ [j]) path := by
  obtain ⟨flag, here⟩ := Reached.exists_link found
  have continued : root.climb (other ++ [j]) = some (next.enter (link, flag)) :=
    Reached.follow_concat.mpr ⟨next, _, led, here, rfl⟩
  intro earlier
  rcases first.first _ _ continued (congrArg name target) with rfl | later
  · exact Earlier.irrefl _ earlier
  · exact Earlier.irrefl _ (earlier.trans later)

/-- The depth of a type is the length of a shortest way to it. -/
theorem depth_isLeast (first : root.FirstPath path node) :
    IsLeast {links | root.LinkPath links node.model} node.depth := by
  rw [climb_depth first.leads]
  refine ⟨Reached.follow_linkPath first.leads, fun links way => ?_⟩
  obtain ⟨other, next, led, length, same⟩ :=
    Reached.exists_follow_of_linkPath way (Reached.root root) rfl
  rw [← length]
  rcases first.first other next led (congrArg name same) with rfl | later
  · exact Nat.le_refl _
  · exact later.length_le

/-- The way to a type on its first path is the first path to every type on it. -/
theorem parent (coherent : root.Coherent) (first : root.FirstPath (path ++ [i]) node) :
    ∃ before link, root.FirstPath path before ∧ before.links[i]? = some link ∧ node = before.enter link := by
  obtain ⟨before, link, led, found, rfl⟩ := Reached.follow_concat.mp first.leads
  refine ⟨before, link, ⟨led, fun other next ledOther sameName => ?_⟩, found, rfl⟩
  have same : next.model = before.model :=
    coherent _ _ (Reached.follow_reaches ledOther) (Reached.follow_reaches led) sameName
  have listed : next.model.supertypes[i]? = some link.1 := same ▸ Reached.links_getElem? found
  -- A way to the type before could be continued over the same link.
  have notEarlier : ¬ Earlier other path := fun earlier =>
    first.not_earlier ledOther listed rfl (earlier.concat i i)
  by_cases later : Earlier path other
  · exact .inr later
  · exact .inl (Std.Trichotomous.trichotomous other path notEarlier later)

end TypeModel.FirstPath

namespace Hierarchy

/-- A type is entered from the first visited type that has a link to it, over the first such link. -/
structure Enters (nodes : List Reached) (parent : Reached) (link : Supertype TypeModel)
    (node : Reached) : Prop where
  visited : node ∈ nodes
  nearest : FirstWith (fun earlier => earlier.model.HasSupertype node.model) nodes parent
  foremost : FirstWith (fun other => other.model = node.model) parent.model.supertypes link

/-- A type that is entered through a raw link or lies below one. -/
inductive EnteredRaw (nodes : List Reached) : Reached → Prop
  | through {parent node : Reached} {link : Supertype TypeModel} (enters : Enters nodes parent link node)
      (raw : link.isRaw = true) : EnteredRaw nodes node
  | further {parent node : Reached} {link : Supertype TypeModel} (enters : Enters nodes parent link node)
      (behind : EnteredRaw nodes parent) : EnteredRaw nodes node

variable {root : TypeModel} {node : Reached}

/-- Every type but the root is entered, and it is what the link makes of it. -/
theorem exists_enters (coherent : root.Coherent) (member : node ∈ ofRoot root) :
    node = Reached.root root ∨
      ∃ parent ∈ ofRoot root, ∃ link, Enters (ofRoot root) parent link.1 node ∧ node = parent.enter link := by
  obtain ⟨entries, walked, sorted, firsts, _⟩ := ofRoot_firstPaths coherent
  obtain ⟨path, first⟩ := (mem_ofRoot coherent).mp member
  cases path using List.reverseRecOn with
  | nil => exact .inl (Option.some.inj first.leads).symm
  | append_singleton path i =>
    obtain ⟨parent, link, firstParent, found, entered⟩ := first.parent coherent
    have target : link.1.model = node.model := by rw [entered]; rfl
    have listed := Reached.links_getElem? found
    have up : parent.model.HasSupertype node.model := ⟨link.1, List.mem_of_getElem? listed, target⟩
    refine .inr ⟨parent, (mem_ofRoot coherent).mpr ⟨path, firstParent⟩, link,
      ⟨member, ⟨up, ?_⟩, target, ?_⟩, entered⟩
    · -- Whoever was visited before the parent has an earlier path.
      obtain ⟨before, after, split⟩ := List.append_of_mem ((firsts path parent).mpr firstParent)
      rw [split, List.pairwise_append] at sorted
      refine ⟨before.map Prod.snd, after.map Prod.snd, by rw [walked, split]; simp, ?_⟩
      rintro visited early ⟨other, above, sameTarget⟩
      obtain ⟨entry, inside, rfl⟩ := List.mem_map.mp early
      obtain ⟨j, at_j⟩ := List.mem_iff_getElem?.mp above
      have led := ((firsts entry.1 entry.2).mp (split ▸ List.mem_append_left _ inside)).leads
      have earlier := sorted.2.2 entry inside _ (List.mem_cons_self ..)
      exact first.not_earlier led at_j sameTarget (earlier.concat j i)
    · obtain ⟨inside, value⟩ := List.getElem?_eq_some_iff.mp listed
      refine ⟨parent.model.supertypes.take i, parent.model.supertypes.drop (i + 1), ?_, ?_⟩
      · rw [← value, ← List.drop_eq_getElem_cons inside, List.take_append_drop]
      · intro other early sameTarget
        obtain ⟨j, at_j⟩ := List.mem_iff_getElem?.mp early
        rw [List.getElem?_take] at at_j
        split at at_j
        · rename_i before
          exact first.not_earlier firstParent.leads at_j sameTarget (Earlier.step before)
        · cases at_j

/-- A type is just as raw as the type it is entered from and the link together. -/
theorem Enters.raw (coherent : root.Coherent) {parent : Reached} {link : Supertype TypeModel}
    (enters : Enters (ofRoot root) parent link node) : node.raw = (parent.raw || link.isRaw) := by
  rcases exists_enters coherent enters.visited with rfl | ⟨other, _, taken, again, entered⟩
  · -- Nothing that is visited has a link back to the root.
    obtain ⟨⟨back, above, same⟩, before, after, walked, _⟩ := enters.nearest
    have visited : parent ∈ ofRoot root := by rw [walked]; simp
    obtain ⟨path, first⟩ := (mem_ofRoot coherent).mp visited
    have reached : root.Reaches parent.model := Reached.follow_reaches first.leads
    have cycle : root.HasAncestor root := Relation.TransGen.tail' reached ⟨back, above, same⟩
    exact absurd cycle.sizeOf_lt (Nat.lt_irrefl _)
  · obtain rfl : other = parent := again.nearest.unique enters.nearest
    obtain rfl : taken.1 = link := again.foremost.unique enters.foremost
    rw [entered]
    rfl

/-- The flag of a type says whether it lies behind a raw link. -/
theorem raw_iff_enteredRaw (coherent : root.Coherent) (member : node ∈ ofRoot root) :
    node.raw = true ↔ EnteredRaw (ofRoot root) node := by
  constructor
  · intro raw
    induction depth : node.depth using Nat.strongRecOn generalizing node with
    | _ n ih =>
      rcases exists_enters coherent member with rfl | ⟨parent, visited, link, enters, rfl⟩
      · cases raw
      · rw [enters.raw coherent, Bool.or_eq_true] at raw
        rcases raw with behind | isRaw
        · exact .further enters (ih parent.depth (depth ▸ Nat.lt_succ_self _) visited behind rfl)
        · exact .through enters isRaw
  · intro entered
    clear member
    induction entered with
    | through enters raw => rw [enters.raw coherent, raw, Bool.or_true]
    | further enters _ ih => rw [enters.raw coherent, ih, Bool.true_or]

end Hierarchy

namespace Reached

variable {root : TypeModel} {path : List Nat} {node : Reached}

theorem subst_of_raw (led : root.climb path = some node) (raw : node.raw = true) :
    node.subst = node.model.rawSubstitution := by
  cases path using List.reverseRecOn with
  | nil =>
    cases led
    cases raw
  | append_singleton path i =>
    obtain ⟨before, link, _, _, rfl⟩ := follow_concat.mp led
    exact if_pos raw

/-- Behind a raw link every parameter stands for a type without variables. -/
theorem lookup_of_raw (linked : root.Linked) (led : root.climb path = some node)
    (raw : node.raw = true) {v : String} (declared : v ∈ node.model.parameterNames) :
    ∃ ty, node.subst.lookup v = some ty ∧ ty.vars = [] := by
  have proper := linked.proper _ (follow_reaches led)
  have keys : node.model.rawSubstitution.map Prod.fst = node.model.parameterNames := by
    simp [TypeModel.rawSubstitution, TypeModel.parameterNames, Function.comp_def]
  rw [subst_of_raw led raw]
  obtain ⟨entry, member, rfl⟩ := List.mem_map.mp (keys ▸ declared)
  refine ⟨entry.2, lookup_of_mem (keys ▸ proper.distinct) member, ?_⟩
  exact List.eq_nil_iff_forall_not_mem.mpr fun v occurs =>
    absurd ((rawSubstitution_entry proper member).declared v occurs) List.not_mem_nil

end Reached

namespace Hierarchy

/-- What a walk over the types above a root delivers. -/
structure Traverses (root : TypeModel) (nodes : List Reached) : Prop where
  distinct : (nodes.map Reached.model).Nodup
  complete : ∀ model, model ∈ nodes.map Reached.model ↔ root.Reaches model
  ordered : nodes.Pairwise (·.depth ≤ ·.depth)
  shortest : ∀ node ∈ nodes, IsLeast {links | root.LinkPath links node.model} node.depth
  onChain : ∀ node ∈ nodes, node.onChain = true ↔ node.model.isInterface = false
  /-- As seen from the root, a method mentions the root's type parameters and its own. -/
  closed : ∀ node ∈ nodes, ∀ m ∈ node.model.methods, ∀ ty ∈ (m.subst node.subst).types,
    ∀ v ∈ ty.vars, v ∈ root.parameterNames ∨ v ∈ (m.subst node.subst).declaredNames
  flag : ∀ node ∈ nodes, node.raw = true ↔ EnteredRaw nodes node
  raw : ∀ node, EnteredRaw nodes node → ∀ v ∈ node.model.parameterNames,
    ∃ ty, node.subst.lookup v = some ty ∧ ty.vars = []

theorem mem_models_ofRoot (coherent : root.Coherent) {model : TypeModel} :
    model ∈ (ofRoot root).map Reached.model ↔ root.Reaches model := by
  constructor
  · intro visited
    obtain ⟨node, member, rfl⟩ := List.mem_map.mp visited
    obtain ⟨path, first⟩ := (mem_ofRoot coherent).mp member
    exact Reached.follow_reaches first.leads
  · intro reached
    obtain ⟨path, node, first, rfl⟩ := TypeModel.exists_firstPath coherent reached
    exact List.mem_map_of_mem ((mem_ofRoot coherent).mpr ⟨path, first⟩)

/-- Paths are visited in their order, and shorter ones come first. -/
theorem ofRoot_ordered (coherent : root.Coherent) :
    (ofRoot root).Pairwise (·.depth ≤ ·.depth) := by
  obtain ⟨entries, walked, sorted, firsts, _⟩ := ofRoot_firstPaths coherent
  have depth : ∀ entry ∈ entries, entry.2.depth = entry.1.length := fun entry member =>
    TypeModel.climb_depth ((firsts entry.1 entry.2).mp member).leads
  rw [walked, List.pairwise_map]
  refine sorted.imp_of_mem fun left right earlier => ?_
  rw [depth _ left, depth _ right]
  exact earlier.length_le

end Hierarchy

/-- Whatever root a resolver returns, the walk above it delivers every type once and nearest first,
tells classes from interfaces, and leaves no variables but the root's and a method's own. -/
theorem ofRoot_traverses {fs : FileSystem} {resolver : Resolver} {name : QualName} {root : TypeModel}
    (used : resolver.Used) (resolved : (resolver.resolve fs name).1 = .ok root) :
    Hierarchy.Traverses root (Hierarchy.ofRoot root) := by
  have linked := used.linked resolved
  have path : ∀ node ∈ Hierarchy.ofRoot root, ∃ path, root.FirstPath path node := fun node member =>
    (Hierarchy.mem_ofRoot linked.coherent).mp member
  constructor
  case distinct =>
    have names := Hierarchy.names_ofRoot_nodup root
    exact List.Nodup.of_map TypeModel.name (by simpa [Hierarchy.names, Function.comp_def] using names)
  case complete => exact fun model => Hierarchy.mem_models_ofRoot linked.coherent
  case ordered => exact Hierarchy.ofRoot_ordered linked.coherent
  case shortest =>
    intro node member
    obtain ⟨path, first⟩ := path node member
    exact first.depth_isLeast
  case onChain =>
    intro node member
    obtain ⟨path, first⟩ := path node member
    rw [(Reached.onChain_spec linked first.leads).1, Bool.not_eq_true']
  case closed =>
    intro node member m declared ty written v occurs
    obtain ⟨path, first⟩ := path node member
    have proper := (linked.proper _ (Reached.follow_reaches first.leads)).methods m declared
    have seen := proper.subst (Reached.arguments_proper linked first.leads)
    exact List.mem_append.mp ((seen.types ty written).declared v occurs)
  case flag => exact fun node member => Hierarchy.raw_iff_enteredRaw linked.coherent member
  case raw =>
    intro node entered v declared
    have member : node ∈ Hierarchy.ofRoot root := by
      cases entered with
      | through enters => exact enters.visited
      | further enters => exact enters.visited
    obtain ⟨path, first⟩ := path node member
    have raw := (Hierarchy.raw_iff_enteredRaw linked.coherent member).mpr entered
    exact Reached.lookup_of_raw linked first.leads raw declared

namespace Bypass

def parameter (name : String) : List TypeParameter := [⟨name, []⟩]

def method : Method := { name := "f", owner := ⟨"C"⟩, parameters := [.var "T"], isAbstract := true }

/-- `R<X>` extends `A` without arguments and `B<X>`; both `A<T>` and `B<T>` extend `C<T>`. -/
def types : DescriptorIndex where
  descriptors := [
    { name := ⟨"C"⟩, kind := .interface, typeParameters := parameter "T", methods := [method] },
    { name := ⟨"A"⟩, kind := .interface, typeParameters := parameter "T",
      interfaces := [⟨⟨"C"⟩, [.var "T"]⟩] },
    { name := ⟨"B"⟩, kind := .interface, typeParameters := parameter "T",
      interfaces := [⟨⟨"C"⟩, [.var "T"]⟩] },
    { name := ⟨"R"⟩, kind := .interface, typeParameters := parameter "X",
      interfaces := [⟨⟨"A"⟩, []⟩, ⟨⟨"B"⟩, [.var "X"]⟩] }]
  distinct := by decide

def resolver : Resolver := { sources := [.inMemory "bypass" types] }

def top : TypeModel where
  name := ⟨"C"⟩
  kind := .interface
  typeParameters := parameter "T"
  methods := [method]

def middle (name : String) : TypeModel where
  name := ⟨name⟩
  kind := .interface
  typeParameters := parameter "T"
  interfaces := [⟨⟨⟨"C"⟩, [.var "T"]⟩, top⟩]

def bottom : TypeModel where
  name := ⟨"R"⟩
  kind := .interface
  typeParameters := parameter "X"
  interfaces := [⟨⟨⟨"A"⟩, []⟩, middle "A"⟩, ⟨⟨⟨"B"⟩, [.var "X"]⟩, middle "B"⟩]

/-- `C` as it is met first, by way of `A`. -/
def last : Reached where
  model := top
  subst := [("T", .object)]
  raw := true
  depth := 2
  onChain := false

theorem used : resolver.Used := .new _ (by simpa using .inMemory _ types (by decide +kernel))

theorem resolved : (resolver.resolve {} ⟨"R"⟩).1 = .ok bottom := rfl

theorem visited : last ∈ Hierarchy.ofRoot bottom := by
  have walked : (Hierarchy.ofRoot bottom).getLast? = some last := by cbv
  exact List.mem_of_getLast? walked

end Bypass

/-- `C` is entered below a raw link, though `B<X>` would have led to it just as soon. -/
theorem bypass_traversed : Bypass.resolver.Used ∧
    (Bypass.resolver.resolve {} ⟨"R"⟩).1 = .ok Bypass.bottom ∧
    Hierarchy.EnteredRaw (Hierarchy.ofRoot Bypass.bottom) Bypass.last ∧
    IsLeast {links | Bypass.bottom.LinkPath links Bypass.top} 2 := by
  have walk := ofRoot_traverses Bypass.used Bypass.resolved
  exact ⟨Bypass.used, Bypass.resolved, (walk.flag Bypass.last Bypass.visited).mp rfl,
    walk.shortest Bypass.last Bypass.visited⟩

end JavaStubs
