import JavaStubs.Proofs.Obligation.Mirror
import JavaStubs.Proofs.Subtyping.Arrangement

namespace JavaStubs

variable {root : TypeModel} {a : Arrangement}

/-- A declaration and the same one in a hierarchy that is put in order. -/
theorem Site.twins_arrange (linked : root.Linked) {s : Site} (inherited : s.InheritedBy root)
    {path' : List Nat} (first' : (root.arrange a).FirstPath path' (s.node.arrange a)) :
    s.Twins root (root.arrange a) ⟨path', s.node.arrange a, s.index, s.method⟩ where
  left := inherited
  right := by
    refine ⟨⟨first'.leads, ?_, inherited.onPath.dynamic, inherited.onPath.visible⟩, first'⟩
    simpa [Reached.arrange] using inherited.onPath.declared
  index := rfl
  declaredIn := TypeModel.arrange_name ..
  method := rfl
  ancestors := fun _ => Hierarchy.mem_ancestors_arrange
    (linked.of_reaches (Reached.follow_reaches inherited.first.leads)) a
  depth := rfl
  onChain := rfl

theorem TypeModel.mirrors_arrange (linked : root.Linked) (uniform : root.Uniform) (a : Arrangement) :
    root.Mirrors (root.arrange a) where
  linked := linked
  linked' := linked.arrange a
  name := arrange_name ..
  scope := arrange_erasureScope ..
  there := by
    intro s inherited
    obtain ⟨path', first'⟩ := inherited.first.arrange linked uniform a
    exact ⟨_, Site.twins_arrange linked inherited first'⟩
  back := by
    rintro ⟨path', node', index, method⟩ ⟨⟨leads', declared, dynamic, visible⟩, first'⟩
    obtain ⟨path, node, first, rfl⟩ := first'.of_arrange linked uniform
    have inherited : Site.InheritedBy root ⟨path, node, index, method⟩ := by
      refine ⟨⟨first.leads, ?_, dynamic, visible⟩, first⟩
      simpa [Reached.arrange] using declared
    exact ⟨_, (Site.twins_arrange linked inherited first').symm⟩

theorem TypeModel.knowledge_arrange (lookup : QualName → Option TypeModel) (root : TypeModel)
    (a : Arrangement) :
    (root.arrange a).knowledge (a.lookup lookup) = (root.knowledge lookup).arrange a := by
  rw [knowledge, arrange_typeParameters]
  rfl

theorem Collect.balanced_arrange (lookup : QualName → Option TypeModel) (linked : root.Linked)
    (uniform : root.Uniform)
    (plain : ∀ model, root.Reaches model → ∀ m ∈ model.methods, m.typeParameters = [])
    (a : Arrangement) : Balanced lookup (a.lookup lookup) root (root.arrange a) where
  mirror := root.mirrors_arrange linked uniform a
  plain := by
    intro s inherited
    have none := plain s.node.model (Reached.follow_reaches inherited.first.leads) s.method
      (List.mem_of_getElem? inherited.onPath.declared)
    simp [Site.inherited, Method.subst, none]
  agrees := by
    intro sub sup
    rw [TypeModel.knowledge_arrange, Knowledge.Below, Knowledge.isSubtype_arrange]
    rfl

/-- The order of interfaces does not matter. Let no method above a resolved type have type
parameters, and let every type there be reached with the same arguments on all paths. Collecting
succeeds in one order if and only if it does in any other, and then it returns the same
constructors and matching methods in the same sequence. -/
theorem obligations_arrange {lookup : QualName → Option TypeModel} {fs : FileSystem}
    {resolver : Resolver} {name : QualName} {root : TypeModel} (used : resolver.Used)
    (resolved : (resolver.resolve fs name).1 = .ok root)
    (plain : ∀ model, root.Reaches model → ∀ m ∈ model.methods, m.typeParameters = [])
    (uniform : root.Uniform) (a : Arrangement) :
    ((∃ obs, (obligations lookup root).value = .ok obs) ↔
        ∃ obs', (obligations (a.lookup lookup) (root.arrange a)).value = .ok obs') ∧
      ∀ obs obs', (obligations lookup root).value = .ok obs →
        (obligations (a.lookup lookup) (root.arrange a)).value = .ok obs' →
        constructorsOf obs' = constructorsOf obs ∧
          List.Forall₂ (MethodObligation.Matches (root.knowledge lookup) root (root.arrange a))
            (methodsOf obs) (methodsOf obs') := by
  have balanced := Collect.balanced_arrange lookup (used.linked resolved) uniform plain a
  refine ⟨?_, fun obs obs' collected collected' => ⟨?_, balanced.methods_match collected collected'⟩⟩
  · rw [Collect.exists_obligations_iff, Collect.exists_obligations_iff, root.arrange_refusal? a,
      root.arrange_constructorObligations a]
    have settled : (∀ group ∈ MethodGroup.ofRoot root, ∃ found,
          (Collect.resolve lookup root group).value = .ok found) ↔
        ∀ group ∈ MethodGroup.ofRoot (root.arrange a), ∃ found,
          (Collect.resolve (a.lookup lookup) (root.arrange a) group).value = .ok found :=
      ⟨balanced.settled, balanced.symm.settled⟩
    rw [settled]
  · obtain ⟨_, forwarded, _⟩ := collected_parts collected
    obtain ⟨_, forwarded', _⟩ := collected_parts collected'
    rw [root.arrange_constructorObligations a, forwarded] at forwarded'
    exact (Except.ok.inj forwarded').symm

namespace Diamond

def string : Ty := .cls ⟨"java.lang.String"⟩ []

def shared : Method :=
  { name := "f", owner := ⟨"Top"⟩, parameters := [.var "T"], result := .var "T", isAbstract := true }

def wide : Method :=
  { name := "f", owner := ⟨"A"⟩, parameters := [string], result := .object, isAbstract := true }

def narrow : Method :=
  { name := "f", owner := ⟨"B"⟩, parameters := [string], result := string, isAbstract := true }

/-- `A` and `B` extend `Top<String>`, and `R` extends both. -/
def types : DescriptorIndex where
  descriptors := [
    { name := ⟨"Top"⟩, kind := .interface, typeParameters := [⟨"T", []⟩], methods := [shared] },
    { name := ⟨"A"⟩, kind := .interface, interfaces := [⟨⟨"Top"⟩, [string]⟩], methods := [wide] },
    { name := ⟨"B"⟩, kind := .interface, interfaces := [⟨⟨"Top"⟩, [string]⟩], methods := [narrow] },
    { name := ⟨"R"⟩, kind := .interface, interfaces := [⟨⟨"A"⟩, []⟩, ⟨⟨"B"⟩, []⟩] }]
  distinct := by decide

def resolver : Resolver := { sources := [.inMemory "diamond" types] }

def top : TypeModel where
  name := ⟨"Top"⟩
  kind := .interface
  typeParameters := [⟨"T", []⟩]
  methods := [shared]

/-- A type that extends `Top<String>`. -/
def side (name : QualName) (m : Method) : TypeModel where
  name := name
  kind := .interface
  interfaces := [⟨⟨⟨"Top"⟩, [string]⟩, top⟩]
  methods := [m]

def bottom : TypeModel where
  name := ⟨"R"⟩
  kind := .interface
  interfaces := [⟨⟨⟨"A"⟩, []⟩, side ⟨"A"⟩ wide⟩, ⟨⟨⟨"B"⟩, []⟩, side ⟨"B"⟩ narrow⟩]

/-- The other order everywhere. -/
def reversed : Arrangement where
  order := fun _ links => links.reverse
  perm := fun _ links => links.reverse_perm

/-- `String f(String)`, in the place of what `A` has. -/
def obligation : MethodObligation where
  method := wide
  result := string
  throwing := []
  access := .publicAccess
  depth := 1

theorem used : resolver.Used := .new _ (by simpa using .inMemory _ types (by decide +kernel))

theorem resolved : (resolver.resolve {} ⟨"R"⟩).1 = .ok bottom := rfl

theorem collected : (obligations (resolver.lookup {}) bottom).value = .ok [.method obligation] := by
  decide +kernel

/-- What the parameters of each type stand for. -/
def arguments (name : QualName) : Substitution := if name = ⟨"Top"⟩ then [("T", string)] else []

theorem meets {node : Reached} (met : bottom.Meets node) :
    node.model ∈ [bottom, side ⟨"A"⟩ wide, side ⟨"B"⟩ narrow, top] ∧
      node.subst = arguments node.model.name ∧ node.raw = false := by
  induction met with
  | start => exact ⟨by simp [Reached.root], rfl, rfl⟩
  | @enter node link _ listed ih =>
    obtain ⟨model, subst, raw, depth, onChain⟩ := node
    simp only [List.mem_cons, List.not_mem_nil, or_false] at ih
    obtain ⟨rfl | rfl | rfl | rfl, rfl, rfl⟩ := ih
    · simp only [Reached.links, bottom, Option.toList_none, List.map_nil, List.nil_append,
        List.map_cons, List.mem_cons, List.not_mem_nil, or_false] at listed
      rcases listed with rfl | rfl
      · exact ⟨by simp [Reached.enter], rfl, rfl⟩
      · exact ⟨by simp [Reached.enter], rfl, rfl⟩
    · obtain rfl : link = (⟨⟨⟨"Top"⟩, [string]⟩, top⟩, false) := by
        simpa [Reached.links, side] using listed
      exact ⟨by simp [Reached.enter], rfl, rfl⟩
    · obtain rfl : link = (⟨⟨⟨"Top"⟩, [string]⟩, top⟩, false) := by
        simpa [Reached.links, side] using listed
      exact ⟨by simp [Reached.enter], rfl, rfl⟩
    · simp [Reached.links, top] at listed

theorem uniform : bottom.Uniform := by
  intro path path' node node' led led' same
  obtain ⟨_, subst, raw⟩ := meets (TypeModel.meets_iff.mpr ⟨path, led⟩)
  obtain ⟨_, subst', raw'⟩ := meets (TypeModel.meets_iff.mpr ⟨path', led'⟩)
  rw [subst, subst', raw, raw', same]
  exact ⟨rfl, rfl⟩

theorem plain : ∀ model, bottom.Reaches model → ∀ m ∈ model.methods, m.typeParameters = [] := by
  intro model reached m declared
  obtain ⟨path, node, led, rfl⟩ := @Reached.exists_follow (Reached.root bottom) model reached
  have known := (meets (TypeModel.meets_iff.mpr ⟨path, led⟩)).1
  simp only [List.mem_cons, List.not_mem_nil, or_false] at known
  rcases known with same | same | same | same <;> rw [same] at declared
  · simp [bottom] at declared
  · obtain rfl : m = wide := by simpa [side] using declared
    rfl
  · obtain rfl : m = narrow := by simpa [side] using declared
    rfl
  · obtain rfl : m = shared := by simpa [top] using declared
    rfl

end Diamond

theorem diamond_arrange : ∃ obs,
    (obligations (Diamond.reversed.lookup (Diamond.resolver.lookup {}))
      (Diamond.bottom.arrange Diamond.reversed)).value = .ok obs ∧ constructorsOf obs = [] ∧
      List.Forall₂ (MethodObligation.Matches (Diamond.bottom.knowledge (Diamond.resolver.lookup {}))
        Diamond.bottom (Diamond.bottom.arrange Diamond.reversed)) [Diamond.obligation]
        (methodsOf obs) := by
  obtain ⟨succeeds, same⟩ := obligations_arrange Diamond.used Diamond.resolved Diamond.plain
    Diamond.uniform Diamond.reversed
  obtain ⟨obs, collected⟩ := succeeds.mp ⟨_, Diamond.collected⟩
  exact ⟨obs, collected, same _ obs Diamond.collected collected⟩

end JavaStubs
