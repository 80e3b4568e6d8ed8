import JavaStubs.Obligation.Inherited
import JavaStubs.Proofs.Resolver.Linked
import JavaStubs.Proofs.Types.Capture

namespace JavaStubs

namespace TypeModel

/-- The classes that an implementation inherits from: a class itself, its superclass and so on. -/
def chain (root : TypeModel) : List TypeModel :=
  if root.isInterface then [] else root :: root.superclasses

variable {root : TypeModel}

theorem Linked.of_reaches {model : TypeModel} (linked : root.Linked) (reached : root.Reaches model) :
    model.Linked :=
  ⟨linked.coherent.of_reaches reached, fun upper above =>
    linked.proper upper (Relation.ReflTransGen.trans reached above)⟩

theorem Linked.own (linked : root.Linked) : root.Proper := linked.proper root .refl

theorem Linked.superclasses (linked : root.Linked) :
    ∀ model ∈ root.superclasses, model.isInterface = false := by
  intro model member
  induction size : sizeOf root using Nat.strongRecOn generalizing root with
  | _ n ih =>
    cases above : root.superclass with
    | none => simp [superclasses_of_none above] at member
    | some link =>
      rw [superclasses_of_some above] at member
      rcases List.mem_cons.mp member with rfl | further
      · exact (linked.own.superclass link above).2
      · have step : root.Reaches link.model := .single ⟨link, by simp [supertypes, above], rfl⟩
        exact ih _ (size ▸ sizeOf_superclass above) (linked.of_reaches step) further rfl

theorem mem_chain_of_superclass {model : TypeModel} {link : Supertype TypeModel}
    (member : model ∈ root.chain) (above : model.superclass = some link) :
    link.model ∈ root.chain := by
  unfold chain at member ⊢
  split at member
  · simp at member
  · rename_i isClass
    rw [if_neg isClass]
    have closed : ∀ below : TypeModel, model ∈ below :: below.superclasses →
        link.model ∈ below.superclasses := by
      intro below
      induction size : sizeOf below using Nat.strongRecOn generalizing below with
      | _ n ih =>
        intro here
        rcases List.mem_cons.mp here with rfl | further
        · simp [superclasses_of_some above]
        · cases next : below.superclass with
          | none => simp [superclasses_of_none next] at further
          | some step =>
            rw [superclasses_of_some next] at further ⊢
            exact List.mem_cons_of_mem _ (ih _ (size ▸ sizeOf_superclass next) _ rfl further)
    exact List.mem_cons_of_mem _ (closed root member)

end TypeModel

namespace Reached

variable {root : TypeModel} {path : List Nat} {node : Reached}

/-- A link is the superclass, which comes first, or an interface. -/
theorem links_cases {link : Supertype TypeModel × Bool} {i : Nat}
    (found : node.links[i]? = some link) :
    (node.model.superclass = some link.1 ∧ link.2 = node.onChain ∧ i = 0) ∨
      (link.1 ∈ node.model.interfaces ∧ link.2 = false) := by
  unfold links at found
  cases above : node.model.superclass with
  | none =>
    rw [above] at found
    have member := List.mem_of_getElem? found
    simp only [Option.toList_none, List.map_nil, List.nil_append, List.mem_map] at member
    obtain ⟨target, listed, rfl⟩ := member
    exact Or.inr ⟨listed, rfl⟩
  | some target =>
    rw [above] at found
    simp only [Option.toList_some, List.map_singleton, List.singleton_append] at found
    cases i with
    | zero =>
      simp only [List.getElem?_cons_zero, Option.some.injEq] at found
      subst found
      exact Or.inl ⟨rfl, rfl, rfl⟩
    | succ i =>
      rw [List.getElem?_cons_succ] at found
      obtain ⟨other, listed, rfl⟩ := List.mem_map.mp (List.mem_of_getElem? found)
      exact Or.inr ⟨listed, rfl⟩

/-- Exactly the classes on a path from a class lie on its superclass chain. -/
theorem onChain_spec (linked : root.Linked) (led : root.climb path = some node) :
    node.onChain = !node.model.isInterface ∧ (node.onChain = true → node.model ∈ root.chain ∧
      path = List.replicate path.length 0) := by
  induction path using List.reverseRecOn generalizing node with
  | nil =>
    cases led
    refine ⟨rfl, fun isClass => ⟨?_, rfl⟩⟩
    simp only [Reached.root, Bool.not_eq_true'] at isClass
    simp [TypeModel.chain, Reached.root, isClass]
  | append_singleton path i ih =>
    obtain ⟨before, link, ledBefore, found, rfl⟩ := follow_concat.mp led
    obtain ⟨flag, onChain⟩ := ih ledBefore
    have proper := linked.proper _ (follow_reaches ledBefore)
    rcases links_cases found with ⟨above, same, rfl⟩ | ⟨listed, off⟩
    · obtain ⟨isClass, targetIsClass⟩ := proper.superclass link.1 above
      refine ⟨?_, fun flagged => ?_⟩
      · simp only [enter, same, flag, isClass, targetIsClass]
      · obtain ⟨member, straight⟩ := onChain (same ▸ flagged)
        refine ⟨TypeModel.mem_chain_of_superclass member above, ?_⟩
        rw [List.length_append, List.length_singleton, List.replicate_succ', ← straight]
    · refine ⟨?_, fun flagged => ?_⟩
      · simp only [enter, off, proper.interfaces link.1 listed, Bool.not_true]
      · simp only [enter, off, Bool.false_eq_true] at flagged

theorem onChain_iff (linked : root.Linked) (led : root.climb path = some node) :
    node.onChain = true ↔ node.model ∈ root.chain := by
  obtain ⟨flag, onChain⟩ := onChain_spec linked led
  refine ⟨fun flagged => (onChain flagged).1, fun member => ?_⟩
  rw [flag, Bool.not_eq_true']
  unfold TypeModel.chain at member
  split at member
  · simp at member
  · rename_i isClass
    rcases List.mem_cons.mp member with same | above
    · rw [same]
      simpa using isClass
    · exact linked.superclasses _ above

theorem rawSubstitution_entry {model : TypeModel} (proper : model.Proper) {entry : String × Ty}
    (member : entry ∈ model.rawSubstitution) : entry.2.Proper [] := by
  have erased : model.erasureScope.Erased :=
    ErasureScope.Erased.extend (by simp [ErasureScope.Erased]) proper.bounds
  obtain ⟨parameter, _, rfl⟩ := List.mem_map.mp member
  exact (erased.erased parameter.name).proper

theorem rawSubstitution_proper {model : TypeModel} (proper : model.Proper) {v : String}
    (declared : v ∈ model.parameterNames) : (model.rawSubstitution.apply v).Proper [] := by
  have key : v ∈ model.rawSubstitution.map Prod.fst := by
    simpa [TypeModel.rawSubstitution, TypeModel.parameterNames, Function.comp_def] using declared
  rcases Substitution.apply_cases model.rawSubstitution v with member | ⟨absent, _⟩
  · exact rawSubstitution_entry proper member
  · exact absurd key absent

/-- Behind a link that is not raw, every parameter stands for an argument of the reference. -/
theorem exists_argument {link : Supertype TypeModel} {v : String} (s : Substitution)
    (counts : link.reference.args = [] ∨
      link.reference.args.length = link.model.typeParameters.length)
    (typed : link.isRaw = false) (declared : v ∈ link.model.parameterNames) :
    ∃ arg ∈ link.reference.args,
      Substitution.apply (link.substitution.map fun entry => (entry.1, entry.2.subst s)) v =
        arg.subst s := by
  have given : link.reference.args ≠ [] := by
    intro none
    cases parameters : link.model.typeParameters with
    | nil => simp [TypeModel.parameterNames, parameters] at declared
    | cons => simp [Supertype.isRaw, none, TypeModel.isGeneric, parameters] at typed
  have replaced : link.substitution = link.model.parameterNames.zip link.reference.args := by
    rw [Supertype.substitution, TypeModel.substitutionFor, if_neg (by simpa using given)]
    rfl
  have keys : (link.model.parameterNames.zip link.reference.args).map Prod.fst =
      link.model.parameterNames := by
    rw [List.map_fst_zip]
    have sameLength := counts.resolve_left given
    simp [TypeModel.parameterNames, sameLength]
  rw [replaced]
  rcases Substitution.apply_cases ((link.model.parameterNames.zip link.reference.args).map
    fun entry => (entry.1, entry.2.subst s)) v with found | ⟨absent, _⟩
  · obtain ⟨entry, inside, same⟩ := List.mem_map.mp found
    exact ⟨entry.2, (List.of_mem_zip inside).2, (Prod.mk.inj same).2.symm⟩
  · refine absurd ?_ absent
    rw [List.map_map, Function.comp_def, keys]
    exact declared

/-- On every path the arguments of a type are written in the root's terms. -/
theorem arguments_proper (linked : root.Linked) (led : root.climb path = some node) :
    ∀ v ∈ node.model.parameterNames, (node.subst.apply v).Proper root.parameterNames := by
  induction path using List.reverseRecOn generalizing node with
  | nil =>
    cases led
    intro v declared
    exact Ty.proper_var declared
  | append_singleton path i ih =>
    obtain ⟨before, link, ledBefore, found, rfl⟩ := follow_concat.mp led
    have reached := follow_reaches ledBefore
    have member : link.1 ∈ before.model.supertypes := List.mem_of_getElem? (links_getElem? found)
    have target := linked.proper link.1.model (Relation.ReflTransGen.tail reached ⟨_, member, rfl⟩)
    obtain ⟨arguments, counts⟩ := (linked.proper _ reached).arguments link.1 member
    intro v declared
    simp only [enter]
    split
    · exact (rawSubstitution_proper target declared).mono (by simp)
    · rename_i typed
      simp only [Bool.or_eq_true, not_or, Bool.not_eq_true] at typed
      obtain ⟨arg, listed, same⟩ := exists_argument before.subst counts typed.2 declared
      rw [same]
      exact (arguments arg listed).subst (ih ledBefore)

/-- Nothing but the root's terms is ever put in for a parameter. -/
theorem entries_proper (linked : root.Linked) (led : root.climb path = some node) :
    ∀ entry ∈ node.subst, entry.2.Proper root.parameterNames := by
  cases path using List.reverseRecOn with
  | nil =>
    cases led
    simp [Reached.root]
  | append_singleton path i =>
    obtain ⟨before, link, ledBefore, found, rfl⟩ := follow_concat.mp led
    have reached := follow_reaches ledBefore
    have member : link.1 ∈ before.model.supertypes := List.mem_of_getElem? (links_getElem? found)
    have target := linked.proper link.1.model (Relation.ReflTransGen.tail reached ⟨_, member, rfl⟩)
    have arguments := ((linked.proper _ reached).arguments link.1 member).1
    intro entry inside
    simp only [enter] at inside
    split at inside
    · exact (rawSubstitution_entry target inside).mono (by simp)
    · obtain ⟨original, listed, rfl⟩ := List.mem_map.mp inside
      rw [Supertype.substitution, TypeModel.substitutionFor] at listed
      split at listed
      · exact (rawSubstitution_entry target listed).subst (by simp)
      · exact (arguments _ (List.of_mem_zip listed).2).subst (arguments_proper linked ledBefore)

end Reached

/-- Whatever a root inherits is written in its own terms. -/
theorem Inherited.method_proper {root : TypeModel} (linked : root.Linked) {d : Inherited}
    (member : d ∈ Inherited.all root) : d.method.Proper root.parameterNames := by
  obtain ⟨node, visited, inside⟩ := List.mem_flatMap.mp member
  obtain ⟨m, kept, rfl⟩ := List.mem_map.mp inside
  obtain ⟨path, first⟩ := (Hierarchy.mem_ofRoot linked.coherent).mp visited
  have declaring := linked.proper _ (Reached.follow_reaches first.leads)
  exact (declaring.methods m (List.mem_filter.mp kept).1).subst
    (Reached.arguments_proper linked first.leads)

end JavaStubs
