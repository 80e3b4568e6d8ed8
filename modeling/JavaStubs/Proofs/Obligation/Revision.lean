import JavaStubs.Proofs.Hierarchy.Arguments
import JavaStubs.Proofs.Hierarchy.Revision
import JavaStubs.Proofs.Obligation.Groups
import JavaStubs.Proofs.Types.Renaming
import Mathlib.Data.List.Forall2

namespace JavaStubs

namespace Inherited

/-- Declarations that differ in their signatures' types at most. -/
structure SameFrame (d d' : Inherited) : Prop where
  declaredIn : d'.declaredIn = d.declaredIn
  ancestors : d'.ancestors = d.ancestors
  depth : d'.depth = d.depth
  onChain : d'.onChain = d.onChain
  name : d'.method.name = d.method.name
  owner : d'.method.owner = d.method.owner
  isAbstract : d'.method.isAbstract = d.method.isAbstract
  access : d'.method.access = d.method.access

variable {R : Inherited → Inherited → Prop} {declarations declarations' : List Inherited}

theorem map_eq_of_related {α : Type} {f : Inherited → α} (same : ∀ d d', R d d' → f d' = f d)
    (related : List.Forall₂ R declarations declarations') :
    declarations'.map f = declarations.map f := by
  induction related with
  | nil => rfl
  | cons first _ ih => rw [List.map_cons, List.map_cons, same _ _ first, ih]

theorem filter_related {p q : Inherited → Bool} (same : ∀ d d', R d d' → q d' = p d)
    (related : List.Forall₂ R declarations declarations') :
    List.Forall₂ R (declarations.filter p) (declarations'.filter q) :=
  List.rel_filter (fun d d' pair => iff_of_eq (congrArg (· = true) (same d d' pair).symm)) related

theorem nearest?_related (frame : ∀ d d', R d d' → d.SameFrame d')
    (related : List.Forall₂ R declarations declarations') :
    Option.Rel R (nearest? declarations) (nearest? declarations') := by
  induction related with
  | nil => exact .none
  | @cons d d' rest rest' first _ ih =>
    unfold nearest?
    generalize nearest? rest = found, nearest? rest' = found' at ih
    cases ih with
    | none => exact .some first
    | some later =>
      dsimp only
      rw [(frame d d' first).depth, (frame _ _ later).depth]
      split
      · exact .some first
      · exact .some later

theorem mostSpecific_related (frame : ∀ d d', R d d' → d.SameFrame d')
    (related : List.Forall₂ R declarations declarations') :
    List.Forall₂ R (mostSpecific declarations) (mostSpecific declarations') := by
  refine filter_related (fun d d' pair => ?_) related
  have places := map_eq_of_related (f := fun other => (other.declaredIn, other.ancestors))
    (fun a b alike => by rw [(frame a b alike).declaredIn, (frame a b alike).ancestors]) related
  have below (all : List Inherited) (e : Inherited) : (all.any fun other => other.isBelow e) =
      (all.map fun other => (other.declaredIn, other.ancestors)).any fun place =>
        place.1 != e.declaredIn && place.2.contains e.declaredIn := by
    rw [List.any_map]
    rfl
  rw [below, below, places, (frame d d' pair).declaredIn]

end Inherited

namespace MethodGroup

variable {R : Inherited → Inherited → Prop} {declarations declarations' : List Inherited}

/-- Related declarations leave related candidates. -/
theorem unsatisfied_related (frame : ∀ d d', R d d' → d.SameFrame d') (key : SignatureKey)
    (related : List.Forall₂ R declarations declarations') :
    List.Forall₂ R (unsatisfied ⟨key, declarations⟩) (unsatisfied ⟨key, declarations'⟩) := by
  have chain := Inherited.nearest?_related frame
    (Inherited.filter_related (fun d d' pair => (frame d d' pair).onChain) related)
  have specific := Inherited.mostSpecific_related frame (Inherited.filter_related
    (p := (!·.onChain)) (q := (!·.onChain)) (fun d d' pair => by rw [(frame d d' pair).onChain]) related)
  unfold unsatisfied fromClass? fromInterfaces
  dsimp only
  generalize Inherited.nearest? (declarations.filter Inherited.onChain) = nearest,
    Inherited.nearest? (declarations'.filter Inherited.onChain) = nearest' at chain
  generalize Inherited.mostSpecific (declarations.filter (!·.onChain)) = interfaces,
    Inherited.mostSpecific (declarations'.filter (!·.onChain)) = interfaces' at specific
  cases chain with
  | some first =>
    dsimp only
    rw [(frame _ _ first).isAbstract]
    split
    · exact .cons first specific
    · exact .nil
  | none =>
    dsimp only
    split
    · exact .nil
    · cases specific with
      | nil => exact .nil
      | cons first rest =>
        cases rest with
        | nil =>
          dsimp only
          rw [(frame _ _ first).isAbstract]
          split
          · exact .cons first .nil
          · exact .nil
        | cons second rest => exact .cons first (.cons second rest)

end MethodGroup

/-- New names for the type parameters of one method, at an index of one type. -/
def renameAt (owner : QualName) (index : Nat) (new : List String) (name : QualName)
    (methods : List Method) : List Method :=
  if name = owner then methods.modify index (Method.rename new) else methods

/-- How a root sees a method of a type above it. -/
def TypeModel.Sees (root owner : TypeModel) (m seen : Method) : Prop :=
  ∃ node ∈ Hierarchy.ofRoot root, node.model = owner ∧ seen = m.subst node.subst

/-- A declaration before and after some methods are renamed. -/
def Inherited.Revised (renamed : Method → Prop) (new : List String) (d d' : Inherited) : Prop :=
  d' = d ∨ (renamed d.method ∧ d' = { d with method := d.method.rename new })

theorem Inherited.Revised.frame {renamed : Method → Prop} {new : List String} {d d' : Inherited}
    (revised : d.Revised renamed new d') : d.SameFrame d' := by
  rcases revised with rfl | ⟨_, rfl⟩
  · exact ⟨rfl, rfl, rfl, rfl, rfl, rfl, rfl, rfl⟩
  · exact ⟨rfl, rfl, rfl, rfl, rfl, rfl, rfl, rfl⟩

theorem forall₂_modify {α : Type} {P : α → α → Prop} (f : α → α) (same : ∀ a, P a a) {items : List α}
    {index : Nat} (changed : ∀ a, items[index]? = some a → P a (f a)) :
    List.Forall₂ P items (items.modify index f) := by
  induction items generalizing index with
  | nil => simp
  | cons a items ih =>
    cases index with
    | zero => exact .cons (changed a rfl) (List.forall₂_same.mpr fun b _ => same b)
    | succ index => exact .cons (same a) (ih fun b found => changed b found)

theorem forall₂_flatMap {α β : Type} {P : β → β → Prop} {f g : α → List β} {items : List α}
    (each : ∀ a ∈ items, List.Forall₂ P (f a) (g a)) :
    List.Forall₂ P (items.flatMap f) (items.flatMap g) := by
  induction items with
  | nil => exact .nil
  | cons a items ih =>
    exact List.rel_append (each a (List.mem_cons_self ..))
      (ih fun b later => each b (List.mem_cons_of_mem _ later))

section Hierarchy

variable {root owner : TypeModel} {index : Nat} {m : Method} {new : List String}

/-- The methods that a type above the root hands down, before and after. -/
theorem Inherited.ofNode_revised (linked : root.Linked) (declared : owner.methods[index]? = some m)
    (coherent : ∀ model, root.Reaches model → model.name = owner.name → model = owner)
    (counts : new.length = m.typeParameters.length)
    (fresh : ∀ v ∈ new, v ∉ root.parameterNames ∧ v ∉ m.usedNames) {node : Reached}
    (visited : node ∈ Hierarchy.ofRoot root) :
    List.Forall₂ (Inherited.Revised (root.Sees owner m) new) (Inherited.ofNode node)
      (Inherited.ofNode (node.mapMethods (renameAt owner.name index new))) := by
  obtain ⟨path, first⟩ := (Hierarchy.mem_ofRoot linked.coherent).mp visited
  have reached := Reached.follow_reaches first.leads
  let Changed (a b : Method) : Prop := b = a ∨ node.model = owner ∧ a = m ∧ b = m.rename new
  have methods : List.Forall₂ Changed node.model.methods
      (renameAt owner.name index new node.model.name node.model.methods) := by
    unfold renameAt
    split
    · rename_i sameName
      have same := coherent node.model reached sameName
      refine forall₂_modify (P := Changed) _ (fun a => Or.inl rfl) fun a found => Or.inr ⟨same, ?_⟩
      rw [same, declared] at found
      obtain rfl := Option.some.inj found
      exact ⟨rfl, rfl⟩
    · exact List.forall₂_same.mpr fun a _ => Or.inl rfl
  have kept : List.Forall₂ Changed
      (node.model.methods.filter fun m => !m.isStatic && m.access != .privateAccess)
      ((renameAt owner.name index new node.model.name node.model.methods).filter fun m =>
        !m.isStatic && m.access != .privateAccess) := by
    refine List.rel_filter (fun a b pair => ?_) methods
    rcases pair with rfl | ⟨_, rfl, rfl⟩ <;> exact Iff.rfl
  unfold Inherited.ofNode
  simp only [Reached.mapMethods, TypeModel.mapMethods_methods, Hierarchy.ancestors_mapMethods,
    TypeModel.mapMethods_name]
  refine List.rel_map (fun a b pair => ?_) kept
  rcases pair with rfl | ⟨same, rfl, rfl⟩
  · exact Or.inl rfl
  · refine Or.inr ⟨⟨node, visited, same, rfl⟩, ?_⟩
    have proper := (linked.proper _ reached).methods a (same ▸ List.mem_of_getElem? declared)
    rw [Method.subst_rename proper counts (fun v taken => (fresh v taken).2) ?_]
    intro entry inside v occurs taken
    exact (fresh v taken).1 ((Reached.entries_proper linked first.leads entry inside).declared v occurs)

/-- Everything that the root inherits, before and after. -/
theorem Inherited.all_revised (linked : root.Linked) (declared : owner.methods[index]? = some m)
    (coherent : ∀ model, root.Reaches model → model.name = owner.name → model = owner)
    (counts : new.length = m.typeParameters.length)
    (fresh : ∀ v ∈ new, v ∉ root.parameterNames ∧ v ∉ m.usedNames) :
    List.Forall₂ (Inherited.Revised (root.Sees owner m) new) (Inherited.all root)
      (Inherited.all (root.mapMethods (renameAt owner.name index new))) := by
  unfold Inherited.all
  rw [Hierarchy.ofRoot_mapMethods, List.flatMap_map]
  exact forall₂_flatMap fun node visited =>
    Inherited.ofNode_revised linked declared coherent counts fresh visited

end Hierarchy

end JavaStubs
