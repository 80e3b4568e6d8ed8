import JavaStubs.Proofs.Obligation.Agreement
import JavaStubs.Proofs.Obligation.Revision
import JavaStubs.Proofs.Types.Erasure
import Mathlib

namespace JavaStubs

namespace Collect

/-- Candidates whose type variables cannot be taken for each other: parameters without counterparts
are not mentioned in the contract, and class types are supplied with arguments. -/
structure Unmixed (lookup : QualName → Option TypeModel) (base : Inherited)
    (others : List Inherited) : Prop where
  matched : ∀ d ∈ others, base.method.typeParameters.length ≠ d.method.typeParameters.length →
    ∀ ty ∈ (contractOf d.method).types, ∀ v ∈ ty.vars, v ∉ d.method.declaredNames
  supplied : ∀ d ∈ base :: others, ∀ ty ∈ d.method.types, ty.Supplied lookup

/-- An inherited declaration with new names, which may be the old ones. -/
def Twin (root : TypeModel) (new : List String) (d d' : Inherited) : Prop :=
  d.method.Renames root.parameterNames new ∧ d' = { d with method := d.method.rename new }

section Agreement

variable {lookup : QualName → Option TypeModel} {root : TypeModel} {base base' : Inherited}
  {others others' : List Inherited} {f : QualName → List Method → List Method}

/-- The types of an aligned contract fit where the base stands. -/
theorem align_fits (unmixed : Unmixed lookup base others) {d : Inherited}
    (candidate : d ∈ base :: others) (proper : d.method.Proper root.parameterNames) :
    ∀ ty ∈ (align base.method d.method).types,
      ty.Fits lookup (root.parameterNames ++ base.method.declaredNames) := by
  have written {ty : Ty} (member : ty ∈ (contractOf d.method).types) :
      ty.Fits lookup (root.parameterNames ++ d.method.declaredNames) :=
    ⟨(proper.types ty (mem_types_of_contract member)).declared,
      unmixed.supplied d candidate ty (mem_types_of_contract member)⟩
  intro ty member
  by_cases counts : base.method.typeParameters.length = d.method.typeParameters.length
  · obtain ⟨original, listed, rfl⟩ := exists_aligned counts member
    refine (written listed).subst fun v known => ?_
    rw [Method.newVariables_apply]
    exact Ty.fits_var (Method.renamedTo_known (by simp [Method.declaredNames, counts]) known)
  · have other : d ∈ others := by
      rcases List.mem_cons.mp candidate with rfl | later
      · exact absurd rfl counts
      · exact later
    rw [align_of_ne counts] at member
    refine ⟨fun v occurs => ?_, (written member).supplied⟩
    have unmentioned := unmixed.matched d other counts ty member v occurs
    exact List.mem_append_left _
      ((List.mem_append.mp ((written member).declared v occurs)).resolve_right unmentioned)

/-- Other methods alone make no difference to what candidates agree on. -/
theorem agreement_unchanged :
    agreement (fun name => (lookup name).map (TypeModel.mapMethods f)) (root.mapMethods f) base others =
      agreement lookup root base others := by
  let known := knowledgeFor lookup root base.method
  let known' := knowledgeFor (fun name => (lookup name).map (TypeModel.mapMethods f))
    (root.mapMethods f) base.method
  have judged : Subtyping.Agree [] (fun _ => True) known.isSubtype known'.isSubtype :=
    (Subtyping.Renamed.unchanged (f := f) (fun _ => rfl)
      (by simp [known, known', knowledgeFor, Knowledge.withParameters])).isSubtype_subst
  have nothing (contract : Contract) : contract.subst [] = contract := by simp [Contract.subst]
  have aligned : List.Forall₂ (fun d d' : Inherited =>
      align base.method d'.method = (align base.method d.method).subst [] ∧
        ∀ ty ∈ (align base.method d.method).types, True) (base :: others) (base :: others) :=
    List.forall₂_same.mpr fun d _ => ⟨(nothing _).symm, fun _ _ => trivial⟩
  obtain ⟨same, good⟩ := contracts_subst judged (fun _ _ => trivial) aligned
  have agreed := agree_subst judged good
  unfold agreement
  dsimp only
  rw [same, agreed]
  cases (agree (knowledgeFor lookup root base.method)
    (contracts (knowledgeFor lookup root base.method) base.method (base :: others)).value).value with
  | ok contract => simp [outcomeSubst, nothing]
  | error reason => cases reason <;> simp [outcomeSubst, ConflictReason.subst]

/-- Candidates with new names agree as before, in the new terms. -/
theorem agreement_renamed (properRoot : root.Proper)
    (bounds : ∀ p ∈ root.typeParameters, ∀ bound ∈ p.bounds, bound.Supplied lookup)
    (library : ∀ name model, lookup name = some model → ∀ link ∈ model.supertypes,
      link.reference.ty.Fits lookup model.parameterNames)
    (unmixed : Unmixed lookup base others) {newBase : List String}
    (proper : ∀ d ∈ base :: others, d.method.Proper root.parameterNames)
    (twin : Twin root newBase base base')
    (twins : List.Forall₂ (fun d d' => d ∈ base :: others ∧ ∃ new, Twin root new d d')
      (base :: others) (base' :: others')) :
    agreement (fun name => (lookup name).map (TypeModel.mapMethods f)) (root.mapMethods f)
        base' others' =
      outcomeSubst (base.method.newVariables newBase) (agreement lookup root base others) := by
  obtain ⟨renames, rfl⟩ := twin
  have properBase := proper base (List.mem_cons_self ..)
  have supplied : ∀ p ∈ root.typeParameters ++ base.method.typeParameters, ∀ bound ∈ p.bounds,
      bound.Supplied lookup := by
    intro p member bound inside
    rcases List.mem_append.mp member with outer | own
    · exact bounds p outer bound inside
    · refine unmixed.supplied base (List.mem_cons_self ..) bound ?_
      simp only [Method.types, List.mem_append, List.mem_flatMap]
      exact Or.inl (Or.inl (Or.inl ⟨p, own, inside⟩))
  have judged := (Subtyping.Renamed.of_renames (f := f) properRoot properBase renames supplied library
    ).isSubtype_subst
  have roots : ∀ top ∈ uncheckedRoots,
      top.Fits lookup (root.parameterNames ++ base.method.declaredNames) := by
    intro top member
    simp only [uncheckedRoots, List.mem_cons, List.not_mem_nil, or_false] at member
    rcases member with rfl | rfl <;> exact Ty.fits_cls.mpr ⟨Or.inl rfl, by simp⟩
  have aligned : List.Forall₂ (fun d d' : Inherited =>
      align (base.method.rename newBase) d'.method =
          (align base.method d.method).subst (base.method.newVariables newBase) ∧
        ∀ ty ∈ (align base.method d.method).types,
          ty.Fits lookup (root.parameterNames ++ base.method.declaredNames))
      (base :: others) ({ base with method := base.method.rename newBase } :: others') := by
    refine twins.imp ?_
    rintro d d' ⟨candidate, new, renamesOther, rfl⟩
    refine ⟨align_rename properBase.distinct (proper d candidate) renames renamesOther fun counts => ?_,
      align_fits unmixed candidate (proper d candidate)⟩
    rcases List.mem_cons.mp candidate with rfl | later
    · exact absurd rfl counts
    · exact unmixed.matched d later counts
  obtain ⟨same, good⟩ := contracts_subst judged roots aligned
  unfold agreement
  dsimp only
  rw [same, agree_subst judged good]

end Agreement

end Collect

/-- Both fail, or both succeed with related values. -/
inductive Corresponds {ε α : Type} (R : α → α → Prop) : Except ε α → Except ε α → Prop
  | ok {a b : α} (related : R a b) : Corresponds R (.ok a) (.ok b)
  | error (reason reason' : ε) : Corresponds R (.error reason) (.error reason')

namespace MethodObligation

/-- The obligation with new names for the type parameters of its method. -/
def rename (new : List String) (o : MethodObligation) : MethodObligation :=
  { o with
    method := o.method.rename new
    result := o.result.subst (o.method.newVariables new)
    throwing := o.throwing.map (Ty.subst (o.method.newVariables new)) }

/-- The same obligation, up to the names of its type parameters. -/
def Alike (root : TypeModel) (o o' : MethodObligation) : Prop :=
  ∃ new, o.method.Renames root.parameterNames new ∧ o' = o.rename new

theorem alike_self {root : TypeModel} {o : MethodObligation} (distinct : o.method.declaredNames.Nodup) :
    o.Alike root o := by
  refine ⟨o.method.declaredNames, Method.Renames.self distinct, ?_⟩
  have same : Ty.subst (o.method.newVariables o.method.declaredNames) = id :=
    funext fun ty => Ty.subst_neutral (Method.Renames.neutral o.method) ty
  simp [rename, Method.rename_self, same]

end MethodObligation

/-- The same obligation; a constructor is not changed at all. -/
inductive Obligation.Alike (root : TypeModel) : Obligation → Obligation → Prop
  | constructor (c : Constructor) : Alike root (.constructor c) (.constructor c)
  | method {o o' : MethodObligation} (alike : o.Alike root o') : Alike root (.method o) (.method o')

namespace Collect

section Candidates

variable {lookup : QualName → Option TypeModel} {root : TypeModel} {renamed : Method → Prop}
  {new : List String} {f : QualName → List Method → List Method}

/-- A proper declaration, before and after. -/
def Pair (root : TypeModel) (renamed : Method → Prop) (new : List String) (d d' : Inherited) : Prop :=
  d.method.Proper root.parameterNames ∧ d.Revised renamed new d'

theorem Pair.twin (renames : ∀ seen, renamed seen → seen.Renames root.parameterNames new)
    {d d' : Inherited} (pair : Pair root renamed new d d') : ∃ new, Twin root new d d' := by
  obtain ⟨proper, rfl | ⟨seen, rfl⟩⟩ := pair
  · refine ⟨d'.method.declaredNames, Method.Renames.self proper.distinct, ?_⟩
    rw [Method.rename_self]
  · exact ⟨new, renames _ seen, rfl⟩

/-- A renaming does not change under which key a declaration is found. -/
theorem Pair.key (renames : ∀ seen, renamed seen → seen.Renames root.parameterNames new)
    {d d' : Inherited} (pair : Pair root renamed new d d') :
    d'.key root.erasureScope = d.key root.erasureScope := by
  obtain ⟨new, renamesOwn, rfl⟩ := pair.twin renames
  refine congrArg (SignatureKey.mk d.method.name) (Method.erasedParameters_rename pair.1 renamesOwn ?_)
  intro v outer
  rw [TypeModel.erasureScope, ErasureScope.erased_extend outer]
  rfl

theorem candidates_related (renames : ∀ seen, renamed seen → seen.Renames root.parameterNames new)
    (pairs : List.Forall₂ (Pair root renamed new) (Inherited.all root)
      (Inherited.all (root.mapMethods f))) (key : SignatureKey) :
    List.Forall₂ (Pair root renamed new) (root.candidates key) ((root.mapMethods f).candidates key) := by
  have scope : (root.mapMethods f).erasureScope = root.erasureScope := by simp [TypeModel.erasureScope]
  unfold TypeModel.candidates
  rw [scope]
  refine MethodGroup.unsatisfied_related (fun d d' pair => pair.2.frame) key ?_
  refine Inherited.filter_related (fun d d' pair => ?_) pairs
  rw [pair.key renames]

theorem invisible?_related {candidates candidates' : List Inherited}
    (pairs : List.Forall₂ (Pair root renamed new) candidates candidates') :
    invisible? (root.mapMethods f) candidates' = invisible? root candidates := by
  have facts := Inherited.map_eq_of_related
    (f := fun d => (d.method.name, d.method.owner, d.method.isAbstract, d.method.access))
    (fun d d' pair => by
      rw [pair.2.frame.name, pair.2.frame.owner, pair.2.frame.isAbstract, pair.2.frame.access]) pairs
  have byFacts (model : TypeModel) (all : List Inherited) : invisible? model all =
      ((all.map fun d => (d.method.name, d.method.owner, d.method.isAbstract, d.method.access)).find?
        fun fact => fact.2.2.1 && fact.2.2.2 == .packageAccess &&
          fact.2.1.package != model.name.package).map fun fact =>
        ⟨model.name.text, .packagePrivate fact.1 fact.2.1 model.name.package⟩ := by
    rw [List.find?_map, Option.map_map]
    rfl
  rw [byFacts, byFacts, facts, TypeModel.mapMethods_name]

theorem obligationOf_renamed {base : Inherited} {others others' : List Inherited}
    (pairs : List.Forall₂ (Pair root renamed new) others others') (newBase : List String)
    (contract : Contract) :
    obligationOf { base with method := base.method.rename newBase } others'
        (contract.subst (base.method.newVariables newBase)) =
      (obligationOf base others contract).rename newBase := by
  have accesses := Inherited.map_eq_of_related (f := fun d => d.method.access)
    (fun d d' pair => pair.2.frame.access) pairs
  have byAccesses (all : List Inherited) :
      all.foldl (fun access d => access.wider d.method.access) base.method.access =
        (all.map fun d => d.method.access).foldl Access.wider base.method.access := by
    rw [List.foldl_map]
  have widest : others'.foldl (fun access d => access.wider d.method.access) base.method.access =
      others.foldl (fun access d => access.wider d.method.access) base.method.access := by
    rw [byAccesses, byAccesses, accesses]
  simp only [obligationOf, MethodObligation.rename, Contract.subst, MethodObligation.mk.injEq, true_and]
  exact ⟨widest, trivial⟩

/-- What one key leaves to implement, before and after. -/
theorem resolve_corresponds (properRoot : root.Proper)
    (renames : ∀ seen, renamed seen → seen.Renames root.parameterNames new)
    (pairs : List.Forall₂ (Pair root renamed new) (Inherited.all root)
      (Inherited.all (root.mapMethods f)))
    (bounds : ∀ p ∈ root.typeParameters, ∀ bound ∈ p.bounds, bound.Supplied lookup)
    (library : ∀ name model, lookup name = some model → ∀ link ∈ model.supertypes,
      link.reference.ty.Fits lookup model.parameterNames)
    (unmixed : ∀ key base others, root.candidates key = base :: others →
      (∃ d ∈ base :: others, renamed d.method) → Unmixed lookup base others)
    {group group' : MethodGroup} {key : SignatureKey} (before : group.unsatisfied = root.candidates key)
    (after : group'.unsatisfied = (root.mapMethods f).candidates key) :
    Corresponds (Option.Rel (MethodObligation.Alike root)) (resolve lookup root group).value
      (resolve (fun name => (lookup name).map (TypeModel.mapMethods f)) (root.mapMethods f)
        group').value := by
  have related := @candidates_related root renamed new f renames pairs key
  rw [← before, ← after] at related
  generalize candidates : group.unsatisfied = listed, candidates' : group'.unsatisfied = listed' at related
  have proper : ∀ d ∈ listed, d.method.Proper root.parameterNames :=
    ((List.forall₂_and_left _ _).mp related).1
  cases related with
  | nil =>
    rw [resolve_value_nil candidates, resolve_value_nil candidates']
    exact .ok .none
  | @cons base base' others others' first rest =>
    rw [resolve_value_cons candidates, resolve_value_cons candidates',
      invisible?_related (.cons first rest)]
    cases invisible? root (base :: others) with
    | some refusal => exact .error _ _
    | none =>
      dsimp only
      by_cases seen : ∃ d ∈ base :: others, renamed d.method
      · obtain ⟨newBase, twin⟩ := first.twin renames
        have twins : List.Forall₂ (fun d d' => d ∈ base :: others ∧ ∃ new, Twin root new d d')
            (base :: others) (base' :: others') :=
          (List.forall₂_and_left _ _).mpr ⟨fun d member => member,
            List.Forall₂.imp (fun d d' pair => Pair.twin renames pair) (.cons first rest)⟩
        rw [agreement_renamed properRoot bounds library
          (unmixed key base others (before.symm.trans candidates) seen) proper twin twins]
        cases agreement lookup root base others with
        | error reason => exact .error _ _
        | ok contract =>
          obtain ⟨renamesBase, rfl⟩ := twin
          exact .ok (.some ⟨newBase, renamesBase, obligationOf_renamed rest newBase contract⟩)
      · have same : base' :: others' = base :: others := by
          have unseen : List.Forall₂ (fun d d' : Inherited => d ∈ base :: others ∧
              d.Revised renamed new d') (base :: others) (base' :: others') :=
            (List.forall₂_and_left _ _).mpr ⟨fun d member => member,
              List.Forall₂.imp (fun d d' pair => pair.2) (.cons first rest)⟩
          have equal : List.Forall₂ Eq (base :: others) (base' :: others') := by
            refine unseen.imp ?_
            rintro d d' ⟨member, rfl | ⟨changed, _⟩⟩
            · rfl
            · exact absurd ⟨d, member, changed⟩ seen
          exact (List.forall₂_eq_eq_eq ▸ equal : base :: others = base' :: others').symm
        obtain ⟨rfl, rfl⟩ := List.cons.inj same
        rw [agreement_unchanged]
        cases agreement lookup root base' others' with
        | error reason => exact .error _ _
        | ok contract => exact .ok (.some (MethodObligation.alike_self first.1.distinct))

end Candidates

/-- Entries of the same key whose obligations are alike. -/
def SameEntry (root : TypeModel) (entry entry' : SignatureKey × MethodObligation) : Prop :=
  entry'.1 = entry.1 ∧ entry.2.Alike root entry'.2

theorem resolveAll_corresponds {lookup lookup' : QualName → Option TypeModel} {root root' : TypeModel}
    {keys : List SignatureKey} {group group' : SignatureKey → MethodGroup}
    (named : ∀ key, (group key).key = key ∧ (group' key).key = key)
    (each : ∀ key ∈ keys, Corresponds (Option.Rel (MethodObligation.Alike root))
      (resolve lookup root (group key)).value (resolve lookup' root' (group' key)).value) :
    Corresponds (List.Forall₂ (SameEntry root)) (resolveAll lookup root (keys.map group)).value
      (resolveAll lookup' root' (keys.map group')).value := by
  induction keys with
  | nil => exact .ok .nil
  | cons key keys ih =>
    have first := each key (List.mem_cons_self ..)
    have rest := ih fun other later => each other (List.mem_cons_of_mem _ later)
    simp only [List.map_cons, resolveAll, Inquiry.value_bind]
    generalize (resolve lookup root (group key)).value = found,
      (resolve lookup' root' (group' key)).value = found' at first
    cases first with
    | error => exact .error _ _
    | @ok found found' related =>
      simp only [Inquiry.value_bind]
      generalize (resolveAll lookup root (keys.map group)).value = tail,
        (resolveAll lookup' root' (keys.map group')).value = tail' at rest
      cases rest with
      | error => exact .error _ _
      | ok entries =>
        refine .ok (List.rel_append ?_ entries)
        rw [(named key).1, (named key).2]
        cases related with
        | none => exact .nil
        | some alike => exact .cons ⟨rfl, alike⟩ .nil

/-- Sorting looks at keys and depths alone. -/
theorem mergeSort_related {root : TypeModel} {entries entries' : List (SignatureKey × MethodObligation)}
    (same : List.Forall₂ (SameEntry root) entries entries') :
    List.Forall₂ (SameEntry root) (entries.mergeSort comesBefore) (entries'.mergeSort comesBefore) := by
  have related := List.forall₂_iff_zip.mp same
  let before (a b : (SignatureKey × MethodObligation) × (SignatureKey × MethodObligation)) : Bool :=
    comesBefore a.1 b.1
  have left : ((entries.zip entries').mergeSort before).map Prod.fst = entries.mergeSort comesBefore := by
    rw [@List.map_mergeSort _ _ before comesBefore Prod.fst _ fun _ _ _ _ => rfl,
      List.map_fst_zip (by rw [related.1])]
  have right : ((entries.zip entries').mergeSort before).map Prod.snd =
      entries'.mergeSort comesBefore := by
    rw [@List.map_mergeSort _ _ before comesBefore Prod.snd, List.map_snd_zip (by rw [related.1])]
    intro a inA b inB
    obtain ⟨keyA, _, _, alikeA⟩ := related.2 inA
    obtain ⟨keyB, _, _, alikeB⟩ := related.2 inB
    simp only [before, comesBefore, keyA, keyB, alikeA, alikeB, MethodObligation.rename]
  rw [← left, ← right, List.forall₂_map_left_iff, List.forall₂_map_right_iff, List.forall₂_same]
  exact fun pair member => related.2 (List.mem_mergeSort.mp member)

end Collect

/-- What can confuse the type parameters of a method with other variables is absent: as the root
sees them they are not named like its own, candidates beside the method are unmixed, and class types
are supplied with arguments. -/
structure TypeModel.Unconfused (lookup : QualName → Option TypeModel) (root owner : TypeModel)
    (m : Method) : Prop where
  apart : ∀ seen, root.Sees owner m seen → ∀ v ∈ seen.declaredNames, v ∉ root.parameterNames
  candidates : ∀ key base others, root.candidates key = base :: others →
    (∃ d ∈ base :: others, root.Sees owner m d.method) → Collect.Unmixed lookup base others
  bounds : ∀ p ∈ root.typeParameters, ∀ bound ∈ p.bounds, bound.Supplied lookup
  library : ∀ name model, lookup name = some model → ∀ link ∈ model.supertypes,
    link.reference.ty.Supplied lookup

/-- Below a linked root, collecting before and after a renaming corresponds. -/
theorem Collect.obligations_correspond {lookup : QualName → Option TypeModel} {root : TypeModel}
    {renamed : Method → Prop} {new : List String} {f : QualName → List Method → List Method}
    (linked : root.Linked) (renames : ∀ seen, renamed seen → seen.Renames root.parameterNames new)
    (revised : List.Forall₂ (Inherited.Revised renamed new) (Inherited.all root)
      (Inherited.all (root.mapMethods f)))
    (bounds : ∀ p ∈ root.typeParameters, ∀ bound ∈ p.bounds, bound.Supplied lookup)
    (library : ∀ name model, lookup name = some model → ∀ link ∈ model.supertypes,
      link.reference.ty.Fits lookup model.parameterNames)
    (unmixed : ∀ key base others, root.candidates key = base :: others →
      (∃ d ∈ base :: others, renamed d.method) → Unmixed lookup base others) :
    Corresponds (List.Forall₂ (Obligation.Alike root)) (obligations lookup root).value
      (obligations (fun name => (lookup name).map (TypeModel.mapMethods f)) (root.mapMethods f)).value := by
  have pairs : List.Forall₂ (Pair root renamed new) (Inherited.all root)
      (Inherited.all (root.mapMethods f)) :=
    (List.forall₂_and_left _ _).mpr ⟨fun d => Inherited.method_proper linked, revised⟩
  have scope : (root.mapMethods f).erasureScope = root.erasureScope := by simp [TypeModel.erasureScope]
  have keys : (Inherited.all (root.mapMethods f)).map (·.key root.erasureScope) =
      (Inherited.all root).map (·.key root.erasureScope) :=
    Inherited.map_eq_of_related (fun d d' pair => pair.key renames) pairs
  have groups : Corresponds (List.Forall₂ (SameEntry root))
      (resolveAll lookup root (MethodGroup.ofRoot root)).value
      (resolveAll (fun name => (lookup name).map (TypeModel.mapMethods f)) (root.mapMethods f)
        (MethodGroup.ofRoot (root.mapMethods f))).value := by
    rw [MethodGroup.ofRoot_eq_gather, MethodGroup.ofRoot_eq_gather, MethodGroup.gather,
      MethodGroup.gather, scope, keys]
    refine resolveAll_corresponds (fun _ => ⟨rfl, rfl⟩) fun key _ => ?_
    have after : MethodGroup.unsatisfied ⟨key, (Inherited.all (root.mapMethods f)).filter fun d =>
        d.key root.erasureScope = key⟩ = (root.mapMethods f).candidates key := by
      rw [TypeModel.candidates, scope]
    exact resolve_corresponds linked.own renames pairs bounds library unmixed rfl after
  unfold obligations
  rw [TypeModel.mapMethods_refusal?, TypeModel.mapMethods_constructorObligations]
  cases root.refusal? with
  | some refusal => exact .error _ _
  | none =>
    cases root.constructorObligations with
    | error reason => exact .error _ _
    | ok constructors =>
      simp only [Inquiry.value_bind]
      generalize (resolveAll lookup root (MethodGroup.ofRoot root)).value = found,
        (resolveAll _ (root.mapMethods f) (MethodGroup.ofRoot (root.mapMethods f))).value =
          found' at groups
      cases groups with
      | error => exact .error _ _
      | ok entries =>
        refine .ok (List.rel_append ?_ ?_)
        · rw [List.forall₂_map_left_iff, List.forall₂_map_right_iff, List.forall₂_same]
          exact fun c _ => .constructor c
        · rw [List.forall₂_map_left_iff, List.forall₂_map_right_iff]
          exact (mergeSort_related entries).imp fun _ _ same => .method same.2

/-- New names for the type parameters of a method anywhere in a resolved hierarchy: where nothing can
be confused, collecting for a root in it succeeds as before, and yields the same obligations up to
the names of their own type parameters. -/
theorem obligations_renamed {fs fs' : FileSystem} {resolver consulted : Resolver} {name : QualName}
    {top root owner : TypeModel} {index : Nat} {m : Method} {new : List String} (used : resolver.Used)
    (resolved : (resolver.resolve fs name).1 = .ok top) (above : top.Reaches root)
    (declaring : top.Reaches owner) (declared : owner.methods[index]? = some m)
    (asked : consulted.Used) (counts : new.length = m.typeParameters.length) (distinct : new.Nodup)
    (fresh : ∀ v ∈ new, v ∉ root.parameterNames ∧ v ∉ m.usedNames)
    (unconfused : root.Unconfused (consulted.lookup fs') owner m) :
    Corresponds (List.Forall₂ (Obligation.Alike root))
      (obligations (consulted.lookup fs') root).value
      (obligations
        (fun name => (consulted.lookup fs' name).map
          (TypeModel.mapMethods (renameAt owner.name index new)))
        (root.mapMethods (renameAt owner.name index new))).value := by
  have whole := used.linked resolved
  have linked := whole.of_reaches above
  have coherent : ∀ model, root.Reaches model → model.name = owner.name → model = owner :=
    fun model reached => whole.coherent _ _ (above.trans reached) declaring
  have renames : ∀ seen, root.Sees owner m seen → seen.Renames root.parameterNames new := by
    intro seen sees
    have apart := unconfused.apart seen sees
    obtain ⟨node, _, _, rfl⟩ := sees
    refine .of_fresh ?_ distinct (fun v outer taken => (fresh v taken).1 outer) apart
    rw [counts]
    simp [Method.subst]
  refine Collect.obligations_correspond linked renames
    (Inherited.all_revised linked declared coherent counts fresh) unconfused.bounds ?_
    unconfused.candidates
  intro name model found link member
  refine ⟨fun v occurs => ?_, unconfused.library name model found link member⟩
  have proper := ((asked.lookup_linked found).own.arguments link member).1
  simp only [ClassRef.ty, Ty.vars, Ty.varsAll_eq_flatMap, List.mem_flatMap] at occurs
  obtain ⟨arg, listed, inside⟩ := occurs
  exact (proper arg listed).declared v inside

namespace SideBySide

/-- An abstract method `f` without parameters. -/
def method (owner : QualName) (parameters : List String) (result : Ty) : Method :=
  { name := "f", owner, typeParameters := parameters.map fun name => ⟨name, []⟩, result
    isAbstract := true }

def describe (name : QualName) (parameters : List String) (interfaces : List ClassRef)
    (methods : List Method) : Descriptor :=
  { name, kind := .interface, typeParameters := parameters.map fun name => ⟨name, []⟩, interfaces
    methods }

def model (name : QualName) (parameters : List String) (interfaces : List (Supertype TypeModel))
    (methods : List Method) : TypeModel :=
  { name, kind := .interface, typeParameters := parameters.map fun name => ⟨name, []⟩, interfaces
    methods }

def resolver (types : DescriptorIndex) : Resolver := { sources := [.inMemory "clash" types] }

def bottom (parameters above : List String) (left right : Method) : TypeModel :=
  model ⟨"R"⟩ parameters [
    ⟨⟨⟨"A"⟩, []⟩, model ⟨"A"⟩ [] [] [left]⟩,
    ⟨⟨⟨"B"⟩, parameters.map .var⟩, model ⟨"B"⟩ above [] [right]⟩] []

variable {parameters above : List String} {left right : Method}

theorem reaches_left : (bottom parameters above left right).Reaches (model ⟨"A"⟩ [] [] [left]) :=
  .single ⟨_, List.mem_cons_self .., rfl⟩

theorem reaches_right : (bottom parameters above left right).Reaches (model ⟨"B"⟩ above [] [right]) :=
  .single ⟨_, List.mem_cons_of_mem _ (List.mem_cons_self ..), rfl⟩

theorem fresh {new : List String} (outer : ∀ v ∈ new, v ∉ parameters ++ above)
    (inner : ∀ v ∈ new, v ∉ left.usedNames ++ right.usedNames) {reached : TypeModel}
    (led : (bottom parameters above left right).Reaches reached) :
    ∀ v ∈ new, v ∉ reached.parameterNames ∧ ∀ other ∈ reached.methods, v ∉ other.usedNames := by
  have types : reached = bottom parameters above left right ∨ reached = model ⟨"A"⟩ [] [] [left] ∨
      reached = model ⟨"B"⟩ above [] [right] := by
    induction led with
    | refl => exact Or.inl rfl
    | tail _ step ih =>
      obtain ⟨link, member, rfl⟩ := step
      rcases ih with rfl | rfl | rfl
      · simp only [TypeModel.supertypes, bottom, model, Option.toList_none, List.nil_append,
          List.mem_cons, List.not_mem_nil, or_false] at member
        rcases member with rfl | rfl <;> simp [model]
      · simp [TypeModel.supertypes, model] at member
      · simp [TypeModel.supertypes, model] at member
  intro v taken
  have apart := outer v taken
  have unused := inner v taken
  rw [List.mem_append, not_or] at apart unused
  rcases types with rfl | rfl | rfl
  · simpa [TypeModel.parameterNames, bottom, model] using apart.1
  · simpa [TypeModel.parameterNames, model] using unused.1
  · simpa [TypeModel.parameterNames, model] using ⟨apart.2, unused.2⟩

theorem used {types : DescriptorIndex} (proper : ∀ d ∈ types.descriptors, d.Proper) :
    (resolver types).Used := .new _ (by simpa using .inMemory _ types proper)

/-- `A` with `<T> T f()`, `B` with `<U> U f()`, and `R` that extends both. -/
def parallel : DescriptorIndex where
  descriptors := [
    describe ⟨"A"⟩ [] [] [method ⟨"A"⟩ ["T"] (.var "T")],
    describe ⟨"B"⟩ [] [] [method ⟨"B"⟩ ["U"] (.var "U")],
    describe ⟨"R"⟩ [] [⟨⟨"A"⟩, []⟩, ⟨⟨"B"⟩, []⟩] []]
  distinct := by decide

def leftMethod : Method := method ⟨"A"⟩ ["T"] (.var "T")

def rightMethod : Method := method ⟨"B"⟩ ["U"] (.var "U")

def parallelRoot : TypeModel := bottom [] [] leftMethod rightMethod

theorem candidate_cases {key : SignatureKey} {d : Inherited} (candidate : d ∈ parallelRoot.candidates key) :
    d.method = leftMethod ∨ d.method = rightMethod := by
  have all : (Inherited.all parallelRoot).map Inherited.method = [leftMethod, rightMethod] := by cbv
  have listed := (List.mem_filter.mp (MethodGroup.mem_of_mem_unsatisfied candidate)).1
  have member : d.method ∈ [leftMethod, rightMethod] := all ▸ List.mem_map_of_mem listed
  simpa using member

theorem lookup_cases {name : QualName} {found : TypeModel}
    (known : (resolver parallel).lookup {} name = some found) :
    found = parallelRoot ∨ found = model ⟨"A"⟩ [] [] [leftMethod] ∨ found = model ⟨"B"⟩ [] [] [rightMethod] := by
  by_cases a : name = ⟨"A"⟩
  · subst a
    exact Or.inr (Or.inl (Option.some.inj known).symm)
  · by_cases b : name = ⟨"B"⟩
    · subst b
      exact Or.inr (Or.inr (Option.some.inj known).symm)
    · by_cases r : name = ⟨"R"⟩
      · subst r
        exact Or.inl (Option.some.inj known).symm
      · have unknown : parallel.get? name = none := by
          simp [DescriptorIndex.get?, parallel, describe, Ne.symm a, Ne.symm b, Ne.symm r]
        have missing : (resolver parallel).lookup {} name = none := by
          simp only [Resolver.lookup, Resolver.resolve, Linking.link, resolver, Resolver.fuel,
            Source.loadFirst, Source.load, unknown, List.foldr_cons, List.foldr_nil, List.lookup_nil,
            List.not_mem_nil, if_false]
          rfl
        rw [missing] at known
        cases known

theorem unconfused :
    parallelRoot.Unconfused ((resolver parallel).lookup {}) (model ⟨"A"⟩ [] [] [leftMethod]) leftMethod where
  apart _ _ _ _ := by simp [parallelRoot, bottom, model, TypeModel.parameterNames]
  candidates key base others listed _ := by
    have methods : ∀ d ∈ base :: others, d.method = leftMethod ∨ d.method = rightMethod := fun d member =>
      candidate_cases (listed ▸ member)
    have single : ∀ d ∈ base :: others, d.method.typeParameters.length = 1 := fun d member => by
      rcases methods d member with same | same <;> rw [same] <;> rfl
    constructor
    · intro d later counts
      rw [single base (List.mem_cons_self ..), single d (List.mem_cons_of_mem _ later)] at counts
      exact absurd rfl counts
    · intro d member ty written
      rcases methods d member with same | same <;> rw [same] at written
      · simp [Method.types, leftMethod, method] at written
        simp [written, Ty.Supplied, Ty.references]
      · simp [Method.types, rightMethod, method] at written
        simp [written, Ty.Supplied, Ty.references]
  bounds p member := by simp [parallelRoot, bottom, model] at member
  library name found known link member := by
    have raw : link.reference.args = [] := by
      rcases lookup_cases known with rfl | rfl | rfl
      · simp only [TypeModel.supertypes, parallelRoot, bottom, model, Option.toList_none, List.nil_append,
          List.mem_cons, List.not_mem_nil, or_false] at member
        rcases member with rfl | rfl <;> rfl
      · simp [TypeModel.supertypes, model] at member
      · simp [TypeModel.supertypes, model] at member
    simp [Ty.Supplied, ClassRef.ty, Ty.references, raw]

end SideBySide

open SideBySide in
theorem parallel_renamed : Corresponds (List.Forall₂ (Obligation.Alike parallelRoot))
    (obligations ((resolver parallel).lookup {}) parallelRoot).value
    (obligations
      (fun name => ((resolver parallel).lookup {} name).map
        (TypeModel.mapMethods (renameAt ⟨"A"⟩ 0 ["Z"])))
      (parallelRoot.mapMethods (renameAt ⟨"A"⟩ 0 ["Z"]))).value :=
  have used : (resolver parallel).Used := used (by decide +kernel)
  obligations_renamed used (show ((resolver parallel).resolve {} ⟨"R"⟩).1 = .ok parallelRoot from rfl) .refl
    reaches_left rfl used rfl (by decide) (by decide) unconfused

/-- New names, found nowhere in a resolved hierarchy, for the first method of one of its types change
the outcome. -/
structure NamesMatter (resolver : Resolver) (root owner : TypeModel) (m : Method) (new : List String) :
    Prop where
  used : resolver.Used
  resolved : (resolver.resolve {} root.name).1 = .ok root
  above : root.Reaches owner
  declared : owner.methods[0]? = some m
  counts : new.length = m.typeParameters.length
  distinct : new.Nodup
  fresh : ∀ model, root.Reaches model → ∀ v ∈ new, v ∉ model.parameterNames ∧
    ∀ other ∈ model.methods, v ∉ other.usedNames
  changed : ¬ Corresponds (List.Forall₂ (Obligation.Alike root))
    (obligations (resolver.lookup {}) root).value
    (obligations
      (fun name => (resolver.lookup {} name).map (TypeModel.mapMethods (renameAt owner.name 0 new)))
      (root.mapMethods (renameAt owner.name 0 new))).value

theorem Corresponds.isOk {ε α : Type} {R : α → α → Prop} {before after : Except ε α}
    (same : Corresponds R before after) : before.isOk = after.isOk := by
  cases same <;> rfl

namespace SideBySide

/-- `A` with `<T> T f()`, `B<X>` with `<Y> X f()`, and `R<T>` that extends `A` and `B<T>`. -/
def captured : DescriptorIndex where
  descriptors := [
    describe ⟨"A"⟩ [] [] [method ⟨"A"⟩ ["T"] (.var "T")],
    describe ⟨"B"⟩ ["X"] [] [method ⟨"B"⟩ ["Y"] (.var "X")],
    describe ⟨"R"⟩ ["T"] [⟨⟨"A"⟩, []⟩, ⟨⟨"B"⟩, [.var "T"]⟩] []]
  distinct := by decide

/-- `A` with `<T, U> T f()`, `B` with `<T> T f()`, and `R` that extends both. -/
def unmatched : DescriptorIndex where
  descriptors := [
    describe ⟨"A"⟩ [] [] [method ⟨"A"⟩ ["T", "U"] (.var "T")],
    describe ⟨"B"⟩ [] [] [method ⟨"B"⟩ ["T"] (.var "T")],
    describe ⟨"R"⟩ [] [⟨⟨"A"⟩, []⟩, ⟨⟨"B"⟩, []⟩] []]
  distinct := by decide

/-- `D<Q>`, `C<X, Y>` that extends `D<Y>`, `A` with `<Y> D<Y> f()`, `B` with `<W> C<A> f()`, and `R`
that extends `A` and `B`. -/
def unsupplied : DescriptorIndex where
  descriptors := [
    describe ⟨"D"⟩ ["Q"] [] [],
    describe ⟨"C"⟩ ["X", "Y"] [⟨⟨"D"⟩, [.var "Y"]⟩] [],
    describe ⟨"A"⟩ [] [] [method ⟨"A"⟩ ["Y"] (.cls ⟨"D"⟩ [.var "Y"])],
    describe ⟨"B"⟩ [] [] [method ⟨"B"⟩ ["W"] (.cls ⟨"C"⟩ [.cls ⟨"A"⟩ []])],
    describe ⟨"R"⟩ [] [⟨⟨"A"⟩, []⟩, ⟨⟨"B"⟩, []⟩] []]
  distinct := by decide

end SideBySide

open SideBySide in
theorem verdict_depends_on_names :
    NamesMatter (resolver captured)
        (bottom ["T"] ["X"] (method ⟨"A"⟩ ["T"] (.var "T")) (method ⟨"B"⟩ ["Y"] (.var "X")))
        (model ⟨"A"⟩ [] [] [method ⟨"A"⟩ ["T"] (.var "T")]) (method ⟨"A"⟩ ["T"] (.var "T")) ["Z"] ∧
      NamesMatter (resolver unmatched)
        (bottom [] [] (method ⟨"A"⟩ ["T", "U"] (.var "T")) (method ⟨"B"⟩ ["T"] (.var "T")))
        (model ⟨"B"⟩ [] [] [method ⟨"B"⟩ ["T"] (.var "T")]) (method ⟨"B"⟩ ["T"] (.var "T")) ["Z"] ∧
      NamesMatter (resolver unsupplied)
        (bottom [] [] (method ⟨"A"⟩ ["Y"] (.cls ⟨"D"⟩ [.var "Y"]))
          (method ⟨"B"⟩ ["W"] (.cls ⟨"C"⟩ [.cls ⟨"A"⟩ []])))
        (model ⟨"A"⟩ [] [] [method ⟨"A"⟩ ["Y"] (.cls ⟨"D"⟩ [.var "Y"])])
        (method ⟨"A"⟩ ["Y"] (.cls ⟨"D"⟩ [.var "Y"])) ["Z"] := by
  refine ⟨⟨used (by decide +kernel), rfl, reaches_left, rfl, rfl, by decide,
      fun _ => fresh (by decide) (by decide), fun same => ?_⟩,
    ⟨used (by decide +kernel), rfl, reaches_right, rfl, rfl, by decide,
      fun _ => fresh (by decide) (by decide), fun same => ?_⟩,
    ⟨used (by decide +kernel), rfl, reaches_left, rfl, rfl, by decide,
      fun _ => fresh (by decide) (by decide), fun same => ?_⟩⟩
  · exact absurd same.isOk (by cbv; simp)
  · exact absurd same.isOk (by cbv; simp)
  · exact absurd same.isOk (by cbv; simp)

end JavaStubs
