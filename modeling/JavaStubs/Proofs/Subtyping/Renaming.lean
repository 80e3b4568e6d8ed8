import JavaStubs.Proofs.Hierarchy.Revision
import JavaStubs.Proofs.Resolver.Linked
import JavaStubs.Proofs.Subtyping.Monotone
import JavaStubs.Proofs.Types.Renaming

namespace JavaStubs

namespace Subtyping

/-- Two ways of judging that differ in the names of variables, as far as some types go. These are
closed under all that a search can meet. -/
structure Renamed (f : QualName → List Method → List Method) (known known' : Knowledge)
    (s : Substitution) (good : Ty → Prop) : Prop where
  lookup : ∀ name, known'.lookup name = (known.lookup name).map (TypeModel.mapMethods f)
  images : ∀ v, ∃ u, s.apply v = .var u
  injective : ∀ a b, good a → good b → a.subst s = b.subst s → a = b
  arguments : ∀ name args, good (.cls name args) → ∀ arg ∈ args, good arg
  array : ∀ element, good (.array element) → good element
  upper : ∀ bound, good (.upper bound) → good bound
  lower : ∀ bound, good (.lower bound) → good bound
  bounds : ∀ v u, good (.var v) → s.apply v = .var u →
    known'.boundsOf u = (known.boundsOf v).map (Ty.subst s) ∧ ∀ bound ∈ known.boundsOf v, good bound
  steps : ∀ name args model, good (.cls name args) → known.lookup name = some model →
    ∀ link ∈ model.supertypes, good (stepUp model ⟨name, args⟩ link).ty ∧
      stepUp model ⟨name, args.map (Ty.subst s)⟩ link = (stepUp model ⟨name, args⟩ link).subst s

variable {f : QualName → List Method → List Method} {known known' : Knowledge} {s : Substitution}
  {good : Ty → Prop}

/-- A judgement says of images what another one says of good types. -/
def Agree (s : Substitution) (good : Ty → Prop) (judge judge' : Ty → Ty → Inquiry Bool) : Prop :=
  ∀ a b, good a → good b → (judge' (a.subst s) (b.subst s)).value = (judge a b).value

theorem stepUp_mapMethods (model : TypeModel) (ref : ClassRef) (link : Supertype TypeModel) :
    stepUp (model.mapMethods f) ref (link.mapMethods f) = stepUp model ref link := by
  simp [stepUp, Supertype.mapMethods, TypeModel.isGeneric, TypeModel.substitutionFor,
    TypeModel.rawSubstitution, TypeModel.erasureScope]

namespace Renamed

theorem isReference_subst (renamed : Renamed f known known' s good) (ty : Ty) :
    (ty.subst s).isReference = ty.isReference := by
  cases ty with
  | var v =>
    obtain ⟨u, same⟩ := renamed.images v
    rw [Ty.subst, same]
    rfl
  | _ => rfl

theorem isObject_subst (renamed : Renamed f known known' s good) (ty : Ty) :
    (ty.subst s).isObject = ty.isObject := by
  cases ty with
  | var v =>
    obtain ⟨u, same⟩ := renamed.images v
    rw [Ty.subst, same]
    rfl
  | cls name args =>
    rw [Ty.subst, Ty.substAll_eq_map]
    cases args with
    | nil => rfl
    | cons arg args => rw [Bool.eq_iff_iff, Ty.isObject, Ty.isObject, beq_iff_eq, beq_iff_eq]; simp [Ty.object]
  | _ => rfl

theorem beq_subst (renamed : Renamed f known known' s good) {a b : Ty} (goodA : good a)
    (goodB : good b) : (a.subst s == b.subst s) = (a == b) := by
  rw [Bool.eq_iff_iff, beq_iff_eq, beq_iff_eq]
  exact ⟨renamed.injective a b goodA goodB, congrArg _⟩

/-- Containment of arguments, by judgements that agree. -/
theorem contains_subst (renamed : Renamed f known known' s good)
    {judge judge' : Ty → Ty → Inquiry Bool} (agree : Agree s good judge judge') {outer inner : Ty}
    (goodOuter : good outer) (goodInner : good inner) :
    (contains judge' (outer.subst s) (inner.subst s)).value = (contains judge outer inner).value := by
  have equal := renamed.beq_subst goodOuter goodInner
  cases outer with
  | any => rfl
  | upper bound =>
    have goodBound := renamed.upper bound goodOuter
    cases inner with
    | upper inner => exact agree _ _ (renamed.upper inner goodInner) goodBound
    | any => exact renamed.isObject_subst bound
    | lower inner => exact renamed.isObject_subst bound
    | var v =>
      have judged := agree _ _ goodInner goodBound
      obtain ⟨u, same⟩ := renamed.images v
      rw [Ty.subst, same] at judged
      rw [Ty.subst, Ty.subst, same]
      exact judged
    | _ => exact agree _ _ goodInner goodBound
  | lower bound =>
    have goodBound := renamed.lower bound goodOuter
    cases inner with
    | lower inner => exact agree _ _ goodBound (renamed.lower inner goodInner)
    | any => rfl
    | upper inner => rfl
    | var v =>
      have judged := agree _ _ goodBound goodInner
      obtain ⟨u, same⟩ := renamed.images v
      rw [Ty.subst, same] at judged
      rw [Ty.subst, Ty.subst, same]
      exact judged
    | _ => exact agree _ _ goodBound goodInner
  | var v =>
    obtain ⟨u, same⟩ := renamed.images v
    rw [Ty.subst, same] at equal ⊢
    exact equal
  | _ => exact equal

theorem argumentsAgree_subst (renamed : Renamed f known known' s good)
    {judge judge' : Ty → Ty → Inquiry Bool} (agree : Agree s good judge judge') {sub sup : List Ty}
    (goodSub : ∀ arg ∈ sub, good arg) (goodSup : ∀ arg ∈ sup, good arg) :
    (argumentsAgree judge' (sub.map (Ty.subst s)) (sup.map (Ty.subst s))).value =
      (argumentsAgree judge sub sup).value := by
  unfold argumentsAgree
  simp only [List.isEmpty_map, List.length_map]
  split
  · rfl
  · split
    · rw [Inquiry.value_allM, Inquiry.value_allM, List.zip_map, List.all_map, Bool.eq_iff_iff,
        List.all_eq_true, List.all_eq_true]
      refine forall₂_congr fun pair member => ?_
      obtain ⟨left, right⟩ := List.of_mem_zip member
      rw [Function.comp_apply, Prod.map, contains_subst renamed agree (goodSup _ right) (goodSub _ left)]
    · rfl

theorem check_succ (renamed : Renamed f known known' s good) {depth : Nat}
    (types : Agree s good (check known depth) (check known' depth))
    (classes : ∀ sub sup : ClassRef, good sub.ty → good sup.ty →
      (checkClass known' depth (sub.subst s) (sup.subst s)).value =
        (checkClass known depth sub sup).value) :
    Agree s good (check known (depth + 1)) (check known' (depth + 1)) := by
  intro sub sup goodSub goodSup
  unfold check
  by_cases same : sub = sup
  · rw [if_pos same, if_pos (congrArg _ same)]
  · have different : sub.subst s ≠ sup.subst s := fun again =>
      same (renamed.injective sub sup goodSub goodSup again)
    rw [if_neg same, if_neg different, renamed.isObject_subst, renamed.isReference_subst]
    split
    · rfl
    · cases sub with
      | var v =>
        obtain ⟨u, image⟩ := renamed.images v
        obtain ⟨bounds, goodBounds⟩ := renamed.bounds v u goodSub image
        rw [Ty.subst, image]
        simp only [Inquiry.value_anyM, bounds, List.any_map]
        rw [Bool.eq_iff_iff, List.any_eq_true, List.any_eq_true]
        refine exists_congr fun bound => and_congr_right fun member => ?_
        rw [Function.comp_apply, types bound sup (goodBounds bound member) goodSup]
      | array element =>
        have goodElement := renamed.array element goodSub
        cases sup with
        | array element' =>
          simp only [Ty.subst, renamed.isReference_subst]
          split
          · exact types element element' goodElement (renamed.array element' goodSup)
          · rfl
        | cls name args => simp [Ty.subst]
        | var v =>
          obtain ⟨u, image⟩ := renamed.images v
          rw [Ty.subst, Ty.subst, image]
        | _ => rfl
      | cls name args =>
        cases sup with
        | cls name' args' =>
          simp only [Ty.subst, Ty.substAll_eq_map]
          exact classes ⟨name, args⟩ ⟨name', args'⟩ goodSub goodSup
        | var v =>
          obtain ⟨u, image⟩ := renamed.images v
          rw [Ty.subst, Ty.subst, image]
        | _ => rfl
      | _ => rfl

theorem checkClass_succ (renamed : Renamed f known known' s good) {depth : Nat}
    (types : Agree s good (check known depth) (check known' depth))
    (classes : ∀ sub sup : ClassRef, good sub.ty → good sup.ty →
      (checkClass known' depth (sub.subst s) (sup.subst s)).value =
        (checkClass known depth sub sup).value)
    {sub sup : ClassRef} (goodSub : good sub.ty) (goodSup : good sup.ty) :
    (checkClass known' (depth + 1) (sub.subst s) (sup.subst s)).value =
      (checkClass known (depth + 1) sub sup).value := by
  unfold checkClass
  have names : ((sub.subst s).name = (sup.subst s).name) = (sub.name = sup.name) := rfl
  by_cases sameName : sub.name = sup.name
  · rw [if_pos sameName, if_pos (names ▸ sameName)]
    exact renamed.argumentsAgree_subst types (renamed.arguments _ _ goodSub)
      (renamed.arguments _ _ goodSup)
  · rw [if_neg sameName, if_neg (names ▸ sameName)]
    simp only [Inquiry.value_bind, Knowledge.ask, ClassRef.subst, renamed.lookup]
    cases found : known.lookup sub.name with
    | none => rfl
    | some model =>
      simp only [Option.map_some, Inquiry.value_anyM, TypeModel.mapMethods_supertypes, List.any_map]
      rw [Bool.eq_iff_iff, List.any_eq_true, List.any_eq_true]
      refine exists_congr fun link => and_congr_right fun member => ?_
      obtain ⟨goodStep, step⟩ := renamed.steps sub.name sub.args model goodSub found link member
      rw [Function.comp_apply, stepUp_mapMethods, step]
      exact iff_of_eq (congrArg (· = true) (classes _ sup goodStep goodSup))

/-- Searches of any depth find the same. -/
theorem check_subst (renamed : Renamed f known known' s good) (depth : Nat) :
    Agree s good (check known depth) (check known' depth) ∧
      ∀ sub sup : ClassRef, good sub.ty → good sup.ty →
        (checkClass known' depth (sub.subst s) (sup.subst s)).value =
          (checkClass known depth sub sup).value := by
  induction depth with
  | zero => exact ⟨fun _ _ _ _ => rfl, fun _ _ _ _ => rfl⟩
  | succ depth ih =>
    obtain ⟨types, classes⟩ := ih
    exact ⟨renamed.check_succ types classes, fun _ _ => renamed.checkClass_succ types classes⟩

theorem isSubtype_subst (renamed : Renamed f known known' s good) :
    Agree s good known.isSubtype known'.isSubtype :=
  (renamed.check_subst depthLimit).1

end Renamed

end Subtyping

namespace Ty

mutual

/-- The class types that occur. -/
def references : Ty → List ClassRef
  | .cls name args => ⟨name, args⟩ :: referencesAll args
  | .array element => element.references
  | .upper bound => bound.references
  | .lower bound => bound.references
  | .void | .prim _ | .var _ | .any => []

def referencesAll : List Ty → List ClassRef
  | [] => []
  | ty :: rest => ty.references ++ referencesAll rest

end

@[simp] theorem referencesAll_eq_flatMap (args : List Ty) :
    referencesAll args = args.flatMap references := by
  induction args with
  | nil => rfl
  | cons ty rest ih => simp [referencesAll, ih]

/-- Every class type gives no arguments, or one for each parameter of the type. -/
def Supplied (lookup : QualName → Option TypeModel) (ty : Ty) : Prop :=
  ∀ ref ∈ ty.references, ref.args = [] ∨
    ∀ model, lookup ref.name = some model → model.typeParameters.length ≤ ref.args.length

/-- Only `names` occur, and class types are supplied with arguments. -/
structure Fits (lookup : QualName → Option TypeModel) (names : List String) (ty : Ty) : Prop where
  declared : ∀ v ∈ ty.vars, v ∈ names
  supplied : ty.Supplied lookup

variable {lookup : QualName → Option TypeModel} {names names' : List String} {ty : Ty}

theorem fits_cls {name : QualName} {args : List Ty} :
    (cls name args).Fits lookup names ↔
      (args = [] ∨ ∀ model, lookup name = some model → model.typeParameters.length ≤ args.length) ∧
        ∀ arg ∈ args, arg.Fits lookup names := by
  constructor
  · intro fits
    refine ⟨fits.supplied ⟨name, args⟩ (by simp [references]), fun arg member => ⟨?_, ?_⟩⟩
    · exact fun v occurs => fits.declared v (by simpa [vars] using ⟨arg, member, occurs⟩)
    · exact fun ref occurs =>
        fits.supplied ref (by simpa [references] using Or.inr ⟨arg, member, occurs⟩)
  · rintro ⟨own, each⟩
    refine ⟨fun v occurs => ?_, fun ref occurs => ?_⟩
    · simp only [vars, varsAll_eq_flatMap, List.mem_flatMap] at occurs
      obtain ⟨arg, member, inside⟩ := occurs
      exact (each arg member).declared v inside
    · simp only [references, referencesAll_eq_flatMap, List.mem_cons, List.mem_flatMap] at occurs
      rcases occurs with rfl | ⟨arg, member, inside⟩
      · exact own
      · exact (each arg member).supplied ref inside

theorem fits_array : (array ty).Fits lookup names ↔ ty.Fits lookup names :=
  ⟨fun fits => ⟨fits.1, fits.2⟩, fun fits => ⟨fits.1, fits.2⟩⟩

theorem fits_upper : (upper ty).Fits lookup names ↔ ty.Fits lookup names :=
  ⟨fun fits => ⟨fits.1, fits.2⟩, fun fits => ⟨fits.1, fits.2⟩⟩

theorem fits_lower : (lower ty).Fits lookup names ↔ ty.Fits lookup names :=
  ⟨fun fits => ⟨fits.1, fits.2⟩, fun fits => ⟨fits.1, fits.2⟩⟩

theorem fits_var {v : String} (declared : v ∈ names) : (var v).Fits lookup names :=
  ⟨by simpa [vars] using declared, by simp [Supplied, references]⟩

/-- Replacing variables by fitting types. -/
theorem Fits.subst {s : Substitution} (fits : ty.Fits lookup names)
    (replaced : ∀ v ∈ names, (s.apply v).Fits lookup names') : (ty.subst s).Fits lookup names' := by
  induction ty with
  | cls name args ih =>
    obtain ⟨own, each⟩ := fits_cls.mp fits
    rw [Ty.subst, substAll_eq_map, fits_cls]
    refine ⟨by simpa using own, fun arg member => ?_⟩
    obtain ⟨original, inside, rfl⟩ := List.mem_map.mp member
    exact ih original inside (each original inside)
  | var v => exact replaced v (fits.declared v (by simp [vars]))
  | array element ih => exact fits_array.mpr (ih (fits_array.mp fits))
  | upper bound ih => exact fits_upper.mpr (ih (fits_upper.mp fits))
  | lower bound ih => exact fits_lower.mpr (ih (fits_lower.mp fits))
  | _ => exact ⟨by simp [Ty.subst, vars], by simp [Supplied, Ty.subst, references]⟩

end Ty

namespace Subtyping

variable {lookup : QualName → Option TypeModel} {names : List String} {name : QualName}
  {args : List Ty} {model : TypeModel} {link : Supertype TypeModel}

/-- Unless a reference is raw, every parameter stands for one of its arguments. -/
theorem exists_supplied (found : lookup name = some model)
    (fits : (Ty.cls name args).Fits lookup names) (typed : ¬(args.isEmpty && model.isGeneric) = true)
    {v : String} (declared : v ∈ model.parameterNames) :
    ∃ arg ∈ args, (model.parameterNames.zip args).lookup v = some arg ∧
      (model.substitutionFor args) = model.parameterNames.zip args := by
  have given : args ≠ [] := by
    rintro rfl
    cases parameters : model.typeParameters with
    | nil => simp [TypeModel.parameterNames, parameters] at declared
    | cons => simp [TypeModel.isGeneric, parameters] at typed
  have enough := ((Ty.fits_cls.mp fits).1.resolve_left given) model found
  have key : v ∈ (model.parameterNames.zip args).map Prod.fst := by
    rwa [List.map_fst_zip (by simpa [TypeModel.parameterNames] using enough)]
  obtain ⟨entry, inside, rfl⟩ := List.mem_map.mp key
  cases value : (model.parameterNames.zip args).lookup entry.1 with
  | none =>
    have different := List.lookup_eq_none_iff.mp value entry inside
    simp at different
  | some arg =>
    have member := Substitution.lookup_mem value
    refine ⟨arg, (List.of_mem_zip member).2, rfl, ?_⟩
    rw [TypeModel.substitutionFor, if_neg (by simpa using given)]
    rfl

/-- The supertypes of a fitting type fit. -/
theorem stepUp_fits (found : lookup name = some model)
    (fits : (Ty.cls name args).Fits lookup names)
    (written : link.reference.ty.Fits lookup model.parameterNames) :
    (stepUp model ⟨name, args⟩ link).ty.Fits lookup names := by
  unfold stepUp
  split
  · exact Ty.fits_cls.mpr ⟨Or.inl rfl, by simp⟩
  · rename_i typed
    have same : (link.reference.subst (model.substitutionFor args)).ty =
        link.reference.ty.subst (model.substitutionFor args) := by
      simp [ClassRef.ty, ClassRef.subst, Ty.subst]
    rw [same]
    refine written.subst fun v declared => ?_
    obtain ⟨arg, member, value, replaced⟩ := exists_supplied found fits typed declared
    rw [replaced, Substitution.apply, value]
    exact (Ty.fits_cls.mp fits).2 arg member

/-- A step upwards goes through a substitution. -/
theorem stepUp_subst (found : lookup name = some model)
    (fits : (Ty.cls name args).Fits lookup names)
    (written : link.reference.ty.Fits lookup model.parameterNames) (s : Substitution) :
    stepUp model ⟨name, args.map (Ty.subst s)⟩ link = (stepUp model ⟨name, args⟩ link).subst s := by
  unfold stepUp
  simp only [List.isEmpty_map]
  split
  · rfl
  · rename_i typed
    simp only [ClassRef.subst, ClassRef.mk.injEq, List.map_map, true_and]
    refine List.map_congr_left fun arg member => (Ty.subst_subst fun v occurs => ?_).symm
    have declared := ((Ty.fits_cls.mp written).2 arg member).declared v occurs
    obtain ⟨given, _, value, replaced⟩ := exists_supplied found fits typed declared
    have nonempty : args ≠ [] := by
      rintro rfl
      simp at value
    rw [replaced, Substitution.apply, value, Option.getD_some, TypeModel.substitutionFor,
      if_neg (by simpa using nonempty), Substitution.apply]
    change _ = ((model.parameterNames.zip (args.map (Ty.subst s))).lookup v).getD _
    rw [lookup_zip_map, value]
    rfl

/-- Other methods alone make no difference to subtyping. -/
theorem Renamed.unchanged {f : QualName → List Method → List Method} {known known' : Knowledge}
    (lookup : ∀ name, known'.lookup name = (known.lookup name).map (TypeModel.mapMethods f))
    (bounds : known'.bounds = known.bounds) : Renamed f known known' [] fun _ => True where
  lookup := lookup
  images v := ⟨v, rfl⟩
  injective a b _ _ same := by simpa using same
  arguments _ _ _ _ _ := trivial
  array _ _ := trivial
  upper _ _ := trivial
  lower _ _ := trivial
  bounds v u _ image := by
    obtain rfl : v = u := Ty.var.inj image
    simp [Knowledge.boundsOf, bounds]
  steps _ args model _ _ link _ := by
    simp [ClassRef.subst]

end Subtyping

namespace Subtyping

variable {lookup : QualName → Option TypeModel} {root : TypeModel} {m : Method} {new : List String}
  {f : QualName → List Method → List Method}

/-- The bounds of a variable are renamed along. -/
theorem boundsOf_renamed (properRoot : root.Proper) (proper : m.Proper root.parameterNames)
    (renames : m.Renames root.parameterNames new) {v : String}
    (known : v ∈ root.parameterNames ++ m.declaredNames) :
    ∃ p ∈ root.typeParameters ++ m.typeParameters,
      (Collect.knowledgeFor lookup root m).boundsOf v = p.bounds ∧
      (Collect.knowledgeFor (fun name => (lookup name).map (TypeModel.mapMethods f))
          (root.mapMethods f) (m.rename new)).boundsOf (m.renamedTo new v) =
        p.bounds.map (Ty.subst (m.newVariables new)) := by
  unfold Collect.knowledgeFor
  by_cases own : v ∈ m.declaredNames
  · have entry := Method.renamedTo_mem renames.counts own
    rw [Method.declaredNames, List.zip_map_left] at entry
    obtain ⟨⟨p, name⟩, listed, image⟩ := List.mem_map.mp entry
    obtain ⟨sameName, sameNew⟩ := Prod.mk.inj image
    have member := (List.of_mem_zip listed).1
    refine ⟨p, List.mem_append_right _ member, ?_, ?_⟩
    · rw [← sameName]
      exact Knowledge.boundsOf_mem proper.distinct member
    · have distinct : ((m.rename new).typeParameters.map TypeParameter.name).Nodup := by
        change (m.rename new).declaredNames.Nodup
        rw [Method.declaredNames_rename renames.counts]
        exact renames.distinct
      rw [← sameNew]
      exact Knowledge.boundsOf_mem distinct
        (p := { p.substBounds (m.newVariables new) with name }) (List.mem_map_of_mem listed)
  · have outer : v ∈ root.parameterNames := (List.mem_append.mp known).resolve_right own
    have unnamed : v ∉ (m.rename new).declaredNames := by
      rw [Method.declaredNames_rename renames.counts]
      exact renames.uncaptured v outer own
    obtain ⟨p, member, rfl⟩ := List.mem_map.mp outer
    refine ⟨p, List.mem_append_left _ member, ?_, ?_⟩
    · rw [Knowledge.boundsOf_other own]
      exact Knowledge.boundsOf_mem properRoot.distinct member
    · rw [Method.renamedTo_of_not_mem own, Knowledge.boundsOf_other unnamed,
        TypeModel.mapMethods_typeParameters, Knowledge.boundsOf_mem properRoot.distinct member]
      have fixed : ∀ bound ∈ p.bounds, bound.subst (m.newVariables new) = bound := by
        intro bound inside
        refine Ty.subst_of_apply_var fun u occurs => ?_
        rw [Method.newVariables_apply,
          renames.fixed u ((properRoot.bounds p member bound inside).declared u occurs)]
      exact ((List.map_congr_left fixed).trans (List.map_id _)).symm

/-- Where a method stands below a root, new names for its type parameters make no difference to
fitting types. -/
theorem Renamed.of_renames (properRoot : root.Proper) (proper : m.Proper root.parameterNames)
    (renames : m.Renames root.parameterNames new)
    (supplied : ∀ p ∈ root.typeParameters ++ m.typeParameters, ∀ bound ∈ p.bounds,
      bound.Supplied lookup)
    (library : ∀ name model, lookup name = some model → ∀ link ∈ model.supertypes,
      link.reference.ty.Fits lookup model.parameterNames) :
    Renamed f (Collect.knowledgeFor lookup root m)
      (Collect.knowledgeFor (fun name => (lookup name).map (TypeModel.mapMethods f))
        (root.mapMethods f) (m.rename new))
      (m.newVariables new) (Ty.Fits lookup (root.parameterNames ++ m.declaredNames)) where
  lookup _ := rfl
  images v := ⟨_, Method.newVariables_apply⟩
  injective a b fitsA fitsB same :=
    Ty.subst_injective (fun _ => Method.newVariables_apply)
      (fun _ knownU _ knownV => renames.injective knownU knownV) fitsA.declared fitsB.declared same
  arguments _ _ fits := (Ty.fits_cls.mp fits).2
  array _ fits := Ty.fits_array.mp fits
  upper _ fits := Ty.fits_upper.mp fits
  lower _ fits := Ty.fits_lower.mp fits
  bounds v u fits image := by
    have known := fits.declared v (by simp [Ty.vars])
    rw [Method.newVariables_apply] at image
    obtain ⟨p, member, before, after⟩ := @boundsOf_renamed lookup root m new f properRoot proper renames
      v known
    rw [← Ty.var.inj image, before, after]
    refine ⟨rfl, fun bound inside => ⟨?_, supplied p member bound inside⟩⟩
    rcases List.mem_append.mp member with outer | own
    · exact fun w occurs => List.mem_append_left _
        ((properRoot.bounds p outer bound inside).declared w occurs)
    · refine (proper.types bound ?_).declared
      simp only [Method.types, List.mem_append, List.mem_flatMap]
      exact Or.inl (Or.inl (Or.inl ⟨p, own, inside⟩))
  steps name args model fits found link member :=
    ⟨stepUp_fits found fits (library name model found link member),
      stepUp_subst found fits (library name model found link member) _⟩

end Subtyping

end JavaStubs
