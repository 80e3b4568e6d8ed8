import JavaStubs.Model
import JavaStubs.Proofs.Types.Naming

namespace JavaStubs

namespace Ty

mutual

/-- The names of the class types that occur. -/
def classNames : Ty → List QualName
  | .cls name args => name :: classNamesAll args
  | .array element => element.classNames
  | .upper bound => bound.classNames
  | .lower bound => bound.classNames
  | .void | .prim _ | .var _ | .any => []

def classNamesAll : List Ty → List QualName
  | [] => []
  | ty :: rest => ty.classNames ++ classNamesAll rest

end

@[simp] theorem classNamesAll_eq_flatMap (args : List Ty) :
    classNamesAll args = args.flatMap classNames := by
  induction args with
  | nil => rfl
  | cons ty rest ih => simp [classNamesAll, ih]

/-- The variables are among `names`, and class names are valid. -/
structure Proper (names : List String) (ty : Ty) : Prop where
  declared : ∀ v ∈ ty.vars, v ∈ names
  named : ∀ name ∈ ty.classNames, name.valid = true

instance (names : List String) (ty : Ty) : Decidable (ty.Proper names) :=
  decidable_of_iff ((∀ v ∈ ty.vars, v ∈ names) ∧ ∀ name ∈ ty.classNames, name.valid = true)
    ⟨fun both => ⟨both.1, both.2⟩, fun proper => ⟨proper.1, proper.2⟩⟩

variable {names names' : List String} {ty : Ty}

theorem Proper.mono (proper : ty.Proper names) (wider : ∀ v ∈ names, v ∈ names') :
    ty.Proper names' :=
  ⟨fun v occurs => wider v (proper.declared v occurs), proper.named⟩

theorem proper_var {v : String} (declared : v ∈ names) : (var v).Proper names :=
  ⟨by simpa [vars] using declared, by simp [classNames]⟩

theorem proper_cls {name : QualName} {args : List Ty} :
    (cls name args).Proper names ↔ name.valid = true ∧ ∀ arg ∈ args, arg.Proper names := by
  constructor
  · intro proper
    refine ⟨proper.named name (by simp [classNames]), fun arg member => ⟨?_, ?_⟩⟩
    · intro v occurs
      exact proper.declared v (by simpa [vars] using ⟨arg, member, occurs⟩)
    · intro other occurs
      exact proper.named other (by simpa [classNames] using Or.inr ⟨arg, member, occurs⟩)
  · rintro ⟨valid, each⟩
    refine ⟨fun v occurs => ?_, fun other occurs => ?_⟩
    · simp only [vars, varsAll_eq_flatMap, List.mem_flatMap] at occurs
      obtain ⟨arg, member, inside⟩ := occurs
      exact (each arg member).declared v inside
    · simp only [classNames, classNamesAll_eq_flatMap, List.mem_cons, List.mem_flatMap] at occurs
      rcases occurs with rfl | ⟨arg, member, inside⟩
      · exact valid
      · exact (each arg member).named other inside

theorem proper_array : (array ty).Proper names ↔ ty.Proper names :=
  ⟨fun proper => ⟨proper.1, proper.2⟩, fun proper => ⟨proper.1, proper.2⟩⟩

theorem proper_upper : (upper ty).Proper names ↔ ty.Proper names :=
  ⟨fun proper => ⟨proper.1, proper.2⟩, fun proper => ⟨proper.1, proper.2⟩⟩

theorem proper_lower : (lower ty).Proper names ↔ ty.Proper names :=
  ⟨fun proper => ⟨proper.1, proper.2⟩, fun proper => ⟨proper.1, proper.2⟩⟩

/-- Replacing variables by proper types keeps a type proper. -/
theorem Proper.subst {s : Substitution} (proper : ty.Proper names)
    (replaced : ∀ v ∈ names, (s.apply v).Proper names') : (ty.subst s).Proper names' := by
  induction ty with
  | cls name args ih =>
    obtain ⟨valid, each⟩ := proper_cls.mp proper
    rw [Ty.subst, substAll_eq_map, proper_cls]
    refine ⟨valid, fun arg member => ?_⟩
    obtain ⟨original, inside, rfl⟩ := List.mem_map.mp member
    exact ih original inside (each original inside)
  | var v => exact replaced v (proper.declared v (by simp [vars]))
  | array element ih => exact proper_array.mpr (ih (proper_array.mp proper))
  | upper bound ih => exact proper_upper.mpr (ih (proper_upper.mp proper))
  | lower bound ih => exact proper_lower.mpr (ih (proper_lower.mp proper))
  | void => exact ⟨by simp [Ty.subst, vars], by simp [Ty.subst, classNames]⟩
  | prim p => exact ⟨by simp [Ty.subst, vars], by simp [Ty.subst, classNames]⟩
  | any => exact ⟨by simp [Ty.subst, vars], by simp [Ty.subst, classNames]⟩

theorem IsErased.proper (erased : ty.IsErased) : ty.Proper [] := by
  induction ty with
  | cls name args _ =>
    obtain ⟨valid, rfl⟩ := erased
    exact proper_cls.mpr ⟨valid, by simp⟩
  | array element ih => exact proper_array.mpr (ih erased)
  | void => exact ⟨by simp [vars], by simp [classNames]⟩
  | prim p => exact ⟨by simp [vars], by simp [classNames]⟩
  | _ => exact erased.elim

theorem object_isErased : object.IsErased := ⟨by decide +kernel, rfl⟩

end Ty

/-- All entries are erased types. -/
def ErasureScope.Erased (scope : ErasureScope) : Prop := ∀ entry ∈ scope, entry.2.IsErased

namespace ErasureScope

variable {scope : ErasureScope}

theorem Erased.erased (all : scope.Erased) (name : String) : (scope.erased name).IsErased := by
  unfold ErasureScope.erased
  cases found : scope.lookup name with
  | none => exact Ty.object_isErased
  | some ty => exact all _ (Substitution.lookup_mem found)

end ErasureScope

theorem Ty.Proper.erasure {names : List String} {ty : Ty} {scope : ErasureScope}
    (proper : ty.Proper names) (all : scope.Erased) : (ty.erasure scope).IsErased := by
  induction ty with
  | cls name args _ => exact ⟨(proper_cls.mp proper).1, rfl⟩
  | var v => exact all.erased v
  | array element ih => exact ih (proper_array.mp proper)
  | upper bound ih => exact ih (proper_upper.mp proper)
  | void => trivial
  | prim p => trivial
  | any => exact object_isErased
  | lower bound _ => exact object_isErased

/-- Every bound is proper. -/
def TypeParameter.Proper (names : List String) (parameter : TypeParameter) : Prop :=
  ∀ bound ∈ parameter.bounds, bound.Proper names

theorem ErasureScope.Erased.extend {names : List String} {scope : ErasureScope} (all : scope.Erased)
    {parameters : List TypeParameter} (proper : ∀ p ∈ parameters, p.Proper names) :
    (ErasureScope.extend scope parameters).Erased := by
  induction parameters generalizing scope with
  | nil => exact all
  | cons parameter rest ih =>
    refine ih (fun entry member => ?_) fun p later => proper p (List.mem_cons_of_mem _ later)
    rcases List.mem_cons.mp member with rfl | old
    · have bounds := proper parameter (List.mem_cons_self ..)
      unfold TypeParameter.erasure
      unfold TypeParameter.Proper at bounds
      cases listed : parameter.bounds with
      | nil => exact Ty.object_isErased
      | cons bound _ => exact (bounds bound (by simp [listed])).erasure all
    · exact all entry old

/-- Distinct type parameters, and types that make sense below `names`. -/
structure Method.Proper (names : List String) (m : Method) : Prop where
  distinct : m.declaredNames.Nodup
  types : ∀ ty ∈ m.types, ty.Proper (names ++ m.declaredNames)

instance (names : List String) (m : Method) : Decidable (m.Proper names) :=
  decidable_of_iff (m.declaredNames.Nodup ∧ ∀ ty ∈ m.types, ty.Proper (names ++ m.declaredNames))
    ⟨fun both => ⟨both.1, both.2⟩, fun proper => ⟨proper.1, proper.2⟩⟩

/-- The erased parameter types of a proper signature have valid names. -/
theorem Method.Proper.erasedParameters {names : List String} {m : Method} {scope : ErasureScope}
    (proper : m.Proper names) (all : scope.Erased) :
    ∀ ty ∈ m.erasedParameters scope, ty.IsErased := by
  have extended : (scope.extend m.typeParameters).Erased := by
    refine all.extend fun p listed bound inside => proper.types bound ?_
    simp only [Method.types, List.mem_append, List.mem_flatMap]
    exact Or.inl (Or.inl (Or.inl ⟨p, listed, inside⟩))
  intro ty member
  obtain ⟨parameter, listed, rfl⟩ := List.mem_map.mp member
  refine (proper.types parameter ?_).erasure extended
  simp only [Method.types, List.mem_append]
  exact Or.inl (Or.inl (Or.inr listed))

end JavaStubs
