import JavaStubs.Ty.Erasure
import Mathlib.Data.List.Nodup
import Mathlib.Logic.Relation

namespace JavaStubs

namespace Ty

/-- The variable, if any, whose erasure decides the erasure of a type. -/
def leading : Ty → Option String
  | .var name => some name
  | .array element => element.leading
  | .upper bound => bound.leading
  | _ => none

/-- Two scopes erase a type alike if and only if they erase its leading variable alike. -/
theorem erasure_eq_iff {scope scope' : ErasureScope} {ty : Ty} :
    ty.erasure scope = ty.erasure scope' ↔
      ∀ v, ty.leading = some v → scope.erased v = scope'.erased v := by
  induction ty with
  | var name => simp [erasure, leading]
  | array element ih => simpa [erasure, leading] using ih
  | upper bound ih => simpa [erasure, leading] using ih
  | _ => simp [erasure, leading]

end Ty

namespace ErasureScope

variable {scope : ErasureScope} {parameters before after : List TypeParameter} {v : String}

theorem extend_append (scope : ErasureScope) (before after : List TypeParameter) :
    scope.extend (before ++ after) = (scope.extend before).extend after := by
  induction before generalizing scope with
  | nil => rfl
  | cons p before ih => exact ih _

theorem erased_extend (absent : v ∉ parameters.map TypeParameter.name) :
    (scope.extend parameters).erased v = scope.erased v := by
  induction parameters generalizing scope with
  | nil => rfl
  | cons p rest ih =>
    rw [List.map_cons, List.mem_cons, not_or] at absent
    rw [extend, ih absent.2, erased, erased, List.lookup_cons, beq_false_of_ne absent.1]

/-- A parameter keeps the erasure that it had when it was added. -/
theorem erased_extend_self {p : TypeParameter} (last : p.name ∉ after.map TypeParameter.name) :
    (scope.extend (before ++ p :: after)).erased p.name = p.erasure (scope.extend before) := by
  rw [extend_append, extend, erased_extend last, erased, List.lookup_cons_self, Option.getD_some]

/-- When a parameter is added, a variable means what it means in the end, unless it is that parameter
or a later one. -/
theorem erased_before {p : TypeParameter} (absent : v ∉ (p :: after).map TypeParameter.name) :
    (scope.extend before).erased v = (scope.extend (before ++ p :: after)).erased v := by
  rw [extend_append, erased_extend absent]

end ErasureScope

namespace TypeParameter

/-- The first bound of the parameter `x` is led by the parameter `y`. -/
def LedBy (parameters : List TypeParameter) (x y : String) : Prop :=
  ∃ p ∈ parameters, p.name = x ∧ y ∈ parameters.map name ∧
    ∃ bound ∈ p.bounds.head?, bound.leading = some y

/-- No parameter is led by itself, directly or through others. -/
def Acyclic (parameters : List TypeParameter) : Prop :=
  ∀ x, ¬ Relation.TransGen (LedBy parameters) x x

end TypeParameter

/-- What a parameter erases to: `java.lang.Object` without bounds, else what its first bound erases to
under the parameters before it. That is what the bound erases to in the finished scope exactly if its
leading variable is no parameter from here on, or one that erased alike before they were added. -/
theorem erased_parameter_iff {parameters before after : List TypeParameter} {p : TypeParameter}
    (distinct : (parameters.map TypeParameter.name).Nodup)
    (position : parameters = before ++ p :: after) (scope : ErasureScope) :
    (p.bounds = [] → (scope.extend parameters).erased p.name = .object) ∧
    ∀ bound more, p.bounds = bound :: more →
      (scope.extend parameters).erased p.name = bound.erasure (scope.extend before) ∧
      ((scope.extend parameters).erased p.name = bound.erasure (scope.extend parameters) ↔
        ∀ v, bound.leading = some v → v ∈ (p :: after).map TypeParameter.name →
          scope.erased v = (scope.extend parameters).erased v) := by
  subst position
  rw [List.map_append, List.nodup_append] at distinct
  obtain ⟨_, later, apart⟩ := distinct
  have own := @ErasureScope.erased_extend_self scope before after p (List.nodup_cons.mp later).1
  refine ⟨fun unbounded => ?_, fun bound more bounded => ?_⟩
  · rw [own, TypeParameter.erasure, unbounded]
  · have first : p.erasure (scope.extend before) = bound.erasure (scope.extend before) := by
      rw [TypeParameter.erasure, bounded]
    rw [own, first]
    refine ⟨rfl, Ty.erasure_eq_iff.trans (forall₂_congr fun v _ => ?_)⟩
    by_cases ahead : v ∈ (p :: after).map TypeParameter.name
    · -- A name from here on is none of those before, so it means what it meant outside.
      have outside : v ∉ before.map TypeParameter.name := fun behind => apart v behind v ahead rfl
      rw [ErasureScope.erased_extend outside]
      exact ⟨fun same _ => same, fun same => same ahead⟩
    · exact iff_of_true (ErasureScope.erased_before ahead) fun known => absurd known ahead

namespace Forward

def number : Ty := .cls ⟨"java.lang.Number"⟩ []

/-- One bound stands ahead of its parameter and one behind it. -/
def parameters : List TypeParameter := [⟨"A", [.var "B"]⟩, ⟨"B", [number]⟩, ⟨"C", [.var "B"]⟩]

theorem distinct : (parameters.map TypeParameter.name).Nodup := by decide

theorem acyclic : TypeParameter.Acyclic parameters := by
  have led : ∀ x y, TypeParameter.LedBy parameters x y → x ≠ "B" ∧ y = "B" := by
    rintro x y ⟨p, member, rfl, _, bound, first, leading⟩
    simp only [parameters, List.mem_cons, List.not_mem_nil, or_false] at member
    rcases member with rfl | rfl | rfl
    · cases first
      exact ⟨by decide, (Option.some.inj leading).symm⟩
    · cases first
      cases leading
    · cases first
      exact ⟨by decide, (Option.some.inj leading).symm⟩
  intro x cycle
  obtain ⟨y, first, _⟩ := Relation.TransGen.head'_iff.mp cycle
  obtain ⟨z, _, last⟩ := Relation.TransGen.tail'_iff.mp cycle
  exact (led x y first).1 (led z x last).2

end Forward

theorem backward_erased : (Forward.parameters.map TypeParameter.name).Nodup ∧
    (ErasureScope.extend [] Forward.parameters).erased "C" =
      (Ty.var "B").erasure (ErasureScope.extend [] Forward.parameters) := by
  have exact := @erased_parameter_iff Forward.parameters
    [⟨"A", [.var "B"]⟩, ⟨"B", [Forward.number]⟩] [] ⟨"C", [.var "B"]⟩ Forward.distinct rfl []
  refine ⟨Forward.distinct, (exact.2 (.var "B") [] rfl).2.mpr fun v leading ahead => ?_⟩
  cases leading
  exact absurd ahead (by decide)

/-- Names are distinct and bounds acyclic, but `A` erases to `java.lang.Object`, and its bound `B` to
`java.lang.Number`. -/
theorem forward_not_erased : (Forward.parameters.map TypeParameter.name).Nodup ∧
    TypeParameter.Acyclic Forward.parameters ∧
    ¬ ∀ p ∈ Forward.parameters, ∀ bound more, p.bounds = bound :: more →
      (ErasureScope.extend [] Forward.parameters).erased p.name =
        bound.erasure (ErasureScope.extend [] Forward.parameters) := by
  refine ⟨Forward.distinct, Forward.acyclic, fun right => ?_⟩
  have wrong := right ⟨"A", [.var "B"]⟩ (by decide) (.var "B") [] rfl
  exact absurd wrong (by decide)

end JavaStubs
