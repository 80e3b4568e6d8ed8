import JavaStubs.Proofs.Hierarchy.Arrangement
import JavaStubs.Proofs.Subtyping.Monotone

namespace JavaStubs

/-- The same types with their interfaces in another order. -/
def Knowledge.arrange (a : Arrangement) (known : Knowledge) : Knowledge :=
  { known with lookup := a.lookup known.lookup }

namespace Subtyping

/-- Arguments are compared by the answers of a judgement only. -/
theorem argumentsAgree_congr {judge judge' : Ty → Ty → Inquiry Bool}
    (same : ∀ sub sup, (judge' sub sup).value = (judge sub sup).value) (sub sup : List Ty) :
    (argumentsAgree judge' sub sup).value = (argumentsAgree judge sub sup).value := by
  rw [Bool.eq_iff_iff]
  exact ⟨argumentsAgree_mono fun sub sup yes => same sub sup ▸ yes,
    argumentsAgree_mono fun sub sup yes => (same sub sup).symm ▸ yes⟩

theorem stepUp_arrange (a : Arrangement) (model : TypeModel) (ref : ClassRef)
    (link : Supertype TypeModel) :
    stepUp (model.arrange a) ref (link.arrange a) = stepUp model ref link := by
  simp [stepUp, Supertype.arrange, TypeModel.isGeneric]

variable {a : Arrangement} {known : Knowledge} {depth : Nat}

theorem check_succ_arrange
    (types : ∀ sub sup, (check (known.arrange a) depth sub sup).value =
      (check known depth sub sup).value)
    (classes : ∀ sub sup, (checkClass (known.arrange a) depth sub sup).value =
      (checkClass known depth sub sup).value) (sub sup : Ty) :
    (check (known.arrange a) (depth + 1) sub sup).value = (check known (depth + 1) sub sup).value := by
  have bounds (v : String) : (known.arrange a).boundsOf v = known.boundsOf v := rfl
  unfold check
  split
  · rfl
  · split
    · rfl
    · split
      · simp only [Inquiry.value_anyM, bounds, types]
      · split
        · exact types ..
        · rfl
      · rfl
      · exact classes ..
      · rfl

theorem checkClass_succ_arrange
    (types : ∀ sub sup, (check (known.arrange a) depth sub sup).value =
      (check known depth sub sup).value)
    (classes : ∀ sub sup, (checkClass (known.arrange a) depth sub sup).value =
      (checkClass known depth sub sup).value) (sub sup : ClassRef) :
    (checkClass (known.arrange a) (depth + 1) sub sup).value =
      (checkClass known (depth + 1) sub sup).value := by
  unfold checkClass
  split
  · exact argumentsAgree_congr types ..
  · simp only [Inquiry.value_bind, Knowledge.ask, Knowledge.arrange, Arrangement.lookup]
    cases known.lookup sub.name with
    | none => rfl
    | some model =>
      have links := model.arrange_supertypes a
      simp only [Option.map_some, Inquiry.value_anyM]
      rw [links.any_eq, List.any_map]
      simp only [Function.comp_def, stepUp_arrange]
      exact congrArg _ (funext fun link => classes ..)

/-- Searches of any depth find the same. -/
theorem check_arrange (a : Arrangement) (known : Knowledge) (depth : Nat) :
    (∀ sub sup, (check (known.arrange a) depth sub sup).value = (check known depth sub sup).value) ∧
      ∀ sub sup, (checkClass (known.arrange a) depth sub sup).value =
        (checkClass known depth sub sup).value := by
  induction depth with
  | zero => exact ⟨fun _ _ => rfl, fun _ _ => rfl⟩
  | succ depth ih =>
    obtain ⟨types, classes⟩ := ih
    exact ⟨check_succ_arrange types classes, checkClass_succ_arrange types classes⟩

end Subtyping

theorem Knowledge.isSubtype_arrange (a : Arrangement) (known : Knowledge) (sub sup : Ty) :
    ((known.arrange a).isSubtype sub sup).value = (known.isSubtype sub sup).value :=
  (Subtyping.check_arrange a known Subtyping.depthLimit).1 sub sup

end JavaStubs
