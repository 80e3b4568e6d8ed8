import JavaStubs.Proofs.Hierarchy.Arguments
import JavaStubs.Proofs.Obligation.Agreement
import Mathlib

namespace JavaStubs

namespace MethodObligation

/-- Every type that the implementation writes. -/
def types (o : MethodObligation) : List Ty :=
  o.method.typeParameters.flatMap TypeParameter.bounds ++ o.method.parameters ++ o.throwing ++
    [o.result]

/-- A variable that the implementation writes, but that neither the root nor the method declares. -/
structure Undeclared (root : TypeModel) (o : MethodObligation) (v : String) : Prop where
  occurs : ∃ ty ∈ o.types, v ∈ ty.vars
  outer : v ∉ root.parameterNames
  own : v ∉ o.method.declaredNames

/-- A type parameter of a candidate that comes through as it is: the candidate's parameters have no
counterparts, and it has a part in the result or in the throws clause. -/
structure Unmatched (root : TypeModel) (o : MethodObligation) (v : String) (d : Inherited) :
    Prop where
  candidate : d ∈ root.candidates (o.key root)
  counts : d.method.typeParameters.length ≠ o.method.typeParameters.length
  declared : v ∈ d.method.declaredNames
  taken : (o.result = d.method.result ∧ v ∈ d.method.result.vars) ∨
    ∃ e ∈ o.throwing, e ∈ d.method.throwing ∧ v ∈ e.vars

end MethodObligation

namespace Collect

variable {base other : Method}

/-- Between equally many type parameters, a contract ends up in the terms of the base. -/
theorem align_proper {names : List String}
    (counts : base.typeParameters.length = other.typeParameters.length)
    (proper : other.Proper names) :
    ∀ ty ∈ (align base other).types, ty.Proper (names ++ base.declaredNames) := by
  intro ty member
  obtain ⟨original, written, rfl⟩ := exists_aligned counts member
  refine (proper.types original (mem_types_of_contract written)).subst fun v known => ?_
  rw [Method.newVariables_apply]
  exact Ty.proper_var (Method.renamedTo_known (by simp [Method.declaredNames, counts]) known)

/-- A variable of an aligned contract is declared, or it is a type parameter without counterpart. -/
theorem align_variable {names : List String} (proper : other.Proper names) {ty : Ty} {v : String}
    (member : ty ∈ (align base other).types) (occurs : v ∈ ty.vars) (outer : v ∉ names)
    (own : v ∉ base.declaredNames) :
    other.typeParameters.length ≠ base.typeParameters.length ∧ v ∈ other.declaredNames ∧
      align base other = contractOf other := by
  by_cases counts : base.typeParameters.length = other.typeParameters.length
  · have declared := (align_proper counts proper ty member).declared v occurs
    simp [outer, own] at declared
  · rw [align_of_ne counts] at member ⊢
    have declared := (proper.types ty (mem_types_of_contract member)).declared v occurs
    exact ⟨Ne.symm counts, (List.mem_append.mp declared).resolve_left outer, rfl⟩

end Collect

/-- What stands behind an obligation: the candidates of its key, which agree. -/
theorem owed_candidates {lookup : QualName → Option TypeModel} {root : TypeModel}
    {obs : List Obligation} (collected : (obligations lookup root).value = .ok obs)
    {o : MethodObligation} (owed : o ∈ methodsOf obs) :
    ∃ base others contract, root.candidates (o.key root) = base :: others ∧
      o = Collect.obligationOf base others contract ∧
      Collect.agreement lookup root base others = .ok contract ∧
      ∀ d ∈ base :: others, d ∈ Inherited.all root := by
  obtain ⟨_, _, entries, resolved, methods⟩ := collected_parts collected
  obtain ⟨_, rfl⟩ := Collect.resolveAll_value.mp resolved
  rw [methods] at owed
  obtain ⟨entry, sorted, rfl⟩ := List.mem_map.mp owed
  have member := List.mem_mergeSort.mp sorted
  obtain ⟨group, found, sameKey, owes⟩ := Collect.mem_entriesOf.mp member
  obtain ⟨base, others, contract, unsatisfied, _, agreed, value⟩ :=
    Collect.resolve_value_some (Collect.owed_eq_some.mp owes)
  rw [MethodGroup.ofRoot_eq_gather] at found
  have declarations := (MethodGroup.mem_gather.mp found).2
  have same : root.candidates (entry.2.key root) = group.unsatisfied := by
    rw [Collect.entry_key member, ← sameKey, TypeModel.candidates, ← declarations]
  refine ⟨base, others, contract, same.trans unsatisfied, value, agreed, fun d candidate => ?_⟩
  have declared := MethodGroup.mem_of_mem_unsatisfied (unsatisfied ▸ candidate)
  rw [declarations] at declared
  exact (List.mem_filter.mp declared).1

/-- The undeclared variables of a collected signature are exactly the type parameters that come
through unmatched from a candidate. -/
theorem undeclared_iff_unmatched {lookup : QualName → Option TypeModel} {fs : FileSystem}
    {resolver : Resolver} {name : QualName} {root : TypeModel} {obs : List Obligation}
    (used : resolver.Used) (resolved : (resolver.resolve fs name).1 = .ok root)
    (collected : (obligations lookup root).value = .ok obs) {o : MethodObligation}
    (owed : o ∈ methodsOf obs) (v : String) :
    o.Undeclared root v ↔ v ∉ root.parameterNames ∧ v ∉ o.method.declaredNames ∧
      ∃ d, o.Unmatched root v d := by
  have linked := used.linked resolved
  obtain ⟨base, others, contract, candidates, value, agreed, inherited⟩ :=
    owed_candidates collected owed
  have proper : ∀ d ∈ base :: others, d.method.Proper root.parameterNames := fun d candidate =>
    Inherited.method_proper linked (inherited d candidate)
  have own : base.method = o.method := by rw [value]; rfl
  constructor
  · rintro ⟨⟨ty, written, occurs⟩, outer, undeclared⟩
    refine ⟨outer, undeclared, ?_⟩
    obtain ⟨⟨a, inA, result⟩, b, inB, throwing⟩ := Collect.agreement_origin agreed
    rw [own] at result throwing
    simp only [MethodObligation.types, List.mem_append, List.mem_singleton] at written
    rcases written with (signature | thrown) | rfl
    · -- The signature is written in the terms of the root and the method.
      have listed : ty ∈ base.method.types := by
        simp only [Method.types, List.mem_append, own]
        exact Or.inl (Or.inl signature)
      have declared := ((proper base (List.mem_cons_self ..)).types ty listed).declared v occurs
      rw [own] at declared
      simp [outer, undeclared] at declared
    · have fromB : ty ∈ (Collect.align o.method b.method).throwing :=
        throwing ty (by rw [value] at thrown; exact thrown)
      obtain ⟨counts, declared, verbatim⟩ := Collect.align_variable (proper b inB)
        (List.mem_cons_of_mem _ fromB) occurs outer undeclared
      rw [verbatim] at fromB
      exact ⟨b, candidates ▸ inB, counts, declared, Or.inr ⟨ty, thrown, fromB, occurs⟩⟩
    · have fromA : o.result = (Collect.align o.method a.method).result := by
        rw [← result, value]
        rfl
      obtain ⟨counts, declared, verbatim⟩ := Collect.align_variable (proper a inA)
        (fromA ▸ List.mem_cons_self ..) occurs outer undeclared
      rw [verbatim] at fromA
      rw [show o.result = a.method.result from fromA] at occurs
      exact ⟨a, candidates ▸ inA, counts, declared, Or.inl ⟨fromA, occurs⟩⟩
  · rintro ⟨outer, undeclared, d, _, _, _, taken⟩
    refine ⟨?_, outer, undeclared⟩
    rcases taken with ⟨same, occurs⟩ | ⟨e, thrown, _, occurs⟩
    · exact ⟨o.result, by simp [MethodObligation.types], same ▸ occurs⟩
    · exact ⟨e, by simp [MethodObligation.types, thrown], occurs⟩

namespace Mixed

def plain : Method :=
  { name := "f", owner := ⟨"A"⟩, result := .object, isAbstract := true }

def generic : Method :=
  { name := "f", owner := ⟨"B"⟩, typeParameters := [⟨"T", []⟩], result := .var "T", isAbstract := true }

/-- `A` with `Object f()`, `B` with `<T> T f()`, and `R` that extends both. -/
def types : DescriptorIndex where
  descriptors := [
    { name := ⟨"A"⟩, kind := .interface, methods := [plain] },
    { name := ⟨"B"⟩, kind := .interface, methods := [generic] },
    { name := ⟨"R"⟩, kind := .interface, interfaces := [⟨⟨"A"⟩, []⟩, ⟨⟨"B"⟩, []⟩] }]
  distinct := by decide

def resolver : Resolver := { sources := [.inMemory "mixed" types] }

def bottom : TypeModel where
  name := ⟨"R"⟩
  kind := .interface
  interfaces := [
    ⟨⟨⟨"A"⟩, []⟩, { name := ⟨"A"⟩, kind := .interface, methods := [plain] }⟩,
    ⟨⟨⟨"B"⟩, []⟩, { name := ⟨"B"⟩, kind := .interface, methods := [generic] }⟩]

/-- The signature of `A` with the result of `B`. -/
def obligation : MethodObligation where
  method := plain
  result := .var "T"
  throwing := []
  access := .publicAccess
  depth := 1

theorem used : resolver.Used := .new _ (by simpa using .inMemory _ types (by decide +kernel))

theorem resolved : (resolver.resolve {} ⟨"R"⟩).1 = .ok bottom := rfl

theorem collected : (obligations (resolver.lookup {}) bottom).value = .ok [.method obligation] := by
  cbv

theorem undeclared : obligation.Undeclared bottom "T" :=
  ⟨⟨.var "T", by decide, by decide⟩, by decide, by decide⟩

end Mixed

theorem mixed_unmatched : ∃ d, Mixed.obligation.Unmatched Mixed.bottom "T" d := by
  have exact := undeclared_iff_unmatched Mixed.used Mixed.resolved Mixed.collected
    (o := Mixed.obligation) (by decide) "T"
  exact (exact.mp Mixed.undeclared).2.2

/-- The implementation of `R` has the result type `T`, which nothing declares. -/
theorem mixed_undeclared : Mixed.resolver.Used ∧
    (Mixed.resolver.resolve {} ⟨"R"⟩).1 = .ok Mixed.bottom ∧
    (obligations (Mixed.resolver.lookup {}) Mixed.bottom).value = .ok [.method Mixed.obligation] ∧
    Mixed.obligation.Undeclared Mixed.bottom "T" :=
  ⟨Mixed.used, Mixed.resolved, Mixed.collected, Mixed.undeclared⟩

end JavaStubs
