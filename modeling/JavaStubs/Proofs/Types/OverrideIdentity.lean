import JavaStubs.Proofs.Types.Erasure
import JavaStubs.Proofs.Types.Nameless

namespace JavaStubs

/-- What variables erase to once a substitution has been made: those that it replaces erase like their
replacements, all others as before. -/
def ErasureScope.afterSubst (scope : ErasureScope) (s : Substitution) : ErasureScope :=
  s.map (fun entry => (entry.1, entry.2.erasure scope)) ++ scope

/-- The variables that the first bound mentions. -/
def TypeParameter.firstBoundVars (parameter : TypeParameter) : List String :=
  parameter.bounds.head?.toList.flatMap Ty.vars

/-- The first bound of a type parameter mentions neither the parameter itself nor a later one. -/
structure Method.LooksBack (m : Method) : Prop where
  own : ∀ p ∈ m.typeParameters, p.name ∉ p.firstBoundVars
  later : m.typeParameters.Pairwise fun p q => q.name ∉ p.firstBoundVars

namespace ErasureScope

theorem erased_afterSubst (scope : ErasureScope) (s : Substitution) (v : String) :
    (scope.afterSubst s).erased v = (s.apply v).erasure scope := by
  have listed : (s.map fun entry => (entry.1, entry.2.erasure scope)).lookup v =
      (s.lookup v).map (Ty.erasure scope) := by
    induction s with
    | nil => rfl
    | cons entry s ih =>
      rw [List.map_cons, List.lookup_cons, List.lookup_cons, ih]
      split <;> rfl
  rw [afterSubst, erased, List.lookup_append, listed, Substitution.apply]
  cases s.lookup v <;> rfl

theorem erased_cons_self (scope : ErasureScope) (v : String) (ty : Ty) :
    ErasureScope.erased ((v, ty) :: scope) v = ty := by
  rw [erased, List.lookup_cons_self, Option.getD_some]

theorem erased_cons_ne {scope : ErasureScope} {u v : String} (apart : u ≠ v) (ty : Ty) :
    ErasureScope.erased ((v, ty) :: scope) u = scope.erased u := by
  rw [erased, erased, List.lookup_cons, beq_false_of_ne apart]

end ErasureScope

namespace Ty

variable {s : Substitution} {scope scope' : ErasureScope} {ty : Ty}

theorem mem_vars_of_leading {v : String} (leading : ty.leading = some v) : v ∈ ty.vars := by
  induction ty with
  | var name => exact List.mem_singleton.mpr (Option.some.inj leading).symm
  | array element ih => exact ih leading
  | upper bound ih => exact ih leading
  | _ => cases leading

/-- Replacing variables and then erasing comes to erasing in a scope that says of the leading variable
what its replacement erases to. -/
theorem erasure_subst
    (agree : ∀ v, ty.leading = some v → (s.apply v).erasure scope = scope'.erased v) :
    (ty.subst s).erasure scope = ty.erasure scope' := by
  induction ty with
  | var name => exact agree name rfl
  | array element ih => exact congrArg array (ih agree)
  | upper bound ih => exact ih agree
  | _ => rfl

/-- An entry for a variable that a type does not mention makes no difference to it. -/
theorem erasure_cons {v : String} (absent : v ∉ ty.vars) (erased : Ty) :
    ty.erasure ((v, erased) :: scope) = ty.erasure scope := by
  refine erasure_eq_iff.mpr fun u leading => ErasureScope.erased_cons_ne (fun same => ?_) erased
  exact absent (same ▸ mem_vars_of_leading leading)

end Ty

namespace Method

variable {m : Method} {s : Substitution} {after before : ErasureScope}

/-- A type parameter as it comes out of a substitution. -/
def outcome (m : Method) (s : Substitution) (p : TypeParameter) : TypeParameter :=
  { p.substBounds (m.replacement s) with name := m.newName s p.name }

theorem typeParameters_subst : (m.subst s).typeParameters = m.typeParameters.map (m.outcome s) := rfl

/-- The variables that the signature writes. -/
def writtenVars (m : Method) : List String := m.types.flatMap Ty.vars

/-- A scope for the signature after a substitution and one for it before agree on all variables that
are written, but for the parameters still to be added to both. -/
def ScopesAgree (m : Method) (s : Substitution) (after before : ErasureScope)
    (ahead : List TypeParameter) : Prop :=
  ∀ v ∈ m.writtenVars, v ∉ ahead.map TypeParameter.name →
    ((m.replacement s).apply v).erasure after = before.erased v

/-- The new name of a parameter is mentioned by nothing that stands for another variable. -/
theorem newName_not_mem_replacement (distinct : m.declaredNames.Nodup) {name v : String}
    (declared : name ∈ m.declaredNames) (written : v ∈ m.writtenVars) (other : v ≠ name) :
    m.newName s name ∉ ((m.replacement s).apply v).vars := by
  by_cases own : v ∈ m.declaredNames
  · rw [replacement_declared distinct own, Ty.vars, List.mem_singleton]
    exact fun same => other (newName_injective distinct name declared v own same).symm
  · rw [replacement_other own, Substitution.apply]
    cases replaced : s.lookup v with
    | none =>
      obtain ⟨ty, inside, occurs⟩ := List.mem_flatMap.mp written
      rw [Option.getD_none, Ty.vars, List.mem_singleton]
      exact newName_not_free distinct declared inside occurs own
    | some ty => exact newName_not_replacement distinct declared own replaced

theorem mem_writtenVars_of_firstBound {p : TypeParameter} (listed : p ∈ m.typeParameters) {v : String}
    (mentioned : v ∈ p.firstBoundVars) : v ∈ m.writtenVars := by
  obtain ⟨bound, first, occurs⟩ := List.mem_flatMap.mp mentioned
  have inside : bound ∈ p.bounds := List.mem_of_head? (Option.mem_toList.mp first)
  refine List.mem_flatMap.mpr ⟨bound, ?_, occurs⟩
  simp only [types, List.mem_append, List.mem_flatMap]
  exact Or.inl (Or.inl (Or.inl ⟨p, listed, inside⟩))

/-- A parameter erases alike on both sides if its first bound mentions no parameter still ahead. -/
theorem ScopesAgree.erasure_outcome {ahead : List TypeParameter} (agree : m.ScopesAgree s after before ahead)
    {p : TypeParameter} (listed : p ∈ m.typeParameters)
    (back : ∀ q ∈ ahead, q.name ∉ p.firstBoundVars) :
    (m.outcome s p).erasure after = p.erasure before := by
  have bounds : (m.outcome s p).bounds = p.bounds.map (Ty.subst (m.replacement s)) := rfl
  rw [TypeParameter.erasure, TypeParameter.erasure, bounds]
  cases given : p.bounds with
  | nil => rfl
  | cons bound more =>
    refine Ty.erasure_subst fun v leading => ?_
    have mentioned : v ∈ p.firstBoundVars := by
      simpa [TypeParameter.firstBoundVars, given] using Ty.mem_vars_of_leading leading
    refine agree v (mem_writtenVars_of_firstBound listed mentioned) fun later => ?_
    obtain ⟨q, inAhead, rfl⟩ := List.mem_map.mp later
    exact back q inAhead mentioned

/-- Adding a parameter on both sides keeps the scopes in agreement, on the parameter as well. -/
theorem ScopesAgree.add (distinct : m.declaredNames.Nodup) {p : TypeParameter} {ahead : List TypeParameter}
    (agree : m.ScopesAgree s after before (p :: ahead)) (listed : p ∈ m.typeParameters)
    (back : ∀ q ∈ p :: ahead, q.name ∉ p.firstBoundVars) :
    m.ScopesAgree s (((m.outcome s p).name, (m.outcome s p).erasure after) :: after)
      ((p.name, p.erasure before) :: before) ahead := by
  have declared : p.name ∈ m.declaredNames := List.mem_map_of_mem listed
  have named : (m.outcome s p).name = m.newName s p.name := rfl
  intro v written unlisted
  by_cases here : v = p.name
  · subst here
    rw [replacement_declared distinct declared, named, Ty.erasure, ErasureScope.erased_cons_self,
      ErasureScope.erased_cons_self, agree.erasure_outcome listed back]
  · have absent := newName_not_mem_replacement (s := s) distinct declared written here
    rw [named, Ty.erasure_cons absent, ErasureScope.erased_cons_ne here]
    exact agree v written (by simpa [here] using unlisted)

/-- Scopes that agree outside the signature agree when all its parameters have been added. -/
theorem ScopesAgree.extend (distinct : m.declaredNames.Nodup) {ahead : List TypeParameter}
    (agree : m.ScopesAgree s after before ahead) (listed : ∀ p ∈ ahead, p ∈ m.typeParameters)
    (own : ∀ p ∈ ahead, p.name ∉ p.firstBoundVars)
    (later : ahead.Pairwise fun p q => q.name ∉ p.firstBoundVars) :
    m.ScopesAgree s (after.extend (ahead.map (m.outcome s))) (before.extend ahead) [] := by
  induction ahead generalizing after before with
  | nil => exact agree
  | cons p ahead ih =>
    obtain ⟨first, later⟩ := List.pairwise_cons.mp later
    obtain ⟨listedFirst, listed⟩ := List.forall_mem_cons.mp listed
    obtain ⟨ownFirst, own⟩ := List.forall_mem_cons.mp own
    exact ih (agree.add distinct listedFirst (List.forall_mem_cons.mpr ⟨ownFirst, first⟩)) listed own later

/-- Outside its parameters a signature meets the substitution as it is. -/
theorem scopesAgree_outside (agree : ∀ v, before.erased v = (s.apply v).erasure after) :
    m.ScopesAgree s after before m.typeParameters := by
  intro v _ outer
  rw [replacement_other outer, agree]

/-- The erased parameter types after a substitution are those in any scope that says of all variables
what their replacements erase to. -/
theorem erasedParameters_of_agree (distinct : m.declaredNames.Nodup) (back : m.LooksBack)
    (agree : ∀ v, before.erased v = (s.apply v).erasure after) :
    (m.subst s).erasedParameters after = m.erasedParameters before := by
  have finished := (scopesAgree_outside agree).extend distinct (fun _ => id) back.own back.later
  rw [erasedParameters, erasedParameters, typeParameters_subst]
  change (m.parameters.map (Ty.subst (m.replacement s))).map _ = _
  rw [List.map_map]
  refine List.map_congr_left fun ty member => Ty.erasure_subst fun v leading => ?_
  refine finished v (List.mem_flatMap.mpr ⟨ty, ?_, Ty.mem_vars_of_leading leading⟩) (by simp)
  simp only [types, List.mem_append]
  exact Or.inl (Or.inl (Or.inr member))

end Method

/-- Erasure commutes with substitution: the erased parameter types of a signature after a substitution
are those before it, in the scope where replaced variables erase like their replacements. So two
substitutions whose replacements erase alike give a method the same identity. -/
theorem erasedParameters_subst {m : Method} (distinct : m.declaredNames.Nodup) (back : m.LooksBack)
    (s : Substitution) (scope : ErasureScope) :
    (m.subst s).erasedParameters scope = m.erasedParameters (scope.afterSubst s) ∧
      ∀ t : Substitution, (∀ v, (t.apply v).erasure scope = (s.apply v).erasure scope) →
        (m.subst t).erasedParameters scope = (m.subst s).erasedParameters scope := by
  have commutes : (m.subst s).erasedParameters scope = m.erasedParameters (scope.afterSubst s) :=
    Method.erasedParameters_of_agree distinct back (scope.erased_afterSubst s)
  refine ⟨commutes, fun t alike => ?_⟩
  rw [commutes]
  refine Method.erasedParameters_of_agree distinct back fun v => ?_
  rw [ErasureScope.erased_afterSubst, alike]

namespace Nested

def method : Method :=
  { name := "f", owner := ⟨"p.A"⟩
    typeParameters := [⟨"T", [.var "X"]⟩, ⟨"U", [.var "T"]⟩]
    parameters := [.var "T", .array (.var "U")] }

def substitution : Substitution := [("X", .cls ⟨"java.util.List"⟩ [.var "T"])]

theorem looksBack : method.LooksBack := ⟨by decide, by decide⟩

end Nested

theorem nested_erased : Nested.method.declaredNames.Nodup ∧ Nested.method.LooksBack ∧
    (Nested.method.subst Nested.substitution).erasedParameters [] =
      Nested.method.erasedParameters [("X", .cls ⟨"java.util.List"⟩ [])] :=
  ⟨by decide, Nested.looksBack,
    (erasedParameters_subst (by decide) Nested.looksBack Nested.substitution []).1⟩

end JavaStubs
