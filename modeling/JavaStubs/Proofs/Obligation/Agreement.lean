import JavaStubs.Proofs.Obligation.Groups
import JavaStubs.Proofs.Subtyping.Renaming

namespace JavaStubs

namespace Collect

namespace Contract

/-- The types of a contract. -/
def types (contract : Contract) : List Ty := contract.result :: contract.throwing

def subst (s : Substitution) (contract : Contract) : Contract :=
  ⟨contract.result.subst s, contract.throwing.map (Ty.subst s)⟩

end Contract

/-- A candidate's contract in its own terms. -/
def contractOf (m : Method) : Contract := ⟨m.result, m.throwing⟩

theorem mem_types_of_contract {m : Method} {ty : Ty} (member : ty ∈ (contractOf m).types) :
    ty ∈ m.types := by
  rcases List.mem_cons.mp member with rfl | thrown
  · simp [Method.types, contractOf]
  · simp [Method.types, show ty ∈ m.throwing from thrown]

section Origin

variable {known : Knowledge} {base other : Method}

theorem align_of_ne (counts : base.typeParameters.length ≠ other.typeParameters.length) :
    align base other = contractOf other := by
  rw [align, if_pos (by simp [counts]), contractOf]

/-- Equally many type parameters are matched by position. -/
theorem align_of_eq (counts : base.typeParameters.length = other.typeParameters.length) :
    align base other = (contractOf other).subst (other.newVariables base.declaredNames) := by
  by_cases none : base.typeParameters = []
  · have unnamed : other.newVariables base.declaredNames = [] := by
      simp [Method.newVariables, Method.declaredNames, none]
    rw [align, if_pos (by simp [none]), unnamed]
    simp [Contract.subst, contractOf]
  · rw [align, if_neg (by simp [counts, none])]
    rfl

theorem exists_aligned (counts : base.typeParameters.length = other.typeParameters.length) {ty : Ty}
    (member : ty ∈ (align base other).types) : ∃ original ∈ (contractOf other).types,
      original.subst (other.newVariables base.declaredNames) = ty := by
  rw [align_of_eq counts] at member
  rcases List.mem_cons.mp member with rfl | thrown
  · exact ⟨_, List.mem_cons_self .., rfl⟩
  · obtain ⟨original, listed, rfl⟩ := List.mem_map.mp thrown
    exact ⟨original, List.mem_cons_of_mem _ listed, rfl⟩

theorem checkedOnly_subset (clause : List Ty) :
    ∀ e ∈ (checkedOnly known clause).value, e ∈ clause := by
  induction clause with
  | nil => simp [checkedOnly]
  | cons first rest ih =>
    intro e member
    simp only [checkedOnly, Inquiry.value_bind, Inquiry.value_pure] at member
    split at member
    · exact List.mem_cons_of_mem _ (ih e member)
    · rcases List.mem_cons.mp member with rfl | later
      · exact List.mem_cons_self ..
      · exact List.mem_cons_of_mem _ (ih e later)

theorem mem_contracts {candidates : List Inherited} {contract : Contract}
    (member : contract ∈ (contracts known base candidates).value) :
    ∃ d ∈ candidates, contract.result = (align base d.method).result ∧
      ∀ e ∈ contract.throwing, e ∈ (align base d.method).throwing := by
  induction candidates with
  | nil => simp [contracts] at member
  | cons d rest ih =>
    simp only [contracts, Inquiry.value_bind, Inquiry.value_pure] at member
    rcases List.mem_cons.mp member with rfl | later
    · exact ⟨d, List.mem_cons_self .., rfl, checkedOnly_subset _⟩
    · obtain ⟨d, listed, origin⟩ := ih later
      exact ⟨d, List.mem_cons_of_mem _ listed, origin⟩

/-- What is agreed on is some contract's result and some contract's throws clause. -/
theorem agree_ok {all : List Contract} {contract : Contract}
    (agreed : (agree known all).value = .ok contract) :
    contract.result ∈ all.map Contract.result ∧ contract.throwing ∈ all.map Contract.throwing := by
  simp only [agree, commonResult?, commonThrows?, Inquiry.value_bind, Inquiry.value_findM?] at agreed
  split at agreed
  · cases agreed
  · rename_i result found
    simp only [Inquiry.value_bind] at agreed
    split at agreed
    · cases agreed
    · simp only [Inquiry.value_bind, Inquiry.value_findM?] at agreed
      split at agreed
      · cases agreed
      · rename_i throwing foundThrowing
        cases agreed
        exact ⟨List.mem_of_find?_eq_some found, List.mem_of_find?_eq_some foundThrowing⟩

/-- Result and throws clause come from candidates. -/
theorem agreement_origin {lookup : QualName → Option TypeModel} {root : TypeModel}
    {first : Inherited} {others : List Inherited} {contract : Contract}
    (agreed : agreement lookup root first others = .ok contract) :
    (∃ d ∈ first :: others, contract.result = (align first.method d.method).result) ∧
      ∃ d ∈ first :: others, ∀ e ∈ contract.throwing, e ∈ (align first.method d.method).throwing := by
  obtain ⟨result, throwing⟩ := agree_ok agreed
  obtain ⟨a, inA, sameResult⟩ := List.mem_map.mp result
  obtain ⟨b, inB, sameThrowing⟩ := List.mem_map.mp throwing
  obtain ⟨d, listed, origin, _⟩ := mem_contracts inA
  obtain ⟨e, listed', _, origin'⟩ := mem_contracts inB
  exact ⟨⟨d, listed, sameResult ▸ origin⟩, ⟨e, listed', sameThrowing ▸ origin'⟩⟩

end Origin

end Collect

/-- A conflict in other terms. -/
def ConflictReason.subst (s : Substitution) : ConflictReason → ConflictReason
  | .results types => .results (types.map (Ty.subst s))
  | .throwsClauses left right => .throwsClauses (left.map (Ty.subst s)) (right.map (Ty.subst s))
  | .noCommonThrows => .noCommonThrows

namespace Collect

/-- An outcome in other terms. -/
def outcomeSubst (s : Substitution) :
    Except ConflictReason Contract → Except ConflictReason Contract
  | .error reason => .error (reason.subst s)
  | .ok contract => .ok (contract.subst s)

section Judged

variable {known known' : Knowledge} {s : Substitution} {good : Ty → Prop}

/-- A search for an item goes through a map that keeps the verdict on each. -/
theorem find?_map_of_mem {α β : Type} {g : α → β} {p : α → Bool} {q : β → Bool} {items : List α}
    (same : ∀ a ∈ items, q (g a) = p a) : (items.map g).find? q = (items.find? p).map g := by
  rw [List.find?_map]
  congr 1
  induction items with
  | nil => rfl
  | cons a items ih =>
    rw [List.find?_cons, List.find?_cons, Function.comp_apply, same a (List.mem_cons_self ..),
      ih fun b later => same b (List.mem_cons_of_mem _ later)]

theorem covers_subst (judged : Subtyping.Agree s good known.isSubtype known'.isSubtype)
    {narrow wide : List Ty} (goodNarrow : ∀ e ∈ narrow, good e) (goodWide : ∀ e ∈ wide, good e) :
    (covers known' (narrow.map (Ty.subst s)) (wide.map (Ty.subst s))).value =
      (covers known narrow wide).value := by
  simp only [covers, Inquiry.value_allM, Inquiry.value_anyM, List.all_map, List.any_map]
  rw [Bool.eq_iff_iff, List.all_eq_true, List.all_eq_true]
  refine forall₂_congr fun e member => ?_
  simp only [Function.comp_apply, List.any_eq_true]
  refine exists_congr fun w => and_congr_right fun listed => ?_
  rw [judged e w (goodNarrow e member) (goodWide w listed)]

theorem clash_subst (judged : Subtyping.Agree s good known.isSubtype known'.isSubtype)
    {left right : List Ty} (goodLeft : ∀ e ∈ left, good e) (goodRight : ∀ e ∈ right, good e) :
    (clash known' (left.map (Ty.subst s)) (right.map (Ty.subst s))).value =
      (clash known left right).value := by
  simp only [clash, Inquiry.value_bind, covers_subst judged goodLeft goodRight]
  split
  · rfl
  · simp only [Inquiry.value_bind, Inquiry.value_pure, covers_subst judged goodRight goodLeft]

theorem firstClash?_subst (judged : Subtyping.Agree s good known.isSubtype known'.isSubtype)
    {clauses : List (List Ty)} (goodAll : ∀ clause ∈ clauses, ∀ e ∈ clause, good e) :
    (firstClash? known' (clauses.map (List.map (Ty.subst s)))).value =
      (firstClash? known clauses).value.map
        (Prod.map (List.map (Ty.subst s)) (List.map (Ty.subst s))) := by
  induction clauses with
  | nil => rfl
  | cons left rest ih =>
    have goodRest : ∀ clause ∈ rest, ∀ e ∈ clause, good e := fun clause later =>
      goodAll clause (List.mem_cons_of_mem _ later)
    have clashing : (rest.map (List.map (Ty.subst s))).find?
          (fun right => (clash known' (left.map (Ty.subst s)) right).value) =
        (rest.find? fun right => (clash known left right).value).map (List.map (Ty.subst s)) :=
      find?_map_of_mem fun right listed =>
        clash_subst judged (goodAll left (List.mem_cons_self ..)) (goodRest right listed)
    simp only [List.map_cons, firstClash?, Inquiry.value_bind, Inquiry.value_findM?, clashing]
    cases rest.find? fun right => (clash known left right).value with
    | none => exact ih goodRest
    | some right => rfl

theorem commonResult?_subst (judged : Subtyping.Agree s good known.isSubtype known'.isSubtype)
    {results : List Ty} (goodAll : ∀ ty ∈ results, good ty) :
    (commonResult? known' (results.map (Ty.subst s))).value =
      (commonResult? known results).value.map (Ty.subst s) := by
  simp only [commonResult?, Inquiry.value_findM?, Inquiry.value_allM]
  refine find?_map_of_mem fun result listed => ?_
  rw [List.all_map, Bool.eq_iff_iff, List.all_eq_true, List.all_eq_true]
  refine forall₂_congr fun other member => ?_
  rw [Function.comp_apply, judged result other (goodAll result listed) (goodAll other member)]

theorem commonThrows?_subst (judged : Subtyping.Agree s good known.isSubtype known'.isSubtype)
    {clauses : List (List Ty)} (goodAll : ∀ clause ∈ clauses, ∀ e ∈ clause, good e) :
    (commonThrows? known' (clauses.map (List.map (Ty.subst s)))).value =
      (commonThrows? known clauses).value.map (List.map (Ty.subst s)) := by
  simp only [commonThrows?, Inquiry.value_findM?, Inquiry.value_allM]
  refine find?_map_of_mem fun clause listed => ?_
  rw [List.all_map, Bool.eq_iff_iff, List.all_eq_true, List.all_eq_true]
  refine forall₂_congr fun other member => ?_
  rw [Function.comp_apply, covers_subst judged (goodAll clause listed) (goodAll other member)]

/-- Contracts in other terms agree on the same, in these terms. -/
theorem agree_subst (judged : Subtyping.Agree s good known.isSubtype known'.isSubtype)
    {all : List Contract} (goodAll : ∀ contract ∈ all, ∀ ty ∈ contract.types, good ty) :
    (agree known' (all.map (Contract.subst s))).value = outcomeSubst s (agree known all).value := by
  have results : (all.map (Contract.subst s)).map Contract.result =
      (all.map Contract.result).map (Ty.subst s) := by simp [Function.comp_def, Contract.subst]
  have clauses : (all.map (Contract.subst s)).map Contract.throwing =
      (all.map Contract.throwing).map (List.map (Ty.subst s)) := by
    simp [Function.comp_def, Contract.subst]
  have goodResults : ∀ ty ∈ all.map Contract.result, good ty := by
    intro ty member
    obtain ⟨contract, listed, rfl⟩ := List.mem_map.mp member
    exact goodAll contract listed _ (List.mem_cons_self ..)
  have goodClauses : ∀ clause ∈ all.map Contract.throwing, ∀ e ∈ clause, good e := by
    intro clause member e thrown
    obtain ⟨contract, listed, rfl⟩ := List.mem_map.mp member
    exact goodAll contract listed e (List.mem_cons_of_mem _ thrown)
  simp only [agree, Inquiry.value_bind, results, clauses]
  rw [commonResult?_subst judged goodResults]
  cases (commonResult? known (all.map Contract.result)).value with
  | none => rfl
  | some result =>
    simp only [Option.map_some, Inquiry.value_bind]
    rw [firstClash?_subst judged goodClauses]
    cases (firstClash? known (all.map Contract.throwing)).value with
    | some pair => rfl
    | none =>
      simp only [Option.map_none, Inquiry.value_bind]
      rw [commonThrows?_subst judged goodClauses]
      cases (commonThrows? known (all.map Contract.throwing)).value <;> rfl

theorem checkedOnly_subst (judged : Subtyping.Agree s good known.isSubtype known'.isSubtype)
    (goodRoots : ∀ top ∈ uncheckedRoots, good top) {clause : List Ty} (goodAll : ∀ e ∈ clause, good e) :
    (checkedOnly known' (clause.map (Ty.subst s))).value =
      (checkedOnly known clause).value.map (Ty.subst s) := by
  have roots : uncheckedRoots.map (Ty.subst s) = uncheckedRoots := rfl
  induction clause with
  | nil => rfl
  | cons e rest ih =>
    have unchecked : (uncheckedRoots.any fun top => (known'.isSubtype (e.subst s) top).value) =
        uncheckedRoots.any fun top => (known.isSubtype e top).value := by
      rw [← roots, List.any_map, Bool.eq_iff_iff, List.any_eq_true, List.any_eq_true]
      refine exists_congr fun top => and_congr_right fun listed => ?_
      rw [Function.comp_apply, judged e top (goodAll e (List.mem_cons_self ..)) (goodRoots top listed)]
    simp only [List.map_cons, checkedOnly, Inquiry.value_bind, Inquiry.value_pure,
      Inquiry.value_anyM, unchecked, ih fun other later => goodAll other (List.mem_cons_of_mem _ later)]
    split <;> rfl

/-- The contracts of candidates whose alignments are given in other terms. -/
theorem contracts_subst (judged : Subtyping.Agree s good known.isSubtype known'.isSubtype)
    (goodRoots : ∀ top ∈ uncheckedRoots, good top) {base base' : Method}
    {candidates candidates' : List Inherited}
    (aligned : List.Forall₂ (fun d d' => align base' d'.method = (align base d.method).subst s ∧
      ∀ ty ∈ (align base d.method).types, good ty) candidates candidates') :
    (contracts known' base' candidates').value =
        (contracts known base candidates).value.map (Contract.subst s) ∧
      ∀ contract ∈ (contracts known base candidates).value, ∀ ty ∈ contract.types, good ty := by
  induction aligned with
  | nil => exact ⟨rfl, by simp [contracts]⟩
  | @cons d d' rest rest' first _ ih =>
    obtain ⟨same, goodTypes⟩ := first
    obtain ⟨sameRest, goodRest⟩ := ih
    have checked := checkedOnly_subst judged goodRoots fun e thrown =>
      goodTypes e (List.mem_cons_of_mem (align base d.method).result thrown)
    constructor
    · simp only [contracts, Inquiry.value_bind, Inquiry.value_pure, same, sameRest, Contract.subst,
        checked, List.map_cons]
    · intro contract member ty written
      simp only [contracts, Inquiry.value_bind, Inquiry.value_pure] at member
      rcases List.mem_cons.mp member with rfl | later
      · rcases List.mem_cons.mp written with rfl | thrown
        · exact goodTypes _ (List.mem_cons_self ..)
        · exact goodTypes ty (List.mem_cons_of_mem _ (checkedOnly_subset _ ty thrown))
      · exact goodRest contract later ty written

end Judged

section Renames

variable {names : List String} {base other : Method} {newBase newOther : List String}

/-- Where a variable of a candidate goes when it is matched with the base, before and after both
are renamed. -/
theorem matched_rename (distinctBase : base.declaredNames.Nodup) (proper : other.Proper names)
    (renamesBase : base.Renames names newBase) (renamesOther : other.Renames names newOther)
    (counts : base.typeParameters.length = other.typeParameters.length) {v : String}
    (known : v ∈ names ++ other.declaredNames) :
    (other.rename newOther).renamedTo newBase (other.renamedTo newOther v) =
      base.renamedTo newBase (other.renamedTo base.declaredNames v) := by
  by_cases own : v ∈ other.declaredNames
  · obtain ⟨i, bound, rfl⟩ := List.getElem_of_mem own
    have boundBase : i < base.declaredNames.length := by simpa [Method.declaredNames, counts] using bound
    have boundNew : i < newOther.length := by simpa [Method.declaredNames, renamesOther.counts] using bound
    have boundNewBase : i < newBase.length := by
      simpa [Method.declaredNames, renamesBase.counts] using boundBase
    have lengthOther : (other.rename newOther).typeParameters.length = other.typeParameters.length := by
      simp [Method.rename, renamesOther.counts]
    have names := Method.declaredNames_rename renamesOther.counts
    rw [Method.renamedTo_getElem proper.distinct renamesOther.counts bound boundNew,
      Method.renamedTo_getElem proper.distinct (by simp [Method.declaredNames, counts]) bound boundBase,
      Method.renamedTo_getElem distinctBase renamesBase.counts boundBase boundNewBase]
    refine Method.renamedTo_of_mem ?_ ?_ ?_
    · rw [names]
      exact renamesOther.distinct
    · rw [lengthOther, renamesBase.counts, counts]
    · rw [names]
      exact Method.getElem_mem_zip boundNew boundNewBase
  · have outer : v ∈ names := (List.mem_append.mp known).resolve_right own
    have unnamed : v ∉ (other.rename newOther).declaredNames := by
      rw [Method.declaredNames_rename renamesOther.counts]
      exact renamesOther.uncaptured v outer own
    rw [Method.renamedTo_of_not_mem own, Method.renamedTo_of_not_mem unnamed,
      Method.renamedTo_of_not_mem own, renamesBase.fixed v outer]

/-- Alignment goes through renaming, if a candidate without counterparts does not mention its own
parameters. -/
theorem align_rename (distinctBase : base.declaredNames.Nodup) (proper : other.Proper names)
    (renamesBase : base.Renames names newBase) (renamesOther : other.Renames names newOther)
    (matched : base.typeParameters.length ≠ other.typeParameters.length →
      ∀ ty ∈ (contractOf other).types, ∀ v ∈ ty.vars, v ∉ other.declaredNames) :
    align (base.rename newBase) (other.rename newOther) =
      (align base other).subst (base.newVariables newBase) := by
  have lengthBase : (base.rename newBase).typeParameters.length = base.typeParameters.length := by
    simp [Method.rename, renamesBase.counts]
  have lengthOther : (other.rename newOther).typeParameters.length = other.typeParameters.length := by
    simp [Method.rename, renamesOther.counts]
  have renamed : contractOf (other.rename newOther) =
      (contractOf other).subst (other.newVariables newOther) := rfl
  have congr {c : Contract} {s t s' t' : Substitution}
      (same : ∀ ty ∈ c.types, (ty.subst s).subst t = (ty.subst s').subst t') :
      (c.subst s).subst t = (c.subst s').subst t' := by
    simp only [Contract.subst, Contract.mk.injEq, List.map_map]
    exact ⟨same _ (List.mem_cons_self ..),
      List.map_congr_left fun e thrown => same e (List.mem_cons_of_mem _ thrown)⟩
  have verbatim (counts : base.typeParameters.length ≠ other.typeParameters.length) :
      ∀ ty ∈ (contractOf other).types,
        ty.subst (other.newVariables newOther) = ty.subst (base.newVariables newBase) := by
    refine fun ty member => Ty.subst_congr fun v occurs => ?_
    have own := matched counts ty member v occurs
    have known := (proper.types ty (mem_types_of_contract member)).declared v occurs
    have outer : v ∈ names := (List.mem_append.mp known).resolve_right own
    rw [Method.newVariables_apply, Method.newVariables_apply, renamesBase.fixed v outer,
      renamesOther.fixed v outer]
  by_cases counts : base.typeParameters.length = other.typeParameters.length
  · rw [align_of_eq counts, align_of_eq (by omega), renamed, Method.declaredNames_rename renamesBase.counts]
    refine congr fun ty member => Ty.subst_subst_congr fun v occurs => ?_
    have known := (proper.types ty (mem_types_of_contract member)).declared v occurs
    simp only [Method.newVariables_apply, Ty.subst]
    rw [matched_rename distinctBase proper renamesBase renamesOther counts known]
  · rw [align_of_ne counts, align_of_ne (by omega), renamed]
    refine congrArg₂ Contract.mk ?_ (List.map_congr_left fun e thrown => ?_)
    · exact verbatim counts _ (List.mem_cons_self ..)
    · exact verbatim counts e (List.mem_cons_of_mem _ thrown)

end Renames

end Collect

end JavaStubs
