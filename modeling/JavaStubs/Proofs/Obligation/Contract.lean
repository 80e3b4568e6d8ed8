import JavaStubs.Proofs.Obligation.Agreement
import JavaStubs.Proofs.Obligation.Candidates

namespace JavaStubs

namespace Knowledge

variable {known : Knowledge}

/-- `sub` is judged to be a subtype of `sup`. -/
def Below (known : Knowledge) (sub sup : Ty) : Prop := (known.isSubtype sub sup).value = true

/-- Every exception of `narrow` is a subtype of one in `wide`. -/
def Covers (known : Knowledge) (narrow wide : List Ty) : Prop :=
  ∀ e ∈ narrow, ∃ w ∈ wide, known.Below e w

/-- An exception that has to be declared. -/
def Checked (known : Knowledge) (e : Ty) : Prop :=
  ∀ top ∈ Collect.uncheckedRoots, ¬ known.Below e top

instance (known : Knowledge) (sub sup : Ty) : Decidable (known.Below sub sup) :=
  inferInstanceAs (Decidable (_ = true))

instance (known : Knowledge) (e : Ty) : Decidable (known.Checked e) :=
  inferInstanceAs (Decidable (∀ top ∈ _, ¬ known.Below e top))

theorem Below.refl (known : Knowledge) (ty : Ty) : known.Below ty ty := by
  simp [Below, isSubtype, Subtyping.depthLimit, Subtyping.check]

theorem Covers.refl (known : Knowledge) (clause : List Ty) : known.Covers clause clause :=
  fun e member => ⟨e, member, Below.refl known e⟩

end Knowledge

namespace Collect

variable {known : Knowledge}

/-- What candidates agree on: a result and a throws clause of theirs that suit all of them. -/
structure Agreed (known : Knowledge) (all : List Contract) (contract : Contract) : Prop where
  result : ∃ c ∈ all, contract.result = c.result
  narrow : ∀ c ∈ all, known.Below contract.result c.result
  throwing : ∃ c ∈ all, contract.throwing = c.throwing
  covered : ∀ c ∈ all, known.Covers contract.throwing c.throwing
  comparable : ∀ c ∈ all, ∀ other ∈ all,
    known.Covers c.throwing other.throwing ∨ known.Covers other.throwing c.throwing

/-- What candidates cannot agree on. -/
inductive Defect (known : Knowledge) (all : List Contract) : ConflictReason → Prop
  | results (none : ∀ c ∈ all, ∃ other ∈ all, ¬ known.Below c.result other.result) :
    Defect known all (.results (all.map Contract.result))
  | throwsClauses (c other : Contract) (listed : c ∈ all) (listedOther : other ∈ all)
    (uncovered : ¬ known.Covers c.throwing other.throwing)
    (uncoveredOther : ¬ known.Covers other.throwing c.throwing) :
    Defect known all (.throwsClauses c.throwing other.throwing)
  | noCommonThrows
    (none : ∀ c ∈ all, ∃ other ∈ all, ¬ known.Covers c.throwing other.throwing) :
    Defect known all .noCommonThrows

theorem Agreed.not_defect {all : List Contract} {contract : Contract}
    (agreed : Agreed known all contract) (reason : ConflictReason) : ¬ Defect known all reason := by
  rintro (none | ⟨c, other, listed, listedOther, uncovered, uncoveredOther⟩ | none)
  · obtain ⟨c, listed, same⟩ := agreed.result
    obtain ⟨other, listedOther, fails⟩ := none c listed
    exact fails (same ▸ agreed.narrow other listedOther)
  · exact (agreed.comparable c listed other listedOther).elim uncovered uncoveredOther
  · obtain ⟨c, listed, same⟩ := agreed.throwing
    obtain ⟨other, listedOther, fails⟩ := none c listed
    exact fails (same ▸ agreed.covered other listedOther)

theorem covers_value {narrow wide : List Ty} :
    (covers known narrow wide).value = true ↔ known.Covers narrow wide := by
  simp [covers, Knowledge.Covers, Knowledge.Below]

theorem clash_value {left right : List Ty} : (clash known left right).value = true ↔
    ¬ known.Covers left right ∧ ¬ known.Covers right left := by
  rw [← covers_value, ← covers_value]
  simp only [clash, Inquiry.value_bind]
  split
  · rename_i covered
    simp [covered]
  · rename_i uncovered
    simp [uncovered]

theorem firstClash?_none {clauses : List (List Ty)}
    (none : (firstClash? known clauses).value = none) :
    clauses.Pairwise fun left right => known.Covers left right ∨ known.Covers right left := by
  induction clauses with
  | nil => exact List.Pairwise.nil
  | cons left rest ih =>
    simp only [firstClash?, Inquiry.value_bind, Inquiry.value_findM?] at none
    split at none
    · cases none
    · rename_i harmless
      refine List.pairwise_cons.mpr ⟨fun right listed => ?_, ih none⟩
      have fits := List.find?_eq_none.mp harmless right listed
      rw [clash_value] at fits
      tauto

/-- Only earlier clauses are compared with later ones, but each covers itself. -/
theorem comparable_of_firstClash?_none {clauses : List (List Ty)}
    (none : (firstClash? known clauses).value = none) :
    ∀ left ∈ clauses, ∀ right ∈ clauses, known.Covers left right ∨ known.Covers right left := by
  have ordered := firstClash?_none none
  intro left listed right listedRight
  refine ordered.forall_of_forall_of_flip (fun clause _ => ?_) (ordered.imp Or.symm) listed listedRight
  exact Or.inl (Knowledge.Covers.refl known clause)

theorem firstClash?_some {clauses : List (List Ty)} {left right : List Ty}
    (found : (firstClash? known clauses).value = some (left, right)) :
    left ∈ clauses ∧ right ∈ clauses ∧ ¬ known.Covers left right ∧ ¬ known.Covers right left := by
  induction clauses with
  | nil => simp [firstClash?] at found
  | cons first rest ih =>
    simp only [firstClash?, Inquiry.value_bind, Inquiry.value_findM?] at found
    split at found
    · rename_i clashing search
      simp only [Inquiry.value_pure, Option.some.injEq, Prod.mk.injEq] at found
      obtain ⟨rfl, rfl⟩ := found
      have apart : (clash known first clashing).value = true := by simpa using List.find?_some search
      exact ⟨List.mem_cons_self .., List.mem_cons_of_mem _ (List.mem_of_find?_eq_some search),
        clash_value.mp apart⟩
    · obtain ⟨inLeft, inRight, apart⟩ := ih found
      exact ⟨List.mem_cons_of_mem _ inLeft, List.mem_cons_of_mem _ inRight, apart⟩

/-- A search for a result that suits all. -/
theorem commonResult?_some {results : List Ty} {result : Ty}
    (found : (commonResult? known results).value = some result) :
    result ∈ results ∧ ∀ other ∈ results, known.Below result other := by
  simp only [commonResult?, Inquiry.value_findM?, Inquiry.value_allM] at found
  refine ⟨List.mem_of_find?_eq_some found, ?_⟩
  simpa [Knowledge.Below] using List.find?_some found

theorem commonResult?_none {results : List Ty} (none : (commonResult? known results).value = none) :
    ∀ result ∈ results, ∃ other ∈ results, ¬ known.Below result other := by
  simp only [commonResult?, Inquiry.value_findM?, Inquiry.value_allM, List.find?_eq_none] at none
  intro result listed
  simpa [Knowledge.Below] using none result listed

/-- A search for a throws clause that all cover. -/
theorem commonThrows?_some {clauses : List (List Ty)} {clause : List Ty}
    (found : (commonThrows? known clauses).value = some clause) :
    clause ∈ clauses ∧ ∀ other ∈ clauses, known.Covers clause other := by
  simp only [commonThrows?, Inquiry.value_findM?, Inquiry.value_allM] at found
  refine ⟨List.mem_of_find?_eq_some found, ?_⟩
  simpa [covers_value] using List.find?_some found

theorem commonThrows?_none {clauses : List (List Ty)}
    (none : (commonThrows? known clauses).value = none) :
    ∀ clause ∈ clauses, ∃ other ∈ clauses, ¬ known.Covers clause other := by
  simp only [commonThrows?, Inquiry.value_findM?, Inquiry.value_allM, List.find?_eq_none] at none
  intro clause listed
  simpa [← covers_value] using none clause listed

/-- Either there is an agreement or the reported reason is a defect. -/
theorem agree_spec (all : List Contract) :
    (∃ contract, (agree known all).value = .ok contract ∧ Agreed known all contract) ∨
      ∃ reason, (agree known all).value = .error reason ∧ Defect known all reason := by
  simp only [agree, Inquiry.value_bind]
  cases result : (commonResult? known (all.map Contract.result)).value with
  | none =>
    refine Or.inr ⟨_, rfl, .results fun c listed => ?_⟩
    simpa using commonResult?_none result c.result (List.mem_map_of_mem listed)
  | some result' =>
    simp only [Inquiry.value_bind]
    cases clash : (firstClash? known (all.map Contract.throwing)).value with
    | some pair =>
      obtain ⟨inLeft, inRight, uncovered, uncoveredOther⟩ := firstClash?_some clash
      obtain ⟨c, listed, sameLeft⟩ := List.mem_map.mp inLeft
      obtain ⟨other, listedOther, sameRight⟩ := List.mem_map.mp inRight
      refine Or.inr ⟨_, rfl, ?_⟩
      rw [← sameLeft, ← sameRight] at uncovered uncoveredOther ⊢
      exact .throwsClauses c other listed listedOther uncovered uncoveredOther
    | none =>
      simp only [Inquiry.value_bind]
      cases common : (commonThrows? known (all.map Contract.throwing)).value with
      | none =>
        refine Or.inr ⟨_, rfl, .noCommonThrows fun c listed => ?_⟩
        simpa using commonThrows?_none common c.throwing (List.mem_map_of_mem listed)
      | some clause =>
        obtain ⟨inResults, narrow⟩ := commonResult?_some result
        obtain ⟨inClauses, covered⟩ := commonThrows?_some common
        obtain ⟨c, listed, sameResult⟩ := List.mem_map.mp inResults
        obtain ⟨other, listedOther, sameClause⟩ := List.mem_map.mp inClauses
        have ordered := comparable_of_firstClash?_none clash
        refine Or.inl ⟨_, rfl, ⟨c, listed, sameResult.symm⟩, fun c listed => ?_,
          ⟨other, listedOther, sameClause.symm⟩, fun c listed => ?_, fun c listed other listedOther => ?_⟩
        · exact narrow _ (List.mem_map_of_mem listed)
        · exact covered _ (List.mem_map_of_mem listed)
        · exact ordered _ (List.mem_map_of_mem listed) _ (List.mem_map_of_mem listedOther)

theorem checkedOnly_value (clause : List Ty) :
    (checkedOnly known clause).value = clause.filter fun e => known.Checked e := by
  induction clause with
  | nil => rfl
  | cons e rest ih =>
    simp only [checkedOnly, Inquiry.value_bind, Inquiry.value_pure, Inquiry.value_anyM, ih,
      List.filter_cons]
    by_cases checked : known.Checked e
    · have declared : (uncheckedRoots.any fun top => (known.isSubtype e top).value) = false := by
        simpa [Knowledge.Checked, Knowledge.Below] using checked
      simp [checked, declared]
    · have undeclared : (uncheckedRoots.any fun top => (known.isSubtype e top).value) = true := by
        simpa [Knowledge.Checked, Knowledge.Below] using checked
      simp [checked, undeclared]

/-- A declaration's contract in the terms of another, with unchecked exceptions dropped. -/
def contractIn (known : Knowledge) (base other : Method) : Contract where
  result := (align base other).result
  throwing := (align base other).throwing.filter fun e => known.Checked e

theorem contracts_value {base : Method} (candidates : List Inherited) :
    (contracts known base candidates).value =
      candidates.map fun d => contractIn known base d.method := by
  induction candidates with
  | nil => rfl
  | cons d rest ih =>
    simp only [contracts, Inquiry.value_bind, Inquiry.value_pure, checkedOnly_value, ih,
      List.map_cons]
    rfl

/-- The widest access is that of a candidate. -/
theorem foldl_wider (others : List Inherited) (first : Access) :
    let widest := others.foldl (fun access d => access.wider d.method.access) first
    (widest = first ∨ ∃ d ∈ others, widest = d.method.access) ∧
      first.rank ≤ widest.rank ∧ ∀ d ∈ others, d.method.access.rank ≤ widest.rank := by
  induction others generalizing first with
  | nil => simp
  | cons d others ih =>
    obtain ⟨origin, aboveFirst, aboveOthers⟩ := ih (first.wider d.method.access)
    have aboveBoth : first.rank ≤ (first.wider d.method.access).rank ∧
        d.method.access.rank ≤ (first.wider d.method.access).rank := by
      unfold Access.wider
      split <;> omega
    have oneOf : first.wider d.method.access = first ∨
        first.wider d.method.access = d.method.access := by
      unfold Access.wider
      split <;> simp
    refine ⟨?_, aboveBoth.1.trans aboveFirst, ?_⟩
    · rcases origin with same | ⟨other, listed, same⟩
      · rcases oneOf with isFirst | isOther
        · exact Or.inl (same.trans isFirst)
        · exact Or.inr ⟨d, List.mem_cons_self .., same.trans isOther⟩
      · exact Or.inr ⟨other, List.mem_cons_of_mem _ listed, same⟩
    · intro other listed
      rcases List.mem_cons.mp listed with rfl | later
      · exact aboveBoth.2.trans aboveFirst
      · exact aboveOthers other later

end Collect

namespace TypeModel

/-- A key that is left to implement and its candidates; the first one stands for all. -/
structure Open (root : TypeModel) (key : SignatureKey) (base : Site) (others : List Site) : Prop where
  owed : root.Owes key
  candidates : root.Candidates key (base :: others)

variable (lookup : QualName → Option TypeModel) (root : TypeModel) (base : Site)

/-- What is known where the first candidate stands. -/
def knowledgeAt : Knowledge := Collect.knowledgeFor lookup root base.inherited.method

/-- What candidates ask of an implementation, in the terms of the first. -/
def demands (others : List Site) : List Collect.Contract :=
  (base :: others).map fun s =>
    Collect.contractIn (root.knowledgeAt lookup base) base.inherited.method s.inherited.method

/-- The abstract candidates without access modifier are declared in the package of the root. -/
def MayOverride (sites : List Site) : Prop :=
  ∀ s ∈ sites, s.method.isAbstract = true → s.method.access = .packageAccess →
    s.method.owner.package = root.name.package

end TypeModel

/-- An implementation that suits all candidates, with their widest access. -/
structure MethodObligation.Fulfils (lookup : QualName → Option TypeModel) (root : TypeModel)
    (base : Site) (others : List Site) (o : MethodObligation) : Prop where
  signature : o.method = base.inherited.method
  agreed : Collect.Agreed (root.knowledgeAt lookup base) (root.demands lookup base others)
    ⟨o.result, o.throwing⟩
  access : ∃ s ∈ base :: others, o.access = s.method.access
  widest : ∀ s ∈ base :: others, s.method.access.rank ≤ o.access.rank

namespace Collect

variable {lookup : QualName → Option TypeModel} {root : TypeModel}

theorem invisible?_eq_none {sites : List Site} :
    invisible? root (sites.map Site.inherited) = none ↔ root.MayOverride sites := by
  have fields (s : Site) : s.inherited.method.isAbstract = s.method.isAbstract ∧
      s.inherited.method.access = s.method.access ∧
      s.inherited.method.owner = s.method.owner := ⟨rfl, rfl, rfl⟩
  simp [invisible?, TypeModel.MayOverride, fields]

theorem demands_eq (base : Site) (others : List Site) : root.demands lookup base others =
    (contracts (root.knowledgeAt lookup base) base.inherited.method
      (base.inherited :: others.map Site.inherited)).value := by
  rw [contracts_value]
  simp [TypeModel.demands]

theorem obligationOf_fulfils {base : Site} {others : List Site} {contract : Contract}
    (agreed : Agreed (root.knowledgeAt lookup base) (root.demands lookup base others) contract) :
    (obligationOf base.inherited (others.map Site.inherited) contract).Fulfils lookup root base
      others := by
  obtain ⟨origin, aboveBase, aboveOthers⟩ :=
    foldl_wider (others.map Site.inherited) base.inherited.method.access
  refine ⟨rfl, agreed, ?_, fun s listed => ?_⟩
  · rcases origin with same | ⟨d, listed, same⟩
    · exact ⟨base, List.mem_cons_self .., same⟩
    · obtain ⟨s, inside, rfl⟩ := List.mem_map.mp listed
      exact ⟨s, List.mem_cons_of_mem _ inside, same⟩
  · rcases List.mem_cons.mp listed with rfl | inside
    · exact aboveBase
    · exact aboveOthers _ (List.mem_map_of_mem inside)

variable (lookup) in
/-- An open key is refused, in conflict or fulfilled. -/
theorem resolve_open (linked : root.Linked) {group : MethodGroup}
    (member : group ∈ MethodGroup.ofRoot root) {base : Site} {others : List Site}
    (isOpen : root.Open group.key base others) :
    (¬ root.MayOverride (base :: others) ∧
        ∃ refusal, (resolve lookup root group).value = .error (.refused refusal)) ∨
      root.MayOverride (base :: others) ∧
        ((∃ reason, (resolve lookup root group).value = .error (.conflict group.key reason) ∧
            Defect (root.knowledgeAt lookup base) (root.demands lookup base others) reason) ∨
          ∃ o, (resolve lookup root group).value = .ok (some o) ∧
            o.Fulfils lookup root base others) := by
  have left := (MethodGroup.unsatisfied_ne_nil_iff linked member).mpr isOpen.owed
  obtain ⟨sites, unsatisfied, candidates⟩ := MethodGroup.exists_candidates linked member left
  obtain rfl := candidates.unique isOpen.candidates
  rw [resolve_value_cons unsatisfied]
  rw [← List.map_cons]
  cases hidden : invisible? root ((base :: others).map Site.inherited) with
  | some refusal =>
    refine Or.inl ⟨fun allowed => ?_, refusal, rfl⟩
    rw [invisible?_eq_none.mpr allowed] at hidden
    cases hidden
  | none =>
    refine Or.inr ⟨invisible?_eq_none.mp hidden, ?_⟩
    have outcome := @agree_spec (root.knowledgeAt lookup base) (root.demands lookup base others)
    rw [demands_eq] at outcome
    rcases outcome with ⟨contract, agrees, agreed⟩ | ⟨reason, disagrees, defect⟩
    · have same : agreement lookup root base.inherited (others.map Site.inherited) = .ok contract :=
        agrees
      rw [← demands_eq] at agreed
      exact Or.inr ⟨_, by rw [same], obligationOf_fulfils agreed⟩
    · have same : agreement lookup root base.inherited (others.map Site.inherited) = .error reason :=
        disagrees
      rw [← demands_eq] at defect
      exact Or.inl ⟨reason, by rw [same], defect⟩

theorem resolveAll_error {groups : List MethodGroup} {error : ObligationError}
    (failed : (resolveAll lookup root groups).value = .error error) :
    ∃ group ∈ groups, (resolve lookup root group).value = .error error := by
  induction groups with
  | nil => simp [resolveAll] at failed
  | cons group groups ih =>
    simp only [resolveAll, Inquiry.value_bind] at failed
    split at failed
    · rename_i first
      simp only [Inquiry.value_pure, Except.error.injEq] at failed
      exact ⟨group, List.mem_cons_self .., failed ▸ first⟩
    · simp only [Inquiry.value_bind] at failed
      split at failed
      · rename_i rest
        simp only [Inquiry.value_pure, Except.error.injEq] at failed
        obtain ⟨other, listed, fails⟩ := ih (failed ▸ rest)
        exact ⟨other, List.mem_cons_of_mem _ listed, fails⟩
      · cases failed

/-- Collecting succeeds if nothing else is in the way and no group fails. -/
theorem exists_obligations_iff : (∃ obs, (obligations lookup root).value = .ok obs) ↔
    root.refusal? = none ∧ (∃ constructors, root.constructorObligations = .ok constructors) ∧
      ∀ group ∈ MethodGroup.ofRoot root,
        ∃ found, (resolve lookup root group).value = .ok found := by
  constructor
  · rintro ⟨obs, collected⟩
    obtain ⟨accepted, constructors, entries, forwarded, resolved, _⟩ := obligations_value.mp collected
    exact ⟨accepted, ⟨constructors, forwarded⟩, fun group member =>
      ⟨_, (resolveAll_value.mp resolved).1 group member⟩⟩
  · rintro ⟨accepted, ⟨constructors, forwarded⟩, settled⟩
    refine ⟨_, obligations_value.mpr ⟨accepted, constructors, _, forwarded, resolveAll_value.mpr
      ⟨fun group member => ?_, rfl⟩, rfl⟩⟩
    obtain ⟨found, resolved⟩ := settled group member
    simp [owed, resolved]

/-- Every key that is owed is open. -/
theorem exists_open (linked : root.Linked) {key : SignatureKey} (owes : root.Owes key) :
    ∃ base others, root.Open key base others := by
  obtain ⟨group, member, rfl⟩ := MethodGroup.exists_group linked owes
  have left := (MethodGroup.unsatisfied_ne_nil_iff linked member).mpr owes
  obtain ⟨sites, unsatisfied, candidates⟩ := MethodGroup.exists_candidates linked member left
  cases sites with
  | nil => exact absurd unsatisfied left
  | cons base others => exact ⟨base, others, owes, candidates⟩

/-- An entry suits the candidates of its key. -/
theorem entry_fulfils (linked : root.Linked) {entry : SignatureKey × MethodObligation}
    (member : entry ∈ entriesOf lookup root (MethodGroup.ofRoot root)) {base : Site}
    {others : List Site} (isOpen : root.Open entry.1 base others) :
    entry.2.Fulfils lookup root base others := by
  obtain ⟨group, inside, sameKey, owes⟩ := mem_entriesOf.mp member
  have resolved := owed_eq_some.mp owes
  rw [← sameKey] at isOpen
  rcases resolve_open lookup linked inside isOpen with
    ⟨_, _, refused⟩ | ⟨_, ⟨_, conflict, _⟩ | ⟨o, fulfilled, fulfils⟩⟩
  · simp [refused] at resolved
  · simp [conflict] at resolved
  · rw [fulfilled] at resolved
    cases resolved
    exact fulfils

/-- No group fails if the candidates of every open key may be overridden and have no defect. -/
theorem settled_iff (linked : root.Linked) :
    (∀ group ∈ MethodGroup.ofRoot root, ∃ found, (resolve lookup root group).value = .ok found) ↔
      ∀ key base others, root.Open key base others → root.MayOverride (base :: others) ∧
        ∀ reason, ¬ Defect (root.knowledgeAt lookup base) (root.demands lookup base others)
          reason := by
  constructor
  · intro settled key base others isOpen
    obtain ⟨group, member, rfl⟩ := MethodGroup.exists_group linked isOpen.owed
    obtain ⟨found, resolved⟩ := settled group member
    rcases resolve_open lookup linked member isOpen with
      ⟨_, _, refused⟩ | ⟨allowed, ⟨_, conflict, _⟩ | ⟨o, _, fulfils⟩⟩
    · simp [refused] at resolved
    · simp [conflict] at resolved
    · exact ⟨allowed, fulfils.agreed.not_defect⟩
  · intro harmless group member
    by_cases left : group.unsatisfied = []
    · exact ⟨none, resolve_value_nil left⟩
    · have owes := (MethodGroup.unsatisfied_ne_nil_iff linked member).mp left
      obtain ⟨base, others, isOpen⟩ := exists_open linked owes
      obtain ⟨allowed, flawless⟩ := harmless group.key base others isOpen
      rcases resolve_open lookup linked member isOpen with
        ⟨denied, _⟩ | ⟨_, ⟨reason, _, defect⟩ | ⟨o, resolved, _⟩⟩
      · exact absurd allowed denied
      · exact absurd defect (flawless reason)
      · exact ⟨some o, resolved⟩

end Collect

namespace Narrowing

def wide : Method :=
  { name := "f", owner := ⟨"A"⟩, result := .object, isAbstract := true
    throwing := [.cls ⟨"E"⟩ [], .cls ⟨"java.lang.Error"⟩ []] }

def narrow : Method :=
  { name := "f", owner := ⟨"B"⟩, result := .cls ⟨"java.lang.String"⟩ [], isAbstract := true }

def types : DescriptorIndex where
  descriptors := [
    { name := ⟨"A"⟩, kind := .interface, methods := [wide] },
    { name := ⟨"B"⟩, kind := .interface, methods := [narrow] },
    { name := ⟨"R"⟩, kind := .interface, interfaces := [⟨⟨"A"⟩, []⟩, ⟨⟨"B"⟩, []⟩] }]
  distinct := by decide

def resolver : Resolver := { sources := [.inMemory "narrowing" types] }

def bottom : TypeModel where
  name := ⟨"R"⟩
  kind := .interface
  interfaces := [
    ⟨⟨⟨"A"⟩, []⟩, { name := ⟨"A"⟩, kind := .interface, methods := [wide] }⟩,
    ⟨⟨⟨"B"⟩, []⟩, { name := ⟨"B"⟩, kind := .interface, methods := [narrow] }⟩]

/-- `String f()`, in the place of `Object f()`. -/
def obligation : MethodObligation where
  method := wide
  result := .cls ⟨"java.lang.String"⟩ []
  throwing := []
  access := .publicAccess
  depth := 1

theorem used : resolver.Used := .new _ (by simpa using .inMemory _ types (by decide +kernel))

theorem resolved : (resolver.resolve {} ⟨"R"⟩).1 = .ok bottom := rfl

theorem collected : (obligations (resolver.lookup {}) bottom).value = .ok [.method obligation] := by
  decide +kernel

end Narrowing

end JavaStubs
