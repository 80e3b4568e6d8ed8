import JavaStubs.Proofs.Obligation.Contract
import JavaStubs.Proofs.Subtyping.Ascent

namespace JavaStubs

namespace QualName

variable {lookup : QualName → Option TypeModel} {links further : Nat} {name middle goal : QualName}

theorem Leads.trans (first : Leads lookup links name middle) (second : Leads lookup further middle goal) :
    Leads lookup (links + further) name goal := by
  induction first with
  | refl _ => rwa [Nat.zero_add]
  | @step links _ _ _ _ known member _ ih =>
    rw [Nat.succ_add]
    exact .step known member (ih second)

/-- Where types have a rank above that of their supertypes, no way up is longer than the rank. -/
theorem Leads.le_rank {rank : QualName → Nat}
    (descends : ∀ name model, lookup name = some model → ∀ link ∈ model.supertypes,
      rank link.reference.name < rank name)
    (leads : Leads lookup links name goal) : links ≤ rank name := by
  induction leads with
  | refl _ => exact Nat.zero_le _
  | step known member _ ih =>
    have lower := descends _ _ known _ member
    omega

end QualName

/-- Nothing is above `java.lang.Object`, and a search follows every way up to its end. -/
structure Shallow (lookup : QualName → Option TypeModel) : Prop where
  top : ∀ model, lookup .object = some model → model.supertypes = []
  limit : ∀ links name goal, QualName.Leads lookup links name goal → links ≤ 63

/-- A class type without type arguments. -/
def Ty.IsPlain (ty : Ty) : Prop := ∃ name, ty = .cls name []

theorem Ty.IsPlain.subst {ty : Ty} (plain : ty.IsPlain) (s : Substitution) : ty.subst s = ty := by
  obtain ⟨name, rfl⟩ := plain
  rfl

theorem Shallow.nothing_above {lookup : QualName → Option TypeModel} (shallow : Shallow lookup)
    {links : Nat} {goal : QualName} (leads : QualName.Leads lookup links .object goal) :
    goal = .object := by
  cases leads with
  | refl _ => rfl
  | step known member _ =>
    rw [shallow.top _ known] at member
    cases member

namespace Knowledge

variable {known : Knowledge}

instance (known : Knowledge) (narrow wide : List Ty) : Decidable (known.Covers narrow wide) :=
  inferInstanceAs (Decidable (∀ e ∈ narrow, ∃ w ∈ wide, known.Below e w))

/-- Plain class types are compared by the links between their names. -/
theorem below_plain_iff {sub sup : QualName} : known.Below (.cls sub []) (.cls sup []) ↔
    sup = .object ∨ ∃ links ≤ 63, QualName.Leads known.lookup links sub sup := by
  have search := @Subtyping.checkClass_iff known ⟨sup, []⟩ (by simp) 64 ⟨sub, []⟩
  have compare := @Subtyping.check_classes known ⟨sup, []⟩ 64 ⟨sub, []⟩
  simp only [Nat.lt_succ_iff] at search
  refine compare.trans ⟨?_, ?_⟩
  · rintro (same | object | found)
    · cases same
      exact .inr ⟨0, Nat.zero_le _, .refl _⟩
    · exact .inl (congrArg ClassRef.name object)
    · obtain ⟨links, within, top, way, _⟩ := search.mp found
      exact .inr ⟨links, within, way.leads⟩
  · rintro (rfl | ⟨links, within, leads⟩)
    · exact .inr (.inl rfl)
    · obtain ⟨fewer, less, top, way⟩ := ClassRef.exists_ascends leads ⟨sub, []⟩ rfl
      exact .inr (.inr (search.mpr ⟨fewer, less.trans within, top, way, .inr (.inl rfl)⟩))

theorem Below.trans_plain (shallow : Shallow known.lookup) {a b c : Ty} (plainA : a.IsPlain)
    (plainB : b.IsPlain) (plainC : c.IsPlain) (first : known.Below a b) (second : known.Below b c) :
    known.Below a c := by
  obtain ⟨a, rfl⟩ := plainA
  obtain ⟨b, rfl⟩ := plainB
  obtain ⟨c, rfl⟩ := plainC
  rw [below_plain_iff] at first second ⊢
  rcases second with top | ⟨further, _, later⟩
  · exact .inl top
  · rcases first with rfl | ⟨links, _, leads⟩
    · exact .inl (shallow.nothing_above later)
    · have whole := leads.trans later
      exact .inr ⟨links + further, shallow.limit _ _ _ whole, whole⟩

theorem Covers.trans_plain (shallow : Shallow known.lookup) {a b c : List Ty}
    (plainA : ∀ e ∈ a, e.IsPlain) (plainB : ∀ e ∈ b, e.IsPlain) (plainC : ∀ e ∈ c, e.IsPlain)
    (first : known.Covers a b) (second : known.Covers b c) : known.Covers a c := by
  intro e thrown
  obtain ⟨middle, listed, below⟩ := first e thrown
  obtain ⟨w, wide, above⟩ := second middle listed
  exact ⟨w, wide, below.trans_plain shallow (plainA e thrown) (plainB middle listed) (plainC w wide) above⟩

/-- Of plain clauses that can be compared two by two, one is covered by all. -/
theorem exists_narrowest (shallow : Shallow known.lookup) {first : List Ty} {others : List (List Ty)}
    (plain : ∀ clause ∈ first :: others, ∀ e ∈ clause, e.IsPlain)
    (comparable : ∀ left ∈ first :: others, ∀ right ∈ first :: others,
      known.Covers left right ∨ known.Covers right left) :
    ∃ narrowest ∈ first :: others, ∀ clause ∈ first :: others, known.Covers narrowest clause := by
  induction others generalizing first with
  | nil => exact ⟨first, List.mem_cons_self .., by simpa using Covers.refl known first⟩
  | cons second others ih =>
    obtain ⟨narrowest, listed, covered⟩ := ih
      (fun clause member => plain clause (List.mem_cons_of_mem _ member))
      (fun left inLeft right inRight => comparable left (List.mem_cons_of_mem _ inLeft) right
        (List.mem_cons_of_mem _ inRight))
    have known' := List.mem_cons_of_mem first listed
    -- Whichever of the two covers the other, the narrower one is covered by all.
    rcases comparable first (List.mem_cons_self ..) narrowest known' with narrower | wider
    · refine ⟨first, List.mem_cons_self .., fun clause member => ?_⟩
      rcases List.mem_cons.mp member with rfl | later
      · exact Covers.refl known clause
      · exact narrower.trans_plain shallow (plain first (List.mem_cons_self ..)) (plain narrowest known')
          (plain clause member) (covered clause later)
    · refine ⟨narrowest, known', fun clause member => ?_⟩
      rcases List.mem_cons.mp member with rfl | later
      · exact wider
      · exact covered clause later

end Knowledge

namespace Collect

variable {known : Knowledge} {base other : Method}

/-- Plain exceptions are the same in every candidate's terms. -/
theorem align_throwing (plain : ∀ e ∈ other.throwing, e.IsPlain) :
    (align base other).throwing = other.throwing := by
  unfold align
  split
  · rfl
  · exact (List.map_congr_left fun e thrown => (plain e thrown).subst _).trans (List.map_id _)

/-- The last conflict is reported only of clauses that can be compared and have no narrowest one. -/
theorem agree_noCommonThrows {all : List Contract}
    (failed : (agree known all).value = .error .noCommonThrows) :
    (∀ left ∈ all.map Contract.throwing, ∀ right ∈ all.map Contract.throwing,
      known.Covers left right ∨ known.Covers right left) ∧
    ∀ clause ∈ all.map Contract.throwing, ∃ wider ∈ all.map Contract.throwing,
      ¬ known.Covers clause wider := by
  simp only [agree, Inquiry.value_bind] at failed
  split at failed
  · cases failed
  · simp only [Inquiry.value_bind] at failed
    split at failed
    · cases failed
    · rename_i harmless
      simp only [Inquiry.value_bind] at failed
      split at failed
      · rename_i none
        exact ⟨comparable_of_firstClash?_none harmless, commonThrows?_none none⟩
      · cases failed

/-- The checked exceptions that candidates declare, in the terms of the first. -/
def checkedClauses (known : Knowledge) (base : Inherited) (others : List Inherited) : List (List Ty) :=
  (base :: others).map fun d => (contractIn known base.method d.method).throwing

theorem checkedClauses_plain {known : Knowledge} {base : Inherited} {others : List Inherited}
    (plain : ∀ d ∈ base :: others, ∀ e ∈ d.method.throwing, e.IsPlain) :
    ∀ clause ∈ checkedClauses known base others, ∀ e ∈ clause, e.IsPlain := by
  intro clause listed e thrown
  obtain ⟨d, candidate, rfl⟩ := List.mem_map.mp listed
  have declared : e ∈ (align base.method d.method).throwing := (List.mem_filter.mp thrown).1
  rw [align_throwing (plain d candidate)] at declared
  exact plain d candidate e declared

/-- A group whose last conflict is reported has clauses that can be compared and no narrowest one. -/
theorem resolve_noCommonThrows {lookup : QualName → Option TypeModel} {root : TypeModel}
    {group : MethodGroup} {base : Inherited} {others : List Inherited} {key : SignatureKey}
    (unsatisfied : group.unsatisfied = base :: others)
    (failed : (resolve lookup root group).value = .error (.conflict key .noCommonThrows)) :
    let known := knowledgeFor lookup root base.method
    let clauses := checkedClauses known base others
    (∀ left ∈ clauses, ∀ right ∈ clauses, known.Covers left right ∨ known.Covers right left) ∧
      ∀ clause ∈ clauses, ∃ wider ∈ clauses, ¬ known.Covers clause wider := by
  rw [resolve_value_cons unsatisfied] at failed
  split at failed
  · cases failed
  · split at failed
    · rename_i reason disagrees
      cases failed
      rw [agreement, contracts_value] at disagrees
      have spec := agree_noCommonThrows disagrees
      rw [List.map_map] at spec
      exact spec
    · cases failed

end Collect

/-- Where candidates declare plain exceptions only, types stand in a shallow hierarchy, and any two of
the checked throws clauses can be compared, one clause is covered by all; so it never happens that
clauses that do not clash have no clause in common. -/
theorem plain_throws_agree {lookup : QualName → Option TypeModel} (shallow : Shallow lookup)
    (root : TypeModel) {group : MethodGroup} {base : Inherited} {others : List Inherited}
    (unsatisfied : group.unsatisfied = base :: others)
    (plain : ∀ d ∈ base :: others, ∀ e ∈ d.method.throwing, e.IsPlain) :
    let known := Collect.knowledgeFor lookup root base.method
    let clauses := Collect.checkedClauses known base others
    ((∀ left ∈ clauses, ∀ right ∈ clauses, known.Covers left right ∨ known.Covers right left) →
      ∃ narrowest ∈ clauses, ∀ clause ∈ clauses, known.Covers narrowest clause) ∧
    ∀ key, (Collect.resolve lookup root group).value ≠ .error (.conflict key .noCommonThrows) := by
  intro known clauses
  have narrowest (comparable : ∀ left ∈ clauses, ∀ right ∈ clauses,
      known.Covers left right ∨ known.Covers right left) :
      ∃ narrowest ∈ clauses, ∀ clause ∈ clauses, known.Covers narrowest clause :=
    @Knowledge.exists_narrowest known shallow _ _ (Collect.checkedClauses_plain plain) comparable
  refine ⟨narrowest, fun key failed => ?_⟩
  obtain ⟨comparable, none⟩ := Collect.resolve_noCommonThrows unsatisfied failed
  obtain ⟨clause, listed, covered⟩ := narrowest comparable
  obtain ⟨wider, listedWider, uncovered⟩ := none clause listed
  exact uncovered (covered wider listedWider)

namespace Thrown

def classBelow (superclass name : String) : TypeModel where
  name := ⟨name⟩
  kind := .concreteClass
  superclass := some ⟨⟨⟨superclass⟩, []⟩, { name := ⟨superclass⟩, kind := .concreteClass }⟩

def types : List TypeModel := [
  classBelow "java.lang.Object" "java.lang.Throwable",
  classBelow "java.lang.Throwable" "java.lang.Exception",
  classBelow "java.lang.Exception" "java.lang.RuntimeException",
  classBelow "java.lang.Exception" "java.io.IOException",
  classBelow "java.io.IOException" "E"]

def lookup (name : QualName) : Option TypeModel := types.find? (·.name = name)

def bottomUp : List QualName := (types.map TypeModel.name).reverse

def rank (name : QualName) : Nat := bottomUp.length - bottomUp.idxOf name

theorem descends (name : QualName) (model : TypeModel) (found : lookup name = some model) :
    ∀ link ∈ model.supertypes, rank link.reference.name < rank name := by
  have each : ∀ model ∈ types, ∀ link ∈ model.supertypes, rank link.reference.name < rank model.name := by
    decide +kernel
  have named : model.name = name := by simpa using List.find?_some found
  exact named ▸ each model (List.mem_of_find?_eq_some found)

theorem shallow : Shallow lookup where
  top model found := by
    have unknown : lookup .object = none := rfl
    rw [unknown] at found
    cases found
  limit links name goal leads := by
    have within : rank name ≤ 5 := Nat.sub_le ..
    have bounded := leads.le_rank descends
    omega

def declaration (type : String) (throwing : List String) : Inherited where
  method :=
    { name := "f", owner := ⟨type⟩, throwing := throwing.map fun e => .cls ⟨e⟩ [], isAbstract := true }
  declaredIn := ⟨type⟩
  ancestors := []
  depth := 1
  onChain := false

def first : Inherited := declaration "A" ["java.lang.Exception"]

def others : List Inherited := [
  declaration "B" ["E", "java.io.IOException", "E"],
  declaration "C" ["java.io.IOException", "java.lang.RuntimeException"]]

def group : MethodGroup := ⟨⟨"f", []⟩, first :: others⟩

def root : TypeModel where
  name := ⟨"R"⟩
  kind := .interface

theorem plain : ∀ d ∈ first :: others, ∀ e ∈ d.method.throwing, e.IsPlain := by
  have named (type : String) (names : List String) :
      ∀ e ∈ (declaration type names).method.throwing, e.IsPlain := by
    intro e thrown
    obtain ⟨name, _, rfl⟩ := List.mem_map.mp thrown
    exact ⟨_, rfl⟩
  simp only [first, others, List.forall_mem_cons]
  exact ⟨named _ _, named _ _, named _ _, by simp⟩

end Thrown

theorem thrown_agree : Shallow Thrown.lookup ∧ Thrown.group.unsatisfied = Thrown.first :: Thrown.others ∧
    (∀ d ∈ Thrown.first :: Thrown.others, ∀ e ∈ d.method.throwing, e.IsPlain) ∧
    (let known := Collect.knowledgeFor Thrown.lookup Thrown.root Thrown.first.method
      let clauses := Collect.checkedClauses known Thrown.first Thrown.others
      ∃ narrowest ∈ clauses, ∀ clause ∈ clauses, known.Covers narrowest clause) ∧
    ∀ key, (Collect.resolve Thrown.lookup Thrown.root Thrown.group).value ≠
      .error (.conflict key .noCommonThrows) := by
  have unsatisfied : Thrown.group.unsatisfied = Thrown.first :: Thrown.others := rfl
  obtain ⟨narrowest, never⟩ := plain_throws_agree Thrown.shallow Thrown.root unsatisfied Thrown.plain
  exact ⟨Thrown.shallow, unsatisfied, Thrown.plain, narrowest (by decide +kernel), never⟩

end JavaStubs
