import JavaStubs.Subtyping
import Mathlib.Tactic.Tauto

namespace JavaStubs

/-- What stands right above a reference: the supertypes of the type it names, with its arguments put
in for the parameters. A reference without arguments to a generic type drops all arguments. -/
inductive ClassRef.Below (lookup : QualName → Option TypeModel) (ref : ClassRef) : ClassRef → Prop
  | raw {model : TypeModel} {link : Supertype TypeModel} (known : lookup ref.name = some model)
      (member : link ∈ model.supertypes) (bare : ref.args = [])
      (generic : model.typeParameters ≠ []) : Below lookup ref ⟨link.reference.name, []⟩
  | applied {model : TypeModel} {link : Supertype TypeModel} (known : lookup ref.name = some model)
      (member : link ∈ model.supertypes) (typed : ref.args ≠ [] ∨ model.typeParameters = []) :
      Below lookup ref
        (link.reference.subst ((model.typeParameters.map TypeParameter.name).zip ref.args))

/-- A way up over a number of links that meets the name `goal` at its end and nowhere before. -/
inductive ClassRef.Ascends (lookup : QualName → Option TypeModel) (goal : QualName) :
    Nat → ClassRef → ClassRef → Prop
  | arrive {ref : ClassRef} (there : ref.name = goal) : Ascends lookup goal 0 ref ref
  | climb {links : Nat} {ref next top : ClassRef} (away : ref.name ≠ goal)
      (step : ref.Below lookup next) (rest : Ascends lookup goal links next top) :
      Ascends lookup goal (links + 1) ref top

/-- Links over which one name leads to another, whatever the arguments. -/
inductive QualName.Leads (lookup : QualName → Option TypeModel) : Nat → QualName → QualName → Prop
  | refl (name : QualName) : Leads lookup 0 name name
  | step {links : Nat} {name goal : QualName} {model : TypeModel} {link : Supertype TypeModel}
      (known : lookup name = some model) (member : link ∈ model.supertypes)
      (rest : Leads lookup links link.reference.name goal) : Leads lookup (links + 1) name goal

/-- Arguments fit if they are the wanted ones, or if either side has none. -/
def ArgumentsFit (given wanted : List Ty) : Prop :=
  given = [] ∨ wanted = [] ∨ given = wanted

namespace ClassRef

variable {lookup : QualName → Option TypeModel} {goal : QualName} {links : Nat}

theorem Below.names {ref next : ClassRef} (below : ref.Below lookup next) :
    ∃ model, lookup ref.name = some model ∧ ∃ link ∈ model.supertypes, link.reference.name = next.name := by
  cases below with
  | raw known member => exact ⟨_, known, _, member, rfl⟩
  | applied known member => exact ⟨_, known, _, member, rfl⟩

theorem exists_below (ref : ClassRef) {model : TypeModel} {link : Supertype TypeModel}
    (known : lookup ref.name = some model) (member : link ∈ model.supertypes) :
    ∃ next, ref.Below lookup next ∧ next.name = link.reference.name := by
  by_cases raw : ref.args = [] ∧ model.typeParameters ≠ []
  · exact ⟨_, .raw known member raw.1 raw.2, rfl⟩
  · exact ⟨_, .applied known member (by tauto), rfl⟩

theorem Ascends.leads {ref top : ClassRef} (way : ref.Ascends lookup goal links top) :
    QualName.Leads lookup links ref.name goal := by
  induction way with
  | arrive there => exact there ▸ .refl _
  | climb _ step _ ih =>
    obtain ⟨model, known, link, member, same⟩ := step.names
    exact .step known member (same ▸ ih)

/-- Links between names can be followed with any arguments. The way ends where the goal is met for
the first time, so it may be shorter. -/
theorem exists_ascends {name : QualName} (leads : QualName.Leads lookup links name goal) :
    ∀ ref : ClassRef, ref.name = name → ∃ fewer ≤ links, ∃ top, ref.Ascends lookup goal fewer top := by
  induction leads with
  | refl name =>
    intro ref named
    exact ⟨0, Nat.le_refl 0, ref, .arrive named⟩
  | @step _ _ goal _ _ known member _ ih =>
    rintro ref rfl
    by_cases there : ref.name = goal
    · exact ⟨0, Nat.zero_le _, ref, .arrive there⟩
    · obtain ⟨next, below, named⟩ := ref.exists_below known member
      obtain ⟨fewer, within, top, way⟩ := ih next named
      exact ⟨fewer + 1, Nat.succ_le_succ within, top, .climb there below way⟩

end ClassRef

namespace Subtyping

variable {known : Knowledge} {sup : ClassRef}

theorem substitutionFor_bare {model : TypeModel} (plain : model.typeParameters = []) (args : List Ty) :
    model.substitutionFor args = [] := by
  unfold TypeModel.substitutionFor TypeModel.rawSubstitution
  split <;> simp [plain]

theorem stepUp_eq (model : TypeModel) (ref : ClassRef) (link : Supertype TypeModel) :
    (ref.args = [] ∧ model.typeParameters ≠ [] ∧ stepUp model ref link = ⟨link.reference.name, []⟩) ∨
    ((ref.args ≠ [] ∨ model.typeParameters = []) ∧ stepUp model ref link =
      link.reference.subst ((model.typeParameters.map TypeParameter.name).zip ref.args)) := by
  by_cases bare : ref.args = []
  · by_cases plain : model.typeParameters = []
    · refine .inr ⟨.inr plain, ?_⟩
      rw [stepUp, if_neg (by simp [TypeModel.isGeneric, plain]), substitutionFor_bare plain, plain]
      rfl
    · exact .inl ⟨bare, plain, if_pos (by simp [TypeModel.isGeneric, bare, plain])⟩
  · refine .inr ⟨.inl bare, ?_⟩
    rw [stepUp, if_neg (by simp [bare]), TypeModel.substitutionFor, if_neg (by simpa using bare)]

/-- The references above are those that a search goes on to. -/
theorem below_iff {lookup : QualName → Option TypeModel} {ref next : ClassRef} {model : TypeModel}
    (found : lookup ref.name = some model) :
    ref.Below lookup next ↔ ∃ link ∈ model.supertypes, stepUp model ref link = next := by
  constructor
  · intro below
    cases below with
    | raw known member bare generic =>
      cases found.symm.trans known
      rcases stepUp_eq model ref _ with ⟨_, _, same⟩ | ⟨typed, _⟩
      · exact ⟨_, member, same⟩
      · exact absurd bare (typed.resolve_right generic)
    | applied known member typed =>
      cases found.symm.trans known
      rcases stepUp_eq model ref _ with ⟨bare, generic, _⟩ | ⟨_, same⟩
      · exact absurd typed (by simp [bare, generic])
      · exact ⟨_, member, same⟩
  · rintro ⟨link, member, rfl⟩
    rcases stepUp_eq model ref link with ⟨bare, generic, same⟩ | ⟨typed, same⟩
    · rw [same]
      exact .raw found member bare generic
    · rw [same]
      exact .applied found member typed

theorem contains_plain (judge : Ty → Ty → Inquiry Bool) {outer : Ty} (plain : outer.isWildcard = false)
    (inner : Ty) : (contains judge outer inner).value = (outer == inner) := by
  cases outer with
  | any | upper | lower => cases plain
  | _ => rfl

theorem all_zip_eq {given wanted : List Ty} (sameLength : given.length = wanted.length) :
    ((given.zip wanted).all fun pair => pair.2 == pair.1) = true ↔ given = wanted := by
  induction given generalizing wanted with
  | nil => simpa [eq_comm] using sameLength
  | cons arg given ih =>
    cases wanted with
    | nil => simp at sameLength
    | cons other wanted =>
      have rest := @ih wanted (by simpa using sameLength)
      rw [List.zip_cons_cons, List.all_cons, Bool.and_eq_true, rest, List.cons.injEq, beq_iff_eq]
      exact and_congr_left' eq_comm

theorem argumentsAgree_plain (judge : Ty → Ty → Inquiry Bool) {given wanted : List Ty}
    (plain : ∀ arg ∈ wanted, arg.isWildcard = false) :
    (argumentsAgree judge given wanted).value = true ↔ ArgumentsFit given wanted := by
  unfold argumentsAgree ArgumentsFit
  split
  · rename_i empty
    simp only [Bool.or_eq_true, List.isEmpty_iff] at empty
    exact iff_of_true rfl (by tauto)
  · rename_i filled
    simp only [Bool.or_eq_true, List.isEmpty_iff, not_or] at filled
    have only : (given = [] ∨ wanted = [] ∨ given = wanted) ↔ given = wanted := by
      simp [filled.1, filled.2]
    rw [only]
    split
    · rename_i sameLength
      rw [Inquiry.value_allM, ← all_zip_eq sameLength]
      have each : ∀ pair ∈ given.zip wanted,
          (contains judge pair.2 pair.1).value = (pair.2 == pair.1) := fun pair member =>
        contains_plain judge (plain _ (List.of_mem_zip member).2) _
      rw [List.all_eq_true, List.all_eq_true]
      exact forall₂_congr fun pair member => by rw [each pair member]
    · rename_i otherLength
      refine iff_of_false nofun fun same => otherLength (by rw [same])

/-- A search of some depth succeeds exactly if it arrives within fewer links. -/
theorem checkClass_iff (plain : ∀ arg ∈ sup.args, arg.isWildcard = false) (depth : Nat) (sub : ClassRef) :
    (checkClass known depth sub sup).value = true ↔ ∃ links < depth, ∃ top,
      sub.Ascends known.lookup sup.name links top ∧ ArgumentsFit top.args sup.args := by
  induction depth generalizing sub with
  | zero => exact iff_of_false nofun (by simp)
  | succ depth ih =>
    unfold checkClass
    split
    · rename_i there
      rw [argumentsAgree_plain _ plain]
      constructor
      · intro fit
        exact ⟨0, depth.succ_pos, sub, .arrive there, fit⟩
      · rintro ⟨links, _, top, way, fit⟩
        cases way with
        | arrive => exact fit
        | climb away => exact absurd there away
    · rename_i away
      rw [Inquiry.value_bind]
      cases found : known.lookup sub.name with
      | none =>
        simp only [Knowledge.ask, found]
        refine iff_of_false nofun ?_
        rintro ⟨links, _, top, way, _⟩
        cases way with
        | arrive there => exact away there
        | climb _ step =>
          obtain ⟨model, known, _⟩ := step.names
          cases found.symm.trans known
      | some model =>
        simp only [Knowledge.ask, found, Inquiry.value_anyM, List.any_eq_true, ih]
        constructor
        · rintro ⟨link, member, links, within, top, way, fit⟩
          have step := (below_iff found).mpr ⟨link, member, rfl⟩
          exact ⟨links + 1, Nat.succ_lt_succ within, top, .climb away step way, fit⟩
        · rintro ⟨links, within, top, way, fit⟩
          cases way with
          | arrive there => exact absurd there away
          | climb _ step rest =>
            obtain ⟨link, member, rfl⟩ := (below_iff found).mp step
            exact ⟨link, member, _, Nat.lt_of_succ_lt_succ within, top, rest, fit⟩

theorem isObject_ty : sup.ty.isObject = true ↔ sup = ⟨.object, []⟩ := by
  obtain ⟨name, args⟩ := sup
  simp [Ty.isObject, Ty.object, ClassRef.ty]

/-- Class types are compared along links unless they are equal or the target is above all. -/
theorem check_classes (depth : Nat) (sub : ClassRef) :
    (check known (depth + 1) sub.ty sup.ty).value = true ↔
      sub = sup ∨ sup = ⟨.object, []⟩ ∨ (checkClass known depth sub sup).value = true := by
  have equal : sub.ty = sup.ty ↔ sub = sup := by
    obtain ⟨name, args⟩ := sub
    obtain ⟨name', args'⟩ := sup
    simp [ClassRef.ty]
  unfold check
  split
  · rename_i same
    exact iff_of_true rfl (.inl (equal.mp same))
  · rename_i different
    rw [equal] at different
    split
    · rename_i object
      rw [Bool.and_eq_true, isObject_ty] at object
      exact iff_of_true rfl (.inr (.inl object.1))
    · rename_i other
      have notObject : sup ≠ ⟨.object, []⟩ := by
        intro object
        exact other (by rw [isObject_ty.mpr object]; rfl)
      simp [ClassRef.ty, different, notObject]

end Subtyping

/-- One class type is a subtype of another exactly if the other is `java.lang.Object`, or at most 63
links lead up to its name, the first time they meet it, with arguments that fit. For a target
without arguments it is enough that the names are linked. -/
theorem isSubtype_iff_ascends (known : Knowledge) (sub sup : ClassRef)
    (plain : ∀ arg ∈ sup.args, arg.isWildcard = false) :
    ((known.isSubtype sub.ty sup.ty).value = true ↔ sup = ⟨.object, []⟩ ∨
      ∃ links ≤ 63, ∃ top, sub.Ascends known.lookup sup.name links top ∧
        ArgumentsFit top.args sup.args) ∧
    (sup.args = [] → ((known.isSubtype sub.ty sup.ty).value = true ↔ sup.name = .object ∨
      ∃ links ≤ 63, QualName.Leads known.lookup links sub.name sup.name)) := by
  have whole : (known.isSubtype sub.ty sup.ty).value = true ↔ sup = ⟨.object, []⟩ ∨
      ∃ links ≤ 63, ∃ top, sub.Ascends known.lookup sup.name links top ∧
        ArgumentsFit top.args sup.args := by
    have search := @Subtyping.checkClass_iff known sup plain 64 sub
    simp only [Nat.lt_succ_iff] at search
    rw [Knowledge.isSubtype, Subtyping.depthLimit, Subtyping.check_classes, search]
    constructor
    · rintro (rfl | object | found)
      · exact .inr ⟨0, Nat.zero_le 63, sub, .arrive rfl, .inr (.inr rfl)⟩
      · exact .inl object
      · exact .inr found
    · exact .inr
  refine ⟨whole, fun bare => whole.trans ?_⟩
  constructor
  · rintro (rfl | ⟨links, within, top, way, _⟩)
    · exact .inl rfl
    · exact .inr ⟨links, within, way.leads⟩
  · rintro (named | ⟨links, within, leads⟩)
    · exact .inl (by cases sup; simp_all)
    · obtain ⟨fewer, less, top, way⟩ := ClassRef.exists_ascends leads sub rfl
      exact .inr ⟨fewer, Nat.le_trans less within, top, way, .inr (.inl bare)⟩

namespace Cyclic

def interface (name : String) (above : ClassRef) : TypeModel where
  name := ⟨name⟩
  kind := .interface
  typeParameters := [⟨"T", []⟩]
  interfaces := [⟨above, { name := above.name, kind := .interface }⟩]

def ping : TypeModel := interface "Ping" ⟨⟨"Pong"⟩, [.cls ⟨"Ping"⟩ [.var "T"]]⟩

def pong : TypeModel := interface "Pong" ⟨⟨"Ping"⟩, [.var "T"]⟩

def known : Knowledge where
  lookup name := [ping, pong].find? (·.name = name)

def text : Ty := .cls ⟨"java.lang.String"⟩ []

/-- `Ping<String>`, from which a search goes on to `Pong<Ping<String>>`. -/
def start : ClassRef := ⟨⟨"Ping"⟩, [text]⟩

def goal : ClassRef := ⟨⟨"Pong"⟩, [start.ty]⟩

theorem ascends : start.Ascends known.lookup goal.name 1 goal := by
  have linked : start.Below known.lookup goal :=
    @ClassRef.Below.applied known.lookup start ping _ rfl (List.mem_singleton.mpr rfl) (.inl (by decide))
  exact .climb (by decide) linked (.arrive rfl)

end Cyclic

theorem cyclic_isSubtype : (∀ arg ∈ Cyclic.goal.args, arg.isWildcard = false) ∧
    (Cyclic.known.isSubtype Cyclic.start.ty Cyclic.goal.ty).value = true := by
  have plain : ∀ arg ∈ Cyclic.goal.args, arg.isWildcard = false := by decide
  exact ⟨plain, (isSubtype_iff_ascends Cyclic.known Cyclic.start Cyclic.goal plain).1.mpr
    (.inr ⟨1, by decide, Cyclic.goal, Cyclic.ascends, .inr (.inr rfl)⟩)⟩

end JavaStubs
