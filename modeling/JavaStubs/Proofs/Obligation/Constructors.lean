import JavaStubs.Proofs.Obligation.Contract
import JavaStubs.Proofs.Resolver.Assembled
import Mathlib.Tactic.Tauto

namespace JavaStubs

namespace TypeModel

/-- The implicit constructors of `root` and of classes above it call each other, up to the one of
`caller`, which calls a constructor that `declaring` declares. -/
inductive ImplicitCall : TypeModel → TypeModel → TypeModel → Prop
  | declared {root : TypeModel} {link : Supertype TypeModel} (above : root.superclass = some link)
      (declares : link.model.constructors ≠ []) : ImplicitCall root root link.model
  | implicit {root caller declaring : TypeModel} {link : Supertype TypeModel}
      (above : root.superclass = some link) (silent : link.model.constructors = [])
      (further : ImplicitCall link.model caller declaring) : ImplicitCall root caller declaring

/-- Some constructor takes no arguments and can be called from every subclass. -/
def OffersSubclasses (declaring : TypeModel) : Prop :=
  ∃ c ∈ declaring.constructors, c.takesNoArguments = true ∧
    (c.access = .publicAccess ∨ c.access = .protectedAccess)

/-- Some constructor takes no arguments and can be called from the package. -/
def OffersPackage (declaring : TypeModel) : Prop :=
  ∃ c ∈ declaring.constructors, c.takesNoArguments = true ∧ c.access = .packageAccess

/-- `caller` finds a constructor of `declaring` that it can call without arguments. -/
def MayConstruct (caller declaring : TypeModel) : Prop :=
  declaring.OffersSubclasses ∨
    declaring.OffersPackage ∧ caller.name.package = declaring.name.package

/-- Every constructor that is called implicitly is found by its caller. -/
def Constructible (root : TypeModel) : Prop :=
  ∀ caller declaring, root.ImplicitCall caller declaring → caller.MayConstruct declaring

/-- Only the package is offered a constructor, and it is not the case that the root and the caller are
both in it or both outside. -/
def Misjudged (root : TypeModel) : Prop :=
  ∃ caller declaring, root.ImplicitCall caller declaring ∧
    declaring.OffersPackage ∧ ¬ declaring.OffersSubclasses ∧
    ¬ (root.name.package = declaring.name.package ↔ caller.name.package = declaring.name.package)

variable {root caller declaring : TypeModel} {link : Supertype TypeModel}

theorem not_implicitCall (top : root.superclass = none) : ¬ root.ImplicitCall caller declaring := by
  rintro (⟨above, _⟩ | ⟨above, _, _⟩)
  · cases top.symm.trans above
  · cases top.symm.trans above

theorem implicitCall_of_declares (above : root.superclass = some link)
    (declares : link.model.constructors ≠ []) :
    root.ImplicitCall caller declaring ↔ caller = root ∧ declaring = link.model := by
  constructor
  · rintro (⟨above', _⟩ | ⟨above', silent, _⟩)
    · cases above.symm.trans above'
      exact ⟨rfl, rfl⟩
    · cases above.symm.trans above'
      exact absurd silent declares
  · rintro ⟨rfl, rfl⟩
    exact .declared above declares

theorem implicitCall_of_silent (above : root.superclass = some link)
    (silent : link.model.constructors = []) :
    root.ImplicitCall caller declaring ↔ link.model.ImplicitCall caller declaring := by
  constructor
  · rintro (⟨above', declares⟩ | ⟨above', _, further⟩)
    · cases above.symm.trans above'
      exact absurd silent declares
    · cases above.symm.trans above'
      exact further
  · exact .implicit above silent

theorem ImplicitCall.unique {caller' declaring' : TypeModel} (call : root.ImplicitCall caller declaring)
    (call' : root.ImplicitCall caller' declaring') : caller' = caller ∧ declaring' = declaring := by
  induction call with
  | declared above declares => exact (implicitCall_of_declares above declares).mp call'
  | implicit above silent _ ih => exact ih ((implicitCall_of_silent above silent).mp call')

/-- The first superclass that declares constructors is the one whose constructors are called. -/
theorem find?_superclasses : root.superclasses.find? (!·.constructors.isEmpty) = some declaring ↔
    ∃ caller, root.ImplicitCall caller declaring := by
  induction size : sizeOf root using Nat.strongRecOn generalizing root with
  | _ n ih =>
    cases above : root.superclass with
    | none =>
      rw [superclasses_of_none above]
      simp [not_implicitCall above]
    | some link =>
      have smaller : sizeOf link.model < n := size ▸ sizeOf_superclass above
      rw [superclasses_of_some above]
      by_cases silent : link.model.constructors = []
      · rw [List.find?_cons_of_neg (by simp [silent]), ih _ smaller rfl]
        exact exists_congr fun caller => (implicitCall_of_silent above silent).symm
      · rw [List.find?_cons_of_pos (by simpa using silent)]
        simp [implicitCall_of_declares above silent, eq_comm]

/-- One class finds a constructor of another if one is visible from its package. -/
theorem mayConstruct_iff : caller.MayConstruct declaring ↔ (declaring.constructors.any fun c =>
    c.takesNoArguments && isVisibleFrom caller.name.package declaring c) = true := by
  have visible (c : Constructor) : isVisibleFrom caller.name.package declaring c = true ↔
      (c.access = .publicAccess ∨ c.access = .protectedAccess) ∨
        c.access = .packageAccess ∧ caller.name.package = declaring.name.package := by
    unfold isVisibleFrom
    cases c.access <;> simp [eq_comm (a := declaring.name.package)]
  simp only [List.any_eq_true, Bool.and_eq_true, visible]
  constructor
  · rintro (⟨c, listed, bare, wide⟩ | ⟨⟨c, listed, bare, package⟩, same⟩)
    · exact ⟨c, listed, bare, .inl wide⟩
    · exact ⟨c, listed, bare, .inr ⟨package, same⟩⟩
  · rintro ⟨c, listed, bare, wide | ⟨package, same⟩⟩
    · exact .inl ⟨c, listed, bare, wide⟩
    · exact .inr ⟨⟨c, listed, bare, package⟩, same⟩

/-- Whether an implicit constructor fits is judged from the root's package. -/
theorem implicitConstructorFits_iff : root.implicitConstructorFits = true ↔
    ∀ caller declaring, root.ImplicitCall caller declaring → root.MayConstruct declaring := by
  unfold implicitConstructorFits
  cases found : root.superclasses.find? (!·.constructors.isEmpty) with
  | none =>
    refine iff_of_true rfl fun caller declaring call => ?_
    have first := find?_superclasses.mpr ⟨caller, call⟩
    rw [found] at first
    cases first
  | some declaring =>
    obtain ⟨caller, call⟩ := find?_superclasses.mp found
    refine mayConstruct_iff.symm.trans ⟨fun may caller' declaring' call' => ?_, fun all => ?_⟩
    · obtain ⟨_, rfl⟩ := call.unique call'
      exact may
    · exact all caller declaring call

/-- The root's package leads to the caller's verdict exactly where nothing is misjudged. -/
theorem fits_iff_constructible :
    (root.implicitConstructorFits = true ↔ root.Constructible) ↔ ¬ root.Misjudged := by
  rw [implicitConstructorFits_iff]
  by_cases called : ∃ caller declaring, root.ImplicitCall caller declaring
  · obtain ⟨caller, declaring, call⟩ := called
    have every {P : TypeModel → TypeModel → Prop} :
        (∀ caller' declaring', root.ImplicitCall caller' declaring' → P caller' declaring') ↔
          P caller declaring := by
      refine ⟨fun all => all caller declaring call, fun here caller' declaring' call' => ?_⟩
      obtain ⟨rfl, rfl⟩ := call.unique call'
      exact here
    have some {P : TypeModel → TypeModel → Prop} :
        (∃ caller' declaring', root.ImplicitCall caller' declaring' ∧ P caller' declaring') ↔
          P caller declaring := by
      refine ⟨?_, fun here => ⟨caller, declaring, call, here⟩⟩
      rintro ⟨caller', declaring', call', here⟩
      obtain ⟨rfl, rfl⟩ := call.unique call'
      exact here
    unfold Constructible Misjudged MayConstruct
    rw [every, every, some]
    tauto
  · simp only [not_exists] at called
    simp [Constructible, Misjudged, called]

end TypeModel

namespace Collect

variable {lookup : QualName → Option TypeModel} {root : TypeModel}

/-- Methods are never a reason to miss a constructor. -/
theorem resolveAll_ne_noConstructor (groups : List MethodGroup) (name : QualName) :
    (resolveAll lookup root groups).value ≠ .error (.noConstructor name) := by
  intro failed
  obtain ⟨group, _, fails⟩ := resolveAll_error failed
  cases unsatisfied : group.unsatisfied with
  | nil => simp [resolve_value_nil unsatisfied] at fails
  | cons base others =>
    rw [resolve_value_cons unsatisfied] at fails
    split at fails
    · cases fails
    · split at fails <;> cases fails

/-- An accepted abstract class without constructors lacks one if and only if its implicit one does not
fit. -/
theorem noConstructor_iff (accepted : root.refusal? = none) (kind : root.kind = .abstractClass)
    (silent : root.constructors = []) :
    (∃ name, (obligations lookup root).value = .error (.noConstructor name)) ↔
      root.implicitConstructorFits = false := by
  have forwarded : root.constructorObligations =
      if root.implicitConstructorFits then .ok [] else .error (.noConstructor root.name) := by
    simp [TypeModel.constructorObligations, kind, silent]
  unfold obligations
  rw [accepted, forwarded]
  cases root.implicitConstructorFits with
  | false => simp
  | true =>
    simp only [if_true, Inquiry.value_bind, Bool.true_eq_false, iff_false, not_exists]
    intro name failed
    split at failed
    · rename_i error all
      simp only [Inquiry.value_pure, Except.error.injEq] at failed
      exact resolveAll_ne_noConstructor _ name (failed ▸ all)
    · cases failed

end Collect

/-- When constructors are missed. A resolved abstract class that declares none and is not private is
refused for want of one if and only if one is called implicitly that the root itself could not call.
This is the right verdict, by what the actual caller could call, exactly unless it is misjudged. -/
theorem noConstructor_judged {lookup : QualName → Option TypeModel} {fs : FileSystem}
    {resolver : Resolver} {name : QualName} {root : TypeModel} (opened : resolver.Opened)
    (resolved : (resolver.resolve fs name).1 = .ok root) (kind : root.kind = .abstractClass)
    (accessible : root.access ≠ .privateAccess) (silent : root.constructors = []) :
    let refused := ∃ other, (obligations lookup root).value = .error (.noConstructor other)
    (refused ↔ ∃ caller declaring, root.ImplicitCall caller declaring ∧ ¬ root.MayConstruct declaring) ∧
      ((refused ↔ ¬ root.Constructible) ↔ ¬ root.Misjudged) := by
  have declared := ((resolved_wellFormed opened resolved).2 root .refl).declared
  have notFinal : root.isFinal = false := declared.lawful.abstractClasses kind
  have accepted : root.refusal? = none := by
    simp [TypeModel.refusal?, kind, notFinal, TypeModel.isAccessible, accessible]
  have refused := @Collect.noConstructor_iff lookup root accepted kind silent
  have misfit : root.implicitConstructorFits = false ↔ ¬ root.implicitConstructorFits = true := by
    simp
  constructor
  · rw [refused, misfit, TypeModel.implicitConstructorFits_iff]
    simp only [not_forall, exists_prop]
  · rw [refused, misfit, ← TypeModel.fits_iff_constructible, not_iff_not]

namespace Skipped

/-- `q.K` has a constructor of package access, `q.M` and `p.N` extend `q.K`, and `p.R` and `q.S`
extend the one of these that is not in their own package. -/
def text : String :=
  "<types><class name=\"q.K\" abstract=\"true\"><constructor access=\"package\"/></class>" ++
    "<class name=\"q.M\" abstract=\"true\"><extends type=\"q.K\"/></class>" ++
    "<class name=\"p.N\" abstract=\"true\"><extends type=\"q.K\"/></class>" ++
    "<class name=\"p.R\" abstract=\"true\"><extends type=\"q.M\"/></class>" ++
    "<class name=\"q.S\" abstract=\"true\"><extends type=\"p.N\"/></class></types>"

/-- An abstract class below another one. -/
def below (name upper : QualName) (constructors : List Constructor := []) : Descriptor :=
  { name, kind := .abstractClass, superclass := some ⟨upper, []⟩, constructors }

def resolver : Resolver where
  sources := [.inMemory "<inline descriptors>" {
    descriptors := [below ⟨"q.K"⟩ .object [{ access := .packageAccess }], below ⟨"q.M"⟩ ⟨"q.K"⟩,
      below ⟨"p.N"⟩ ⟨"q.K"⟩, below ⟨"p.R"⟩ ⟨"q.M"⟩, below ⟨"q.S"⟩ ⟨"p.N"⟩]
    distinct := by decide }, .standardLibrary]

/-- The model of a class that declares nothing. -/
def extending (name : QualName) (upper : TypeModel) : TypeModel :=
  { name, kind := .abstractClass, superclass := some ⟨⟨upper.name, []⟩, upper⟩ }

def top : TypeModel :=
  { extending ⟨"q.K"⟩ (Linking.modelOf StandardLibrary.object none []) with
    constructors := [{ access := .packageAccess }] }

def inside : TypeModel := extending ⟨"q.M"⟩ top

def outside : TypeModel := extending ⟨"p.N"⟩ top

/-- `p.R`, whose superclass is in the package of `q.K`. -/
def refused : TypeModel := extending ⟨"p.R"⟩ inside

/-- `q.S`, which is in the package of `q.K`, as its superclass is not. -/
def accepted : TypeModel := extending ⟨"q.S"⟩ outside

theorem built : Resolver.ofDocument text = .ok resolver := by
  have parsed : Descriptor.parseAll text = .ok [below ⟨"q.K"⟩ .object [{ access := .packageAccess }],
      below ⟨"q.M"⟩ ⟨"q.K"⟩, below ⟨"p.N"⟩ ⟨"q.K"⟩, below ⟨"p.R"⟩ ⟨"q.M"⟩,
      below ⟨"q.S"⟩ ⟨"p.N"⟩] := by decide +kernel
  unfold Resolver.ofDocument Source.ofDocument
  rw [parsed]
  rfl

theorem opened : resolver.Opened := .document text resolver built

theorem resolved_refused : (resolver.resolve {} ⟨"p.R"⟩).1 = .ok refused := rfl

theorem resolved_accepted : (resolver.resolve {} ⟨"q.S"⟩).1 = .ok accepted := rfl

theorem call_extending (name middle : QualName) :
    (extending name (extending middle top)).ImplicitCall (extending middle top) top :=
  .implicit rfl rfl (@TypeModel.ImplicitCall.declared (extending middle top) ⟨⟨top.name, []⟩, top⟩ rfl
    (List.cons_ne_nil _ _))

theorem call_refused : refused.ImplicitCall inside top := call_extending _ _

theorem call_accepted : accepted.ImplicitCall outside top := call_extending _ _

theorem offersPackage : top.OffersPackage := ⟨{ access := .packageAccess }, by decide, by decide, rfl⟩

theorem not_offersSubclasses : ¬ top.OffersSubclasses := by
  rintro ⟨c, listed, _, wide⟩
  cases List.mem_singleton.mp listed
  rcases wide with isPublic | isProtected
  · cases isPublic
  · cases isProtected

theorem constructible : refused.Constructible := by
  intro caller declaring call
  obtain ⟨rfl, rfl⟩ := call_refused.unique call
  exact .inr ⟨offersPackage, by decide +kernel⟩

theorem not_constructible : ¬ accepted.Constructible := by
  intro constructible
  rcases constructible outside top call_accepted with wide | ⟨_, samePackage⟩
  · exact not_offersSubclasses wide
  · exact absurd samePackage (by decide +kernel)

end Skipped

theorem skipped_judged :
    (∃ other, (obligations (Skipped.resolver.lookup {}) Skipped.refused).value =
      .error (.noConstructor other)) ∧ Skipped.refused.Misjudged := by
  obtain ⟨missed, verdict⟩ := @noConstructor_judged (Skipped.resolver.lookup {}) _ _ _ _
    Skipped.opened Skipped.resolved_refused rfl (by decide) rfl
  have foreign : ¬ Skipped.refused.MayConstruct Skipped.top := by
    rintro (wide | ⟨_, samePackage⟩)
    · exact Skipped.not_offersSubclasses wide
    · exact absurd samePackage (by decide +kernel)
  have isRefused := missed.mpr ⟨Skipped.inside, Skipped.top, Skipped.call_refused, foreign⟩
  refine ⟨isRefused, by_contra fun right => ?_⟩
  exact (verdict.mpr right).mp isRefused Skipped.constructible

/-- A class is refused for want of a constructor that its superclass finds, and another is accepted
whose superclass finds none. -/
theorem access_judged_from_root : Skipped.resolver.Opened ∧
    ((Skipped.resolver.resolve {} ⟨"p.R"⟩).1 = .ok Skipped.refused ∧ Skipped.refused.Constructible ∧
      (obligations (Skipped.resolver.lookup {}) Skipped.refused).value =
        .error (.noConstructor ⟨"p.R"⟩)) ∧
    (Skipped.resolver.resolve {} ⟨"q.S"⟩).1 = .ok Skipped.accepted ∧ ¬ Skipped.accepted.Constructible ∧
      (obligations (Skipped.resolver.lookup {}) Skipped.accepted).value = .ok [] :=
  ⟨Skipped.opened, ⟨Skipped.resolved_refused, Skipped.constructible, by decide +kernel⟩,
    Skipped.resolved_accepted, Skipped.not_constructible, by decide +kernel⟩

end JavaStubs
