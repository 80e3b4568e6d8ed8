import JavaStubs.Proofs.Descriptor.Scoping
import JavaStubs.Resolver.Basic
import Mathlib.Logic.Relation

namespace JavaStubs

/-- Arguments are absent, or there is one for each parameter, neither a wildcard nor a primitive. -/
def ClassRef.Suits (reference : ClassRef) (target : Descriptor) : Prop :=
  reference.args = [] ∨ reference.args.length = target.typeParameters.length ∧
    ∀ arg ∈ reference.args, arg.isWildcard = false ∧ ∀ p, arg ≠ .prim p

namespace Descriptor

/-- A class may name the target as its superclass. -/
structure Extendable (target : Descriptor) (reference : ClassRef) : Prop where
  isClass : target.kind ≠ .interface
  notFinal : target.isFinal = false
  suits : reference.Suits target

/-- The target may be named among the interfaces. -/
structure Implementable (target : Descriptor) (reference : ClassRef) : Prop where
  isInterface : target.kind = .interface
  suits : reference.Suits target

end Descriptor

namespace Linking

/-- Links references one after the other, each admitted by `check`. -/
def directAll (link : QualName → Except ResolveError TypeModel) (owner : QualName)
    (check : ClassRef → TypeModel → Except HierarchyFault Unit) (references : List ClassRef) :
    Except ResolveError (List (Supertype TypeModel)) :=
  references.mapM fun reference => do
    let target ← link reference.name
    (check reference target).mapError (.hierarchy owner)
    return ⟨reference, target⟩

def directDescriptor (link : QualName → Except ResolveError TypeModel) (d : Descriptor) :
    Except ResolveError TypeModel := do
  let superclass ← directAll link d.name checkSuperclass d.superclass.toList
  let interfaces ← directAll link d.name checkInterface d.interfaces
  return modelOf d superclass.head? interfaces

/-- Links a name and everything above it anew. -/
def direct (load : QualName → Except ResolveError Descriptor) :
    Nat → List QualName → QualName → Except ResolveError TypeModel
  | fuel, progress, name =>
    if name ∈ progress then .error (.circular (progress ++ [name]))
    else match fuel with
      | 0 => .error (.circular (progress ++ [name]))
      | fuel + 1 => do directDescriptor (direct load fuel (progress ++ [name])) (← load name)

/-- A reference that was linked and admitted. -/
structure Joins (link : QualName → Except ResolveError TypeModel)
    (check : ClassRef → TypeModel → Except HierarchyFault Unit) (reference : ClassRef)
    (entry : Supertype TypeModel) : Prop where
  written : entry.reference = reference
  linked : link reference.name = .ok entry.model
  admitted : check reference entry.model = .ok ()

/-- A name and a name that its declaration refers to as a supertype. -/
def Refers (load : QualName → Except ResolveError Descriptor) (name target : QualName) : Prop :=
  ∃ d, load name = .ok d ∧ ∃ reference ∈ d.references, reference.name = target

/-- References lead from a name to another one, or they are the same. -/
abbrev Leads (load : QualName → Except ResolveError Descriptor) : QualName → QualName → Prop :=
  Relation.ReflTransGen (Refers load)

/-- The name lies on a cycle of references. -/
def Circular (load : QualName → Except ResolveError Descriptor) (name : QualName) : Prop :=
  Relation.TransGen (Refers load) name name

/-- Everything that references lead to from the name is described, nothing of it lies on a cycle,
and each reference on the way is one that the declaration may make. -/
structure Linkable (load : QualName → Except ResolveError Descriptor) (name : QualName) : Prop where
  described : ∀ target, Leads load name target → ∃ d, load target = .ok d
  acyclic : ∀ target, Leads load name target → ¬ Circular load target
  superclasses : ∀ target d reference upper, Leads load name target → load target = .ok d →
    d.superclass = some reference → load reference.name = .ok upper → upper.Extendable reference
  interfaces : ∀ target d reference upper, Leads load name target → load target = .ok d →
    reference ∈ d.interfaces → load reference.name = .ok upper → upper.Implementable reference

/-- Fewer names than `limit` are described. -/
def Supply (load : QualName → Except ResolveError Descriptor) (limit : Nat) : Prop :=
  ∀ names : List QualName, names.Nodup → (∀ name ∈ names, ∃ d, load name = .ok d) →
    names.length < limit

/-- The names in progress are distinct and described, so the fuel lasts for all names that are
left. -/
structure Room (load : QualName → Except ResolveError Descriptor) (limit fuel : Nat)
    (progress : List QualName) : Prop where
  distinct : progress.Nodup
  described : ∀ name ∈ progress, ∃ d, load name = .ok d
  enough : limit ≤ fuel + progress.length

variable {load : QualName → Except ResolveError Descriptor} {limit fuel fuel' : Nat}
  {progress progress' : List QualName} {name target : QualName} {model model' : TypeModel}

theorem directAll_eq_ok {link : QualName → Except ResolveError TypeModel} (owner : QualName)
    {check : ClassRef → TypeModel → Except HierarchyFault Unit} {references : List ClassRef}
    {links : List (Supertype TypeModel)} :
    directAll link owner check references = .ok links ↔
      List.Forall₂ (Joins link check) references links := by
  have one (reference : ClassRef) (entry : Supertype TypeModel) :
      (do
        let target ← link reference.name
        (check reference target).mapError (.hierarchy owner)
        return (⟨reference, target⟩ : Supertype TypeModel)) = .ok entry ↔
        Joins link check reference entry := by
    constructor
    · intro done
      obtain ⟨target, linked, done⟩ := bind_eq_ok done
      obtain ⟨_, admitted, done⟩ := bind_eq_ok done
      cases done
      exact ⟨rfl, linked, mapError_eq_ok admitted⟩
    · obtain ⟨written, target⟩ := entry
      rintro ⟨rfl, linked, admitted⟩
      rw [linked, ok_bind, admitted]
      rfl
  rw [directAll, mapM_eq_ok_iff]
  simp only [one]

/-- What it takes to link a name. -/
theorem direct_eq_ok : direct load fuel progress name = .ok model ↔ name ∉ progress ∧
    ∃ below d superclass interfaces, fuel = below + 1 ∧ load name = .ok d ∧
      List.Forall₂ (Joins (direct load below (progress ++ [name])) checkSuperclass)
        d.superclass.toList superclass ∧
      List.Forall₂ (Joins (direct load below (progress ++ [name])) checkInterface)
        d.interfaces interfaces ∧
      model = modelOf d superclass.head? interfaces := by
  unfold direct
  constructor
  · intro done
    split at done
    · cases done
    · rename_i fresh
      cases fuel with
      | zero => cases done
      | succ below =>
        obtain ⟨d, loaded, done⟩ := bind_eq_ok done
        obtain ⟨superclass, extended, done⟩ := bind_eq_ok done
        obtain ⟨interfaces, implemented, done⟩ := bind_eq_ok done
        cases done
        exact ⟨fresh, below, d, superclass, interfaces, rfl, loaded, (directAll_eq_ok _).mp extended,
          (directAll_eq_ok _).mp implemented, rfl⟩
  · rintro ⟨fresh, below, d, superclass, interfaces, rfl, loaded, extended, implemented, rfl⟩
    have extended := (directAll_eq_ok d.name).mpr extended
    have implemented := (directAll_eq_ok d.name).mpr implemented
    rw [if_neg fresh]
    simp only [loaded, ok_bind, directDescriptor, extended, implemented]
    rfl

/-- Whoever is linked refers to names that are linked below it. -/
theorem direct_refers (linked : direct load fuel progress name = .ok model)
    (refers : Refers load name target) :
    ∃ below model', direct load below (progress ++ [name]) target = .ok model' := by
  obtain ⟨_, below, d, superclass, interfaces, _, loaded, extended, implemented, _⟩ :=
    direct_eq_ok.mp linked
  obtain ⟨d', loaded', reference, listed, rfl⟩ := refers
  cases loaded.symm.trans loaded'
  rcases List.mem_append.mp listed with above | above
  · obtain ⟨entry, _, joins⟩ := forall₂_left extended above
    exact ⟨below, entry.model, joins.linked⟩
  · obtain ⟨entry, _, joins⟩ := forall₂_left implemented above
    exact ⟨below, entry.model, joins.linked⟩

theorem direct_leads (linked : direct load fuel progress name = .ok model)
    (leads : Leads load name target) :
    ∃ fuel' progress' model', direct load fuel' progress' target = .ok model' := by
  induction leads with
  | refl => exact ⟨fuel, progress, model, linked⟩
  | tail _ refers ih =>
    obtain ⟨fuel', progress', model', linked'⟩ := ih
    obtain ⟨below, upper, above⟩ := direct_refers linked' refers
    exact ⟨below, _, upper, above⟩

/-- Nothing that is linked leads back to a name in progress. -/
theorem direct_avoids (linked : direct load fuel progress name = .ok model)
    (leads : Leads load name target) : target ∉ progress := by
  induction leads using Relation.ReflTransGen.head_induction_on generalizing fuel progress model with
  | refl => exact (direct_eq_ok.mp linked).1
  | head refers _ ih =>
    obtain ⟨below, upper, above⟩ := direct_refers linked refers
    exact fun member => ih above (List.mem_append_left _ member)

theorem direct_not_circular (linked : direct load fuel progress name = .ok model) :
    ¬ Circular load name := by
  intro cycle
  obtain ⟨next, refers, back⟩ := Relation.TransGen.head'_iff.mp cycle
  obtain ⟨below, upper, above⟩ := direct_refers linked refers
  exact direct_avoids above back (by simp)

/-- A name has one model at most, whatever is in progress. -/
theorem direct_unique (linked : direct load fuel progress name = .ok model)
    (linked' : direct load fuel' progress' name = .ok model') : model = model' := by
  induction fuel generalizing fuel' progress progress' name model model' with
  | zero =>
    obtain ⟨_, _, _, _, _, impossible, _⟩ := direct_eq_ok.mp linked
    cases impossible
  | succ fuel ih =>
    obtain ⟨_, below, d, superclass, interfaces, same, loaded, extended, implemented, rfl⟩ :=
      direct_eq_ok.mp linked
    obtain ⟨_, below', d', superclass', interfaces', _, loaded', extended', implemented', rfl⟩ :=
      direct_eq_ok.mp linked'
    cases same
    cases loaded.symm.trans loaded'
    have agree {check : ClassRef → TypeModel → Except HierarchyFault Unit} (reference : ClassRef)
        (entry entry' : Supertype TypeModel)
        (joins : Joins (direct load fuel (progress ++ [name])) check reference entry)
        (joins' : Joins (direct load below' (progress' ++ [name])) check reference entry') :
        entry = entry' := by
      obtain ⟨written, upper⟩ := entry
      obtain ⟨written', upper'⟩ := entry'
      have sameReference : written = written' := joins.written.trans joins'.written.symm
      have sameModel : upper = upper' := ih joins.linked joins'.linked
      rw [sameReference, sameModel]
    rw [forall₂_unique (fun reference _ => agree reference) extended extended',
      forall₂_unique (fun reference _ => agree reference) implemented implemented']

section Checks

variable {reference : ClassRef} {d : Descriptor} {superclass : Option (Supertype TypeModel)}
  {links : List (Supertype TypeModel)}

theorem checkArguments_iff :
    checkArguments reference (modelOf d superclass links) = .ok () ↔ reference.Suits d := by
  by_cases none : reference.args = []
  · simp [checkArguments, ClassRef.Suits, none]
  · by_cases counts : reference.args.length = d.typeParameters.length
    · simp only [checkArguments, modelOf, ClassRef.Suits, none, counts, List.isEmpty_iff, ne_eq,
        not_true_eq_false, if_false, false_or, true_and]
      split
      · rename_i found
        obtain ⟨arg, member, bad⟩ := List.any_eq_true.mp found
        refine ⟨fun done => (by cases done), fun all => ?_⟩
        obtain ⟨notWildcard, notPrimitive⟩ := all arg member
        cases arg with
        | prim p => exact absurd rfl (notPrimitive p)
        | _ => simp_all
      · rename_i fine
        refine ⟨fun _ arg member => ?_, fun _ => rfl⟩
        have harmless := mt (fun bad => List.any_eq_true.mpr ⟨arg, member, bad⟩) fine
        cases arg <;> simp_all
    · simp [checkArguments, modelOf, ClassRef.Suits, none, counts]

theorem checkSuperclass_iff :
    checkSuperclass reference (modelOf d superclass links) = .ok () ↔ d.Extendable reference := by
  unfold checkSuperclass
  split
  · rename_i isInterface
    refine ⟨fun done => (by cases done), fun extendable => absurd ?_ extendable.isClass⟩
    simpa [TypeModel.isInterface, modelOf] using isInterface
  · rename_i isClass
    split
    · rename_i isFinal
      refine ⟨fun done => (by cases done), fun extendable => absurd isFinal ?_⟩
      simp [modelOf, extendable.notFinal]
    · rename_i notFinal
      rw [checkArguments_iff]
      refine ⟨fun suits => ⟨?_, ?_, suits⟩, fun extendable => extendable.suits⟩
      · simpa [TypeModel.isInterface, modelOf] using isClass
      · simpa [modelOf] using notFinal

theorem checkInterface_iff :
    checkInterface reference (modelOf d superclass links) = .ok () ↔ d.Implementable reference := by
  unfold checkInterface
  split
  · rename_i isInterface
    rw [checkArguments_iff]
    refine ⟨fun suits => ⟨?_, suits⟩, fun implementable => implementable.suits⟩
    simpa [TypeModel.isInterface, modelOf] using isInterface
  · rename_i isClass
    refine ⟨fun done => (by cases done), fun implementable => absurd ?_ isClass⟩
    simpa [TypeModel.isInterface, modelOf] using implementable.isInterface

end Checks

theorem direct_model (linked : direct load fuel progress name = .ok model) :
    ∃ d superclass interfaces, load name = .ok d ∧ model = modelOf d superclass interfaces := by
  obtain ⟨_, _, d, superclass, interfaces, _, loaded, _, _, rfl⟩ := direct_eq_ok.mp linked
  exact ⟨d, _, interfaces, loaded, rfl⟩

/-- Whatever is linked has a sound hierarchy. -/
theorem linkable_of_direct (linked : direct load fuel progress name = .ok model) :
    Linkable load name := by
  constructor
  case described =>
    intro target leads
    obtain ⟨_, _, upper, above⟩ := direct_leads linked leads
    obtain ⟨d, _, _, loaded, _⟩ := direct_model above
    exact ⟨d, loaded⟩
  case acyclic =>
    intro target leads
    obtain ⟨_, _, upper, above⟩ := direct_leads linked leads
    exact direct_not_circular above
  case superclasses =>
    intro target d reference upper leads loaded above known
    obtain ⟨_, _, _, below⟩ := direct_leads linked leads
    obtain ⟨_, _, d', _, _, _, loaded', extended, _, _⟩ := direct_eq_ok.mp below
    cases loaded.symm.trans loaded'
    obtain ⟨entry, _, joins⟩ := forall₂_left extended (a := reference) (by simp [above])
    obtain ⟨upper', _, _, known', made⟩ := direct_model joins.linked
    cases known.symm.trans known'
    exact checkSuperclass_iff.mp (made ▸ joins.admitted)
  case interfaces =>
    intro target d reference upper leads loaded listed known
    obtain ⟨_, _, _, below⟩ := direct_leads linked leads
    obtain ⟨_, _, d', _, _, _, loaded', _, implemented, _⟩ := direct_eq_ok.mp below
    cases loaded.symm.trans loaded'
    obtain ⟨entry, _, joins⟩ := forall₂_left implemented listed
    obtain ⟨upper', _, _, known', made⟩ := direct_model joins.linked
    cases known.symm.trans known'
    exact checkInterface_iff.mp (made ▸ joins.admitted)

theorem Linkable.of_refers (linkable : Linkable load name) (refers : Refers load name target) :
    Linkable load target where
  described := fun upper leads => linkable.described upper (.head refers leads)
  acyclic := fun upper leads => linkable.acyclic upper (.head refers leads)
  superclasses := fun upper d reference top leads =>
    linkable.superclasses upper d reference top (.head refers leads)
  interfaces := fun upper d reference top leads =>
    linkable.interfaces upper d reference top (.head refers leads)

theorem Room.exists_succ (room : Room load limit fuel progress) (supply : Supply load limit) :
    ∃ below, fuel = below + 1 := by
  have fewer := supply progress room.distinct room.described
  have enough := room.enough
  exact Nat.exists_eq_succ_of_ne_zero (by omega)

theorem Room.step {d : Descriptor} (room : Room load limit (fuel + 1) progress)
    (fresh : name ∉ progress) (loaded : load name = .ok d) :
    Room load limit fuel (progress ++ [name]) := by
  constructor
  case distinct =>
    rw [List.nodup_append]
    refine ⟨room.distinct, by simp, fun p member other new => ?_⟩
    rw [List.mem_singleton.mp new]
    exact fun same => fresh (same ▸ member)
  case described =>
    intro other member
    rcases List.mem_append.mp member with old | new
    · exact room.described other old
    · exact ⟨d, List.mem_singleton.mp new ▸ loaded⟩
  case enough =>
    have enough := room.enough
    simp only [List.length_append, List.length_singleton]
    omega

/-- A sound hierarchy is linked, below any names that it does not lead back to. -/
theorem exists_direct (supply : Supply load limit) (linkable : Linkable load name)
    (room : Room load limit fuel progress) (apart : ∀ p ∈ progress, ¬ Leads load name p) :
    ∃ model, direct load fuel progress name = .ok model := by
  induction fuel generalizing progress name with
  | zero =>
    obtain ⟨_, impossible⟩ := room.exists_succ supply
    cases impossible
  | succ fuel ih =>
    obtain ⟨d, loaded⟩ := linkable.described name .refl
    have fresh : name ∉ progress := fun member => apart name member .refl
    have next : ∀ reference ∈ d.references,
        ∃ upper, direct load fuel (progress ++ [name]) reference.name = .ok upper := by
      intro reference listed
      have refers : Refers load name reference.name := ⟨d, loaded, reference, listed, rfl⟩
      refine ih (linkable.of_refers refers) (room.step fresh loaded) fun p member back => ?_
      rcases List.mem_append.mp member with old | new
      · exact apart p old (.head refers back)
      · -- Leading back to the name itself would close a cycle.
        rw [List.mem_singleton.mp new] at back
        exact linkable.acyclic name .refl (.head' refers back)
    obtain ⟨superclass, extended⟩ : ∃ superclass, List.Forall₂
        (Joins (direct load fuel (progress ++ [name])) checkSuperclass) d.superclass.toList
        superclass := by
      refine exists_forall₂ fun reference listed => ?_
      obtain ⟨upper, linked⟩ := next reference (List.mem_append_left _ listed)
      obtain ⟨target, _, _, known, rfl⟩ := direct_model linked
      have extendable := linkable.superclasses name d reference target .refl loaded
        (by simpa using listed) known
      exact ⟨⟨reference, _⟩, rfl, linked, checkSuperclass_iff.mpr extendable⟩
    obtain ⟨interfaces, implemented⟩ : ∃ interfaces, List.Forall₂
        (Joins (direct load fuel (progress ++ [name])) checkInterface) d.interfaces interfaces := by
      refine exists_forall₂ fun reference listed => ?_
      obtain ⟨upper, linked⟩ := next reference (List.mem_append_right _ listed)
      obtain ⟨target, _, _, known, rfl⟩ := direct_model linked
      have implementable := linkable.interfaces name d reference target .refl loaded listed known
      exact ⟨⟨reference, _⟩, rfl, linked, checkInterface_iff.mpr implementable⟩
    exact ⟨_, direct_eq_ok.mpr ⟨fresh, fuel, d, superclass, interfaces, rfl, loaded, extended,
      implemented, rfl⟩⟩

end Linking

end JavaStubs
