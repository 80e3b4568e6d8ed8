import JavaStubs.Proofs.Descriptor.WellFormed
import JavaStubs.Proofs.Resolver.Direct
import JavaStubs.Proofs.Resolver.Linked

namespace JavaStubs

namespace TypeModel

/-- What a document would have to say of a linked type. -/
def declaration (model : TypeModel) : Descriptor where
  name := model.name
  kind := model.kind
  access := model.access
  isFinal := model.isFinal
  typeParameters := model.typeParameters
  superclass := model.superclass.map Supertype.reference
  interfaces := model.interfaces.map Supertype.reference
  methods := model.methods
  constructors := model.constructors

/-- A model whose declaration is well-formed and whose links lead to types that it may name. -/
structure WellFormed (model : TypeModel) : Prop where
  declared : model.declaration.WellFormed
  named : ∀ link ∈ model.supertypes, link.reference.name = link.model.name
  superclass : ∀ link ∈ model.superclass, link.model.declaration.Extendable link.reference
  interfaces : ∀ link ∈ model.interfaces, link.model.declaration.Implementable link.reference
  distinct : (model.interfaces.map fun link => link.model.name).Nodup

end TypeModel

namespace Linking

/-- A reference that leads to a type of its name and was admitted. -/
structure Admits (check : ClassRef → TypeModel → Except HierarchyFault Unit) (reference : ClassRef)
    (entry : Supertype TypeModel) : Prop where
  written : entry.reference = reference
  named : entry.model.name = reference.name
  admitted : check reference entry.model = .ok ()

/-- Put together from a well-formed declaration and checked links to such models. -/
inductive Assembled : TypeModel → Prop
  | of (d : Descriptor) (superclass interfaces : List (Supertype TypeModel)) (wellFormed : d.WellFormed)
      (extended : List.Forall₂ (Admits checkSuperclass) d.superclass.toList superclass)
      (implemented : List.Forall₂ (Admits checkInterface) d.interfaces interfaces)
      (above : ∀ entry ∈ superclass ++ interfaces, Assembled entry.model) :
      Assembled (modelOf d superclass.head? interfaces)

end Linking

/-- A declaration may leave out interfaces. -/
theorem Descriptor.WellFormed.of_interfaces {d : Descriptor} (wellFormed : d.WellFormed)
    {interfaces : List ClassRef} (fewer : ∀ ref ∈ interfaces, ref ∈ d.interfaces) :
    Descriptor.WellFormed { d with interfaces } := by
  obtain ⟨⟨named, ⟨distinct, bounds, arguments, types, noSuperclass⟩, typeParameters, references,
    classes, methods, constructors⟩, ⟨rules, abstractClasses, lawful, keys, constructorKeys⟩⟩ :=
    wellFormed
  have listed : ∀ ref ∈ d.superclass.toList ++ interfaces, ref ∈ d.references := by
    intro ref member
    rcases List.mem_append.mp member with above | inside
    · exact List.mem_append_left _ above
    · exact List.mem_append_right _ (fewer ref inside)
  exact ⟨⟨named, ⟨distinct, bounds, fun ref member => arguments ref (listed ref member), types,
    noSuperclass⟩, typeParameters, fun ref member => references ref (listed ref member), classes,
    methods, constructors⟩, ⟨rules, abstractClasses, lawful, keys, constructorKeys⟩⟩

theorem distinctLinks_nodup (links : List (Supertype TypeModel)) :
    ((distinctLinks links).map fun link => link.reference.name).Nodup := by
  have step : ∀ (rest found : List (Supertype TypeModel)),
      (found.map fun link => link.reference.name).Nodup →
        ((rest.foldl addLink found).map fun link => link.reference.name).Nodup := by
    intro rest
    induction rest with
    | nil => exact fun found distinct => distinct
    | cons link rest ih =>
      intro found distinct
      refine ih (addLink found link) ?_
      unfold addLink
      split
      · exact distinct
      · rename_i fresh
        rw [List.map_append, List.nodup_append]
        refine ⟨distinct, by simp, fun name old other new same => fresh ?_⟩
        subst same
        obtain ⟨first, listed, sameName⟩ := List.mem_map.mp old
        rw [List.map_singleton, List.mem_singleton] at new
        exact List.any_eq_true.mpr ⟨first, listed, by simp [sameName, new]⟩
  exact step links [] (by simp)

namespace Linking

section Admission

variable {check : ClassRef → TypeModel → Except HierarchyFault Unit} {references : List ClassRef}
  {entries : List (Supertype TypeModel)}

theorem admits_references (admitted : List.Forall₂ (Admits check) references entries) :
    entries.map Supertype.reference = references := by
  induction admitted with
  | nil => rfl
  | cons first _ ih => rw [List.map_cons, first.written, ih]

theorem admits_entry (admitted : List.Forall₂ (Admits check) references entries)
    {entry : Supertype TypeModel} (member : entry ∈ entries) : Admits check entry.reference entry := by
  induction admitted with
  | nil => simp at member
  | cons first _ ih =>
    rcases List.mem_cons.mp member with rfl | later
    · exact first.written ▸ first
    · exact ih later

end Admission

/-- The supertypes of a model are among the links it was made of. -/
theorem mem_of_mem_supertypes {d : Descriptor} {superclass interfaces : List (Supertype TypeModel)}
    {entry : Supertype TypeModel} (member : entry ∈ (modelOf d superclass.head? interfaces).supertypes) :
    entry ∈ superclass ++ interfaces := by
  rcases List.mem_append.mp member with first | listed
  · exact List.mem_append_left _ (List.mem_of_head? (by simpa [modelOf] using first))
  · exact List.mem_append_right _ (mem_of_mem_distinctLinks listed)

namespace Assembled

variable {model upper : TypeModel}

theorem of_supertype (assembled : Assembled model) (step : model.HasSupertype upper) :
    Assembled upper := by
  obtain ⟨d, superclass, interfaces, _, _, _, above⟩ := assembled
  obtain ⟨entry, member, rfl⟩ := step
  exact above entry (mem_of_mem_supertypes member)

theorem of_reaches (assembled : Assembled model) (reached : model.Reaches upper) :
    Assembled upper := by
  induction reached with
  | refl => exact assembled
  | tail _ step ih => exact ih.of_supertype step

theorem extendable (assembled : Assembled model) {reference : ClassRef}
    (admitted : checkSuperclass reference model = .ok ()) : model.declaration.Extendable reference := by
  obtain ⟨d, superclass, interfaces, _, _, _, _⟩ := assembled
  obtain ⟨isClass, notFinal, suits⟩ := checkSuperclass_iff.mp admitted
  exact ⟨isClass, notFinal, suits⟩

theorem implementable (assembled : Assembled model) {reference : ClassRef}
    (admitted : checkInterface reference model = .ok ()) :
    model.declaration.Implementable reference := by
  obtain ⟨d, superclass, interfaces, _, _, _, _⟩ := assembled
  obtain ⟨isInterface, suits⟩ := checkInterface_iff.mp admitted
  exact ⟨isInterface, suits⟩

/-- What is put together in this way is well-formed. -/
theorem wellFormed (assembled : Assembled model) : model.WellFormed := by
  obtain ⟨d, superclass, interfaces, wellFormed, extended, implemented, above⟩ := assembled
  have fewer : ∀ ref ∈ (distinctLinks interfaces).map Supertype.reference, ref ∈ d.interfaces := by
    intro ref member
    obtain ⟨entry, listed, rfl⟩ := List.mem_map.mp member
    rw [← admits_references implemented]
    exact List.mem_map_of_mem (mem_of_mem_distinctLinks listed)
  have sameName : ∀ entry ∈ superclass ++ interfaces, entry.reference.name = entry.model.name := by
    intro entry member
    rcases List.mem_append.mp member with inSuperclass | inInterfaces
    · exact (admits_entry extended inSuperclass).named.symm
    · exact (admits_entry implemented inInterfaces).named.symm
  constructor
  case declared =>
    have sameSuperclass : superclass.head?.map Supertype.reference = d.superclass := by
      rw [← List.head?_map, admits_references extended, Option.head?_toList]
    -- Interfaces that are named twice are all that the declaration may have more than the model.
    have sameDeclaration : (modelOf d superclass.head? interfaces).declaration =
        { d with interfaces := (distinctLinks interfaces).map Supertype.reference } := by
      rw [TypeModel.declaration, modelOf, sameSuperclass]
    rw [sameDeclaration]
    exact wellFormed.of_interfaces fewer
  case named =>
    intro entry member
    exact sameName entry (mem_of_mem_supertypes member)
  case superclass =>
    intro entry first
    have member : entry ∈ superclass := List.mem_of_head? first
    exact (above entry (List.mem_append_left _ member)).extendable
      (admits_entry extended member).admitted
  case interfaces =>
    intro entry listed
    have member : entry ∈ interfaces := mem_of_mem_distinctLinks listed
    exact (above entry (List.mem_append_right _ member)).implementable
      (admits_entry implemented member).admitted
  case distinct =>
    have names : (distinctLinks interfaces).map (fun link => link.model.name) =
        (distinctLinks interfaces).map fun link => link.reference.name := by
      refine List.map_congr_left fun entry listed => ?_
      exact (sameName entry (List.mem_append_right _ (mem_of_mem_distinctLinks listed))).symm
    change ((distinctLinks interfaces).map fun link => link.model.name).Nodup
    rw [names]
    exact distinctLinks_nodup interfaces

end Assembled

/-- Each name leads to a model of that name that was put together properly. -/
def Stocked (cache : Cache) : Prop :=
  ∀ entry ∈ cache, entry.2.name = entry.1 ∧ Assembled entry.2

theorem Stocked.lookup {cache : Cache} (stocked : Stocked cache) {name : QualName}
    {model : TypeModel} (known : cache.lookup name = some model) :
    model.name = name ∧ Assembled model := by
  obtain ⟨_, _, split, _⟩ := List.lookup_eq_some_iff.mp known
  exact stocked (name, model) (by simp [split])

/-- A way to link single names that keeps the cache stocked and returns what might be in it. -/
def Delivers (link : QualName → Cache → Except ResolveError TypeModel × Cache) : Prop :=
  ∀ name cache, Stocked cache → Stocked (link name cache).2 ∧
    ∀ model, (link name cache).1 = .ok model → model.name = name ∧ Assembled model

variable {link : QualName → Cache → Except ResolveError TypeModel × Cache} {cache : Cache}

theorem linkAll_delivers (delivers : Delivers link) (owner : QualName)
    (check : ClassRef → TypeModel → Except HierarchyFault Unit) (references : List ClassRef)
    (stocked : Stocked cache) :
    Stocked (linkAll link owner check references cache).2 ∧
      ∀ entries, (linkAll link owner check references cache).1 = .ok entries →
        List.Forall₂ (Admits check) references entries ∧ ∀ entry ∈ entries, Assembled entry.model := by
  induction references generalizing cache with
  | nil =>
    refine ⟨stocked, fun entries done => ?_⟩
    cases done
    exact ⟨.nil, by simp⟩
  | cons reference rest ih =>
    obtain ⟨kept, delivered⟩ := delivers reference.name cache stocked
    unfold linkAll
    split
    · rename_i failed
      rw [failed] at kept
      exact ⟨kept, by simp⟩
    · rename_i target cache' linked
      rw [linked] at kept delivered
      split
      · exact ⟨kept, by simp⟩
      · rename_i admitted
        obtain ⟨keptRest, deliveredRest⟩ := ih kept
        split
        · rename_i failed
          rw [failed] at keptRest
          exact ⟨keptRest, by simp⟩
        · rename_i entries cache'' linkedRest
          rw [linkedRest] at keptRest deliveredRest
          refine ⟨keptRest, fun all done => ?_⟩
          cases done
          obtain ⟨sameName, assembled⟩ := delivered target rfl
          obtain ⟨restAdmitted, restAssembled⟩ := deliveredRest entries rfl
          exact ⟨.cons ⟨rfl, sameName, admitted⟩ restAdmitted,
            List.forall_mem_cons.mpr ⟨assembled, restAssembled⟩⟩

theorem linkDescriptor_delivers (delivers : Delivers link) {d : Descriptor}
    (wellFormed : d.WellFormed) (stocked : Stocked cache) :
    Stocked (linkDescriptor link d cache).2 ∧ ∀ model, (linkDescriptor link d cache).1 = .ok model →
      model.name = d.name ∧ Assembled model := by
  obtain ⟨kept, delivered⟩ :=
    linkAll_delivers delivers d.name checkSuperclass d.superclass.toList stocked
  unfold linkDescriptor
  split
  · rename_i failed
    rw [failed] at kept
    exact ⟨kept, by simp⟩
  · rename_i superclass cache' linked
    rw [linked] at kept delivered
    obtain ⟨kept', delivered'⟩ := linkAll_delivers delivers d.name checkInterface d.interfaces kept
    split
    · rename_i failed
      rw [failed] at kept'
      exact ⟨kept', by simp⟩
    · rename_i interfaces cache'' linked'
      rw [linked'] at kept' delivered'
      refine ⟨kept', fun model done => ?_⟩
      cases done
      obtain ⟨extended, below⟩ := delivered superclass rfl
      obtain ⟨implemented, below'⟩ := delivered' interfaces rfl
      exact ⟨rfl, .of d superclass interfaces wellFormed extended implemented
        (List.forall_mem_append.mpr ⟨below, below'⟩)⟩

/-- Linking keeps the cache stocked, at whatever depth and whatever is in progress. -/
theorem link_delivers {load : QualName → Except ResolveError Descriptor}
    (loads : ∀ name d, load name = .ok d → d.name = name ∧ d.WellFormed) (fuel : Nat)
    (progress : List QualName) : Delivers (Linking.link load fuel progress) := by
  induction fuel generalizing progress with
  | zero =>
    intro name cache stocked
    unfold Linking.link
    split
    · rename_i model known
      refine ⟨stocked, fun found done => ?_⟩
      cases done
      exact stocked.lookup known
    · split <;> exact ⟨stocked, by simp⟩
  | succ fuel ih =>
    intro name cache stocked
    unfold Linking.link
    split
    · rename_i model known
      refine ⟨stocked, fun found done => ?_⟩
      cases done
      exact stocked.lookup known
    · split
      · exact ⟨stocked, by simp⟩
      · dsimp only
        split
        · exact ⟨stocked, by simp⟩
        · rename_i d loaded
          obtain ⟨named, wellFormed⟩ := loads name d loaded
          obtain ⟨kept, delivered⟩ :=
            linkDescriptor_delivers (ih (progress ++ [name])) wellFormed stocked
          split
          · rename_i failed
            rw [failed] at kept
            exact ⟨kept, by simp⟩
          · rename_i model cache' linked
            rw [linked] at kept delivered
            obtain ⟨sameName, assembled⟩ := delivered model rfl
            refine ⟨List.forall_mem_cons.mpr ⟨⟨sameName.trans named, assembled⟩, kept⟩,
              fun found done => ?_⟩
            cases done
            exact ⟨sameName.trans named, assembled⟩

end Linking

namespace Source

/-- A directory, or well-formed declarations. -/
inductive Accepted : Source → Prop
  | directory (root : Path) : Accepted (.directory root)
  | inMemory (label : String) (types : DescriptorIndex)
      (wellFormed : ∀ d ∈ types.descriptors, d.WellFormed) : Accepted (.inMemory label types)

theorem standardLibrary_accepted : Accepted .standardLibrary :=
  .inMemory _ _ fun d listed => ⟨standardLibrary_written d listed, standardLibrary_lawful d listed⟩

theorem ofDocument_accepted {label text : String} {source : Source}
    (built : ofDocument label text = .ok source) : source.Accepted := by
  obtain ⟨all, index, rfl, parsed, valid, listed⟩ := ofDocument_ok built
  refine .inMemory label index fun d member => ?_
  obtain ⟨element, read⟩ := Descriptor.parseAll_read parsed d (listed d member)
  exact ⟨Descriptor.ofElement_written read, Descriptor.validate_eq_ok.mp (valid d (listed d member))⟩

theorem load_wellFormed {fs : FileSystem} {source : Source} {name : QualName} {d : Descriptor}
    (accepted : source.Accepted) (loaded : source.load fs name = .ok (some d)) :
    d.name = name ∧ d.WellFormed := by
  cases accepted with
  | inMemory label types wellFormed =>
    have found : types.get? name = some d := Except.ok.inj loaded
    exact ⟨by simpa using List.find?_some found, wellFormed d (List.mem_of_find?_eq_some found)⟩
  | directory root =>
    unfold load at loaded
    dsimp only at loaded
    split at loaded
    · obtain ⟨found, file, same⟩ := map_eq_ok loaded
      cases same
      obtain ⟨text, _, parsed, named, valid⟩ := readFile_ok file
      obtain ⟨element, read⟩ := Descriptor.parseOne_read parsed
      exact ⟨named, Descriptor.ofElement_written read, Descriptor.validate_eq_ok.mp valid⟩
    · cases loaded

end Source

namespace Resolver

/-- Resolvers over the standard library, alone or behind a directory or a document, that have been
asked any number of times, whatever the files held each time. -/
inductive Opened : Resolver → Prop
  | standardLibrary : Opened ofStandardLibrary
  | directory (root : Path) : Opened (ofDirectory root)
  | document (text : String) (resolver : Resolver) (built : ofDocument text = .ok resolver) :
      Opened resolver
  | asked (fs : FileSystem) (resolver : Resolver) (name : QualName) (opened : resolver.Opened) :
      Opened (resolver.resolve fs name).2

theorem Opened.used {resolver : Resolver} (opened : resolver.Opened) : resolver.Used := by
  induction opened with
  | standardLibrary => exact ofStandardLibrary_used
  | directory root => exact ofDirectory_used root
  | document text resolver built => exact ofDocument_used built
  | asked fs resolver name _ ih => exact .asked fs resolver name ih

theorem resolve_delivers {fs : FileSystem} {resolver : Resolver} {name : QualName}
    (accepted : ∀ source ∈ resolver.sources, source.Accepted)
    (stocked : Linking.Stocked resolver.cache) :
    Linking.Stocked (resolver.resolve fs name).2.cache ∧
      ∀ model, (resolver.resolve fs name).1 = .ok model →
        model.name = name ∧ Linking.Assembled model := by
  refine Linking.link_delivers (fun other d loaded => ?_) (resolver.fuel fs) [] name resolver.cache
    stocked
  obtain ⟨source, listed, found⟩ := Source.exists_source loaded
  exact Source.load_wellFormed (accepted source listed) found

theorem Opened.stocked {resolver : Resolver} (opened : resolver.Opened) :
    (∀ source ∈ resolver.sources, source.Accepted) ∧ Linking.Stocked resolver.cache := by
  induction opened with
  | standardLibrary =>
    exact ⟨by simpa [ofStandardLibrary] using Source.standardLibrary_accepted, nofun⟩
  | directory root =>
    exact ⟨by simpa [ofDirectory] using ⟨.directory root, Source.standardLibrary_accepted⟩, nofun⟩
  | document text resolver built =>
    unfold ofDocument at built
    obtain ⟨source, read, built⟩ := bind_eq_ok built
    cases built
    exact ⟨by simpa using ⟨Source.ofDocument_accepted read, Source.standardLibrary_accepted⟩, nofun⟩
  | asked fs resolver name _ ih => exact ⟨ih.1, (resolve_delivers ih.1 ih.2).1⟩

theorem Opened.assembled {fs : FileSystem} {resolver : Resolver} {name : QualName} {root : TypeModel}
    (opened : resolver.Opened) (resolved : (resolver.resolve fs name).1 = .ok root) :
    root.name = name ∧ Linking.Assembled root := by
  obtain ⟨accepted, stocked⟩ := opened.stocked
  exact (resolve_delivers accepted stocked).2 root resolved

end Resolver

/-- Whatever a resolver returns has the name that was asked for, and everything in the hierarchy
above it is well-formed. -/
theorem resolved_wellFormed {fs : FileSystem} {resolver : Resolver} {name : QualName}
    {root : TypeModel} (opened : resolver.Opened)
    (resolved : (resolver.resolve fs name).1 = .ok root) :
    root.name = name ∧ ∀ model, root.Reaches model → model.WellFormed := by
  obtain ⟨named, assembled⟩ := opened.assembled resolved
  exact ⟨named, fun model reached => (assembled.of_reaches reached).wellFormed⟩

namespace Inline

def text : String :=
  "<types><interface name=\"A\"><typeParameter name=\"T\"/></interface>" ++
    "<class name=\"B\" abstract=\"true\"><implements type=\"A&lt;B>\"/></class></types>"

def top : Descriptor :=
  { name := ⟨"A"⟩, kind := .interface, typeParameters := [⟨"T", []⟩] }

def middle : Descriptor :=
  { name := ⟨"B"⟩, kind := .abstractClass, superclass := some ⟨.object, []⟩
    interfaces := [⟨⟨"A"⟩, [.cls ⟨"B"⟩ []]⟩] }

def resolver : Resolver where
  sources := [.inMemory "<inline descriptors>" { descriptors := [top, middle], distinct := by decide },
    .standardLibrary]

/-- `B` with `A` and `java.lang.Object`, which the standard library has. -/
def bottom : TypeModel :=
  Linking.modelOf middle
    (some ⟨⟨.object, []⟩, Linking.modelOf StandardLibrary.object none []⟩)
    [⟨⟨⟨"A"⟩, [.cls ⟨"B"⟩ []]⟩, Linking.modelOf top none []⟩]

theorem parsed : Descriptor.parseAll text = .ok [top, middle] := by decide +kernel

theorem built : Resolver.ofDocument text = .ok resolver := by
  unfold Resolver.ofDocument Source.ofDocument
  rw [parsed]
  rfl

theorem resolved : (resolver.resolve {} ⟨"B"⟩).1 = .ok bottom := rfl

end Inline

theorem inline_wellFormed : Inline.bottom.name = ⟨"B"⟩ ∧
    ∀ model, Inline.bottom.Reaches model → model.WellFormed :=
  resolved_wellFormed (.document Inline.text Inline.resolver Inline.built) Inline.resolved

end JavaStubs
