import JavaStubs.Proofs.Descriptor.Scoping
import JavaStubs.Proofs.Hierarchy.Climb
import JavaStubs.Resolver.Basic

namespace JavaStubs

namespace Source

/-- A directory, or descriptors as they are read from documents. -/
inductive Provided : Source → Prop
  | directory (root : Path) : Provided (.directory root)
  | inMemory (label : String) (types : DescriptorIndex)
      (proper : ∀ d ∈ types.descriptors, d.Proper) : Provided (.inMemory label types)

theorem standardLibrary_provided : Provided .standardLibrary := .inMemory _ _ standardLibrary_proper

/-- A file that is read describes the type that it is named for, by the rules. -/
theorem readFile_ok {fs : FileSystem} {path : Path} {name : QualName} {d : Descriptor}
    (read : readFile fs path name = .ok d) :
    ∃ text, fs.readText path = .ok text ∧ Descriptor.parseOne text = .ok d ∧ d.name = name ∧
      d.validate = .ok () := by
  unfold readFile at read
  obtain ⟨text, found, read⟩ := bind_eq_ok read
  obtain ⟨inner, written, read⟩ := bind_eq_ok read
  dsimp only at read
  split at read
  · cases read
  · rename_i named
    obtain ⟨_, valid, read⟩ := bind_eq_ok read
    cases read
    exact ⟨text, mapError_eq_ok found, mapError_eq_ok written, by simpa using named,
      mapError_eq_ok valid⟩

theorem load_spec {fs : FileSystem} {source : Source} {name : QualName} {d : Descriptor}
    (provided : source.Provided) (loaded : source.load fs name = .ok (some d)) :
    d.name = name ∧ d.Proper := by
  cases provided with
  | inMemory label types proper =>
    have found : types.get? name = some d := Except.ok.inj loaded
    exact ⟨by simpa using List.find?_some found, proper d (List.mem_of_find?_eq_some found)⟩
  | directory root =>
    unfold load at loaded
    dsimp only at loaded
    split at loaded
    · obtain ⟨found, file, same⟩ := map_eq_ok loaded
      cases same
      obtain ⟨text, _, written, named, _⟩ := readFile_ok file
      exact ⟨named, Descriptor.parseOne_proper written⟩
    · cases loaded

theorem exists_source {fs : FileSystem} {sources : List Source} {name : QualName} {d : Descriptor}
    (loaded : loadFirst fs sources name = .ok d) :
    ∃ source ∈ sources, source.load fs name = .ok (some d) := by
  induction sources with
  | nil => cases loaded
  | cons source sources ih =>
    unfold loadFirst at loaded
    obtain ⟨answer, first, loaded⟩ := bind_eq_ok loaded
    split at loaded
    · cases loaded
      exact ⟨source, List.mem_cons_self .., first⟩
    · obtain ⟨other, later, found⟩ := ih loaded
      exact ⟨other, List.mem_cons_of_mem _ later, found⟩

theorem loadFirst_spec {fs : FileSystem} {sources : List Source} {name : QualName} {d : Descriptor}
    (provided : ∀ source ∈ sources, source.Provided)
    (loaded : loadFirst fs sources name = .ok d) : d.name = name ∧ d.Proper := by
  obtain ⟨source, listed, found⟩ := exists_source loaded
  exact load_spec (provided source listed) found

end Source

theorem DescriptorIndex.mem_ofList {descriptors : List Descriptor} {index : DescriptorIndex}
    (built : ofList descriptors = .ok index) : ∀ d ∈ index.descriptors, d ∈ descriptors := by
  refine foldlM_invariant (P := fun index => ∀ d ∈ index.descriptors, d ∈ descriptors)
    (fun index d listed next before added => ?_) (by simp [empty]) built
  unfold add at added
  split at added
  · cases added
  · cases added
    intro other member
    rcases List.mem_append.mp member with old | new
    · exact before other old
    · exact List.mem_singleton.mp new ▸ listed

/-- The types of a document are read from it and keep the rules. -/
theorem Source.ofDocument_ok {label text : String} {source : Source}
    (built : ofDocument label text = .ok source) : ∃ all index, source = .inMemory label index ∧
      Descriptor.parseAll text = .ok all ∧ (∀ d ∈ all, d.validate = .ok ()) ∧
      ∀ d ∈ index.descriptors, d ∈ all := by
  unfold ofDocument at built
  obtain ⟨all, written, built⟩ := bind_eq_ok built
  obtain ⟨_, checked, built⟩ := bind_eq_ok built
  obtain ⟨index, indexed, built⟩ := bind_eq_ok built
  cases built
  refine ⟨all, index, rfl, mapError_eq_ok written, fun d member => ?_,
    DescriptorIndex.mem_ofList (mapError_eq_ok indexed)⟩
  exact mapError_eq_ok (forM_eq_ok checked d member)

/-- The types of a document make a provided source. -/
theorem Source.ofDocument_provided {label text : String} {source : Source}
    (built : ofDocument label text = .ok source) : source.Provided := by
  obtain ⟨all, index, rfl, written, _, listed⟩ := ofDocument_ok built
  exact .inMemory label index fun d member =>
    Descriptor.parseAll_proper written d (listed d member)

namespace TypeModel

def parameterNames (model : TypeModel) : List String := model.typeParameters.map TypeParameter.name

/-- What linking guarantees of one model: the declaration is proper, and so are its links. -/
structure Proper (model : TypeModel) : Prop where
  distinct : model.parameterNames.Nodup
  bounds : ∀ p ∈ model.typeParameters, p.Proper model.parameterNames
  methods : ∀ m ∈ model.methods, m.Proper model.parameterNames
  superclass : ∀ link, model.superclass = some link →
    model.isInterface = false ∧ link.model.isInterface = false
  interfaces : ∀ link ∈ model.interfaces, link.model.isInterface = true
  arguments : ∀ link ∈ model.supertypes, (∀ arg ∈ link.reference.args, arg.Proper model.parameterNames) ∧
    (link.reference.args = [] ∨ link.reference.args.length = link.model.typeParameters.length)

/-- What linking guarantees of a hierarchy. -/
structure Linked (root : TypeModel) : Prop where
  coherent : root.Coherent
  proper : ∀ model, root.Reaches model → model.Proper

end TypeModel

namespace Cache

/-- Each name leads to a proper model of that name, whose supertypes are in the cache as well. -/
structure Sound (cache : Cache) : Prop where
  named : ∀ name model, cache.lookup name = some model → model.name = name
  proper : ∀ name model, cache.lookup name = some model → model.Proper
  closed : ∀ name model, cache.lookup name = some model → ∀ link ∈ model.supertypes,
    cache.lookup link.model.name = some link.model

/-- Nothing that was cached gets lost. -/
def Extends (cache wider : Cache) : Prop :=
  ∀ name model, cache.lookup name = some model → wider.lookup name = some model

variable {cache : Cache} {name : QualName} {model : TypeModel}

theorem Extends.trans {first second third : Cache} (one : first.Extends second)
    (two : second.Extends third) : first.Extends third := fun name model known =>
  two name model (one name model known)

theorem Sound.reaches (sound : cache.Sound) {upper : TypeModel}
    (known : cache.lookup model.name = some model) (reached : model.Reaches upper) :
    cache.lookup upper.name = some upper := by
  induction reached with
  | refl => exact known
  | tail _ step ih =>
    obtain ⟨link, member, rfl⟩ := step
    exact sound.closed _ _ ih link member

/-- Cached models have linked hierarchies. -/
theorem Sound.linked (sound : cache.Sound) (known : cache.lookup name = some model) :
    model.Linked := by
  have own : cache.lookup model.name = some model := (sound.named name model known).symm ▸ known
  constructor
  · intro a b toA toB sameName
    have atA := sound.reaches own toA
    have atB := sound.reaches own toB
    rw [sameName] at atA
    exact Option.some.inj (atA.symm.trans atB)
  · intro upper reached
    exact sound.proper _ _ (sound.reaches own reached)

/-- A new model whose supertypes are cached may be added. -/
theorem Sound.insert (sound : cache.Sound) (absent : cache.lookup name = none)
    (named : model.name = name) (proper : model.Proper)
    (above : ∀ link ∈ model.supertypes, cache.lookup link.model.name = some link.model) :
    Sound ((name, model) :: cache) ∧ cache.Extends ((name, model) :: cache) := by
  have extended : cache.Extends ((name, model) :: cache) := by
    intro other found known
    have different : other ≠ name := by
      rintro rfl
      simp [absent] at known
    simpa [List.lookup_cons, beq_false_of_ne different] using known
  have origin : ∀ other found, List.lookup other ((name, model) :: cache) = some found →
      (other = name ∧ found = model) ∨ cache.lookup other = some found := by
    intro other found known
    by_cases same : other = name
    · left
      simpa [List.lookup_cons, same, eq_comm] using known
    · right
      simpa [List.lookup_cons, beq_false_of_ne same] using known
  refine ⟨⟨?_, ?_, ?_⟩, extended⟩
  · intro other found known
    rcases origin other found known with ⟨rfl, rfl⟩ | old
    · exact named
    · exact sound.named other found old
  · intro other found known
    rcases origin other found known with ⟨rfl, rfl⟩ | old
    · exact proper
    · exact sound.proper other found old
  · intro other found known link member
    rcases origin other found known with ⟨rfl, rfl⟩ | old
    · exact extended _ _ (above link member)
    · exact extended _ _ (sound.closed other found old link member)

end Cache

namespace Linking

variable {progress : List QualName}

/-- Names in progress are never cached. -/
def Apart (progress : List QualName) (cache : Cache) : Prop := ∀ name ∈ progress, cache.lookup name = none

/-- What a step of linking does to the cache, whether or not it succeeds. -/
structure Keeps (progress : List QualName) (before after : Cache) : Prop where
  sound : after.Sound
  extended : before.Extends after
  apart : Apart progress after

theorem Keeps.refl {cache : Cache} (sound : cache.Sound) (apart : Apart progress cache) :
    Keeps progress cache cache := ⟨sound, fun _ _ known => known, apart⟩

theorem Keeps.trans {first second third : Cache} (one : Keeps progress first second)
    (two : Keeps progress second third) : Keeps progress first third :=
  ⟨two.sound, one.extended.trans two.extended, two.apart⟩

/-- A way to link single names that keeps the cache and leaves in it what it returns. -/
def Links (link : QualName → Cache → Except ResolveError TypeModel × Cache)
    (progress : List QualName) : Prop :=
  ∀ name cache, cache.Sound → Apart progress cache → Keeps progress cache (link name cache).2 ∧
    ∀ model, (link name cache).1 = .ok model → (link name cache).2.lookup name = some model

variable {link : QualName → Cache → Except ResolveError TypeModel × Cache} {owner : QualName}
  {check : ClassRef → TypeModel → Except HierarchyFault Unit}

theorem linkAll_keeps (links : Links link progress) (references : List ClassRef) {cache : Cache}
    (sound : cache.Sound) (apart : Apart progress cache) :
    Keeps progress cache (linkAll link owner check references cache).2 ∧
      ∀ found, (linkAll link owner check references cache).1 = .ok found →
        ∀ entry ∈ found, entry.reference ∈ references ∧ check entry.reference entry.model = .ok () ∧
          (linkAll link owner check references cache).2.lookup entry.reference.name =
            some entry.model := by
  induction references generalizing cache with
  | nil =>
    refine ⟨.refl sound apart, fun found done => ?_⟩
    cases done
    simp
  | cons reference rest ih =>
    obtain ⟨kept, cached⟩ := links reference.name cache sound apart
    unfold linkAll
    split
    · rename_i failed
      rw [failed] at kept
      exact ⟨kept, fun found done => by cases done⟩
    · rename_i target cache' linked
      rw [linked] at kept cached
      split
      · exact ⟨kept, fun found done => by cases done⟩
      · rename_i checked
        obtain ⟨keptRest, cachedRest⟩ := ih kept.sound kept.apart
        split
        · rename_i failed
          rw [failed] at keptRest
          exact ⟨kept.trans keptRest, fun found done => by cases done⟩
        · rename_i found cache'' linkedRest
          rw [linkedRest] at keptRest cachedRest
          refine ⟨kept.trans keptRest, fun all done => ?_⟩
          cases done
          intro entry member
          rcases List.mem_cons.mp member with rfl | later
          · exact ⟨List.mem_cons_self .., checked,
              keptRest.extended _ _ (cached target rfl)⟩
          · obtain ⟨listed, admitted, inCache⟩ := cachedRest found rfl entry later
            exact ⟨List.mem_cons_of_mem _ listed, admitted, inCache⟩

theorem checkArguments_ok {reference : ClassRef} {target : TypeModel}
    (checked : checkArguments reference target = .ok ()) :
    reference.args = [] ∨ reference.args.length = target.typeParameters.length := by
  unfold checkArguments at checked
  split at checked
  · rename_i empty
    exact Or.inl (by simpa using empty)
  · split at checked
    · cases checked
    · rename_i sameLength
      exact Or.inr (by simpa using sameLength)

theorem checkSuperclass_ok {reference : ClassRef} {target : TypeModel}
    (checked : checkSuperclass reference target = .ok ()) :
    target.isInterface = false ∧ checkArguments reference target = .ok () := by
  unfold checkSuperclass at checked
  split at checked
  · cases checked
  · rename_i isClass
    split at checked
    · cases checked
    · exact ⟨by simpa using isClass, checked⟩

theorem checkInterface_ok {reference : ClassRef} {target : TypeModel}
    (checked : checkInterface reference target = .ok ()) :
    target.isInterface = true ∧ checkArguments reference target = .ok () := by
  unfold checkInterface at checked
  split at checked
  · rename_i isInterface
    exact ⟨isInterface, checked⟩
  · cases checked

theorem mem_of_mem_distinctLinks {links : List (Supertype TypeModel)} {link : Supertype TypeModel}
    (member : link ∈ distinctLinks links) : link ∈ links := by
  have only : ∀ (rest found : List (Supertype TypeModel)),
      ∀ link ∈ rest.foldl addLink found, link ∈ found ∨ link ∈ rest := by
    intro rest
    induction rest with
    | nil => exact fun found link member => Or.inl member
    | cons first rest ih =>
      intro found link member
      rcases ih (addLink found first) link member with known | later
      · unfold addLink at known
        split at known
        · exact Or.inl known
        · rcases List.mem_append.mp known with old | new
          · exact Or.inl old
          · exact Or.inr (List.mem_singleton.mp new ▸ List.mem_cons_self ..)
      · exact Or.inr (List.mem_cons_of_mem _ later)
  simpa using only links [] link member

/-- A proper declaration with checked links is a proper model. -/
theorem modelOf_proper {d : Descriptor} {superclass : Option (Supertype TypeModel)}
    {interfaces : List (Supertype TypeModel)} (proper : d.Proper)
    (extended : ∀ link ∈ superclass, link.reference ∈ d.superclass.toList ∧
      checkSuperclass link.reference link.model = .ok ())
    (implemented : ∀ link ∈ interfaces, link.reference ∈ d.interfaces ∧
      checkInterface link.reference link.model = .ok ()) :
    (modelOf d superclass interfaces).Proper := by
  constructor
  case distinct => exact proper.distinct
  case bounds => exact proper.bounds
  case methods => exact proper.methods
  case superclass =>
    intro link above
    obtain ⟨listed, checked⟩ := extended link above
    refine ⟨?_, (checkSuperclass_ok checked).1⟩
    cases kind : d.kind with
    | interface => simp [proper.interfaces kind] at listed
    | _ => simp [TypeModel.isInterface, modelOf, kind]
  case interfaces =>
    intro link above
    exact (checkInterface_ok (implemented link (mem_of_mem_distinctLinks above)).2).1
  case arguments =>
    intro link member
    rcases List.mem_append.mp member with above | above
    · obtain ⟨listed, checked⟩ := extended link (by simpa [modelOf] using above)
      exact ⟨proper.references _ (List.mem_append_left _ listed),
        checkArguments_ok (checkSuperclass_ok checked).2⟩
    · obtain ⟨listed, checked⟩ := implemented link (mem_of_mem_distinctLinks above)
      exact ⟨proper.references _ (List.mem_append_right _ listed),
        checkArguments_ok (checkInterface_ok checked).2⟩

theorem linkDescriptor_keeps (links : Links link progress) {d : Descriptor} (proper : d.Proper)
    {cache : Cache} (sound : cache.Sound) (apart : Apart progress cache) :
    Keeps progress cache (linkDescriptor link d cache).2 ∧
      ∀ model, (linkDescriptor link d cache).1 = .ok model → model.name = d.name ∧ model.Proper ∧
        ∀ entry ∈ model.supertypes,
          (linkDescriptor link d cache).2.lookup entry.model.name = some entry.model := by
  obtain ⟨kept, cached⟩ := @linkAll_keeps progress link d.name checkSuperclass links
    d.superclass.toList cache sound apart
  unfold linkDescriptor
  split
  · rename_i failed
    rw [failed] at kept
    exact ⟨kept, fun model done => by cases done⟩
  · rename_i superclass cache' linked
    rw [linked] at kept cached
    obtain ⟨kept', cached'⟩ := @linkAll_keeps progress link d.name checkInterface links d.interfaces
      cache' kept.sound kept.apart
    split
    · rename_i failed
      rw [failed] at kept'
      exact ⟨kept.trans kept', fun model done => by cases done⟩
    · rename_i interfaces cache'' linked'
      rw [linked'] at kept' cached'
      refine ⟨kept.trans kept', fun model done => ?_⟩
      cases done
      have above : ∀ entry ∈ superclass ++ interfaces,
          cache''.lookup entry.model.name = some entry.model := by
        intro entry member
        have known : cache''.lookup entry.reference.name = some entry.model := by
          rcases List.mem_append.mp member with extended | implemented
          · exact kept'.extended _ _ (cached _ rfl entry extended).2.2
          · exact (cached' _ rfl entry implemented).2.2
        rw [kept'.sound.named _ _ known]
        exact known
      refine ⟨rfl, modelOf_proper proper ?_ ?_, ?_⟩
      · intro entry first
        obtain ⟨listed, checked, _⟩ := cached _ rfl entry (List.mem_of_head? first)
        exact ⟨listed, checked⟩
      · intro entry member
        obtain ⟨listed, checked, _⟩ := cached' _ rfl entry member
        exact ⟨listed, checked⟩
      · intro entry member
        refine above entry ?_
        rcases List.mem_append.mp member with first | listed
        · exact List.mem_append_left _ (List.mem_of_head? (by simpa [modelOf] using first))
        · exact List.mem_append_right _ (mem_of_mem_distinctLinks listed)

/-- Linking keeps the cache sound, at whatever depth and whatever is in progress. -/
theorem link_links {load : QualName → Except ResolveError Descriptor}
    (loads : ∀ name d, load name = .ok d → d.name = name ∧ d.Proper) (fuel : Nat)
    (progress : List QualName) : Links (Linking.link load fuel progress) progress := by
  induction fuel generalizing progress with
  | zero =>
    intro name cache sound apart
    unfold Linking.link
    split
    · rename_i model known
      exact ⟨.refl sound apart, fun found done => by cases done; exact known⟩
    · split <;> exact ⟨.refl sound apart, fun found done => by cases done⟩
  | succ fuel ih =>
    intro name cache sound apart
    unfold Linking.link
    split
    · rename_i model known
      exact ⟨.refl sound apart, fun found done => by cases done; exact known⟩
    · rename_i unknown
      split
      · exact ⟨.refl sound apart, fun found done => by cases done⟩
      · rename_i fresh
        dsimp only
        split
        · exact ⟨.refl sound apart, fun found done => by cases done⟩
        · rename_i d loaded
          obtain ⟨named, proper⟩ := loads name d loaded
          -- The name itself is in progress now, so nothing below can cache it.
          have apart' : Apart (progress ++ [name]) cache := by
            intro other member
            rcases List.mem_append.mp member with old | new
            · exact apart other old
            · exact List.mem_singleton.mp new ▸ unknown
          obtain ⟨kept, linked⟩ := linkDescriptor_keeps (ih (progress ++ [name])) proper sound apart'
          have apartOld {cache : Cache} (all : Apart (progress ++ [name]) cache) : Apart progress cache :=
            fun other member => all other (List.mem_append_left _ member)
          split
          · rename_i failed
            rw [failed] at kept
            exact ⟨⟨kept.sound, kept.extended, apartOld kept.apart⟩, fun found done => by cases done⟩
          · rename_i model cache' done
            rw [done] at kept linked
            obtain ⟨sameName, properModel, above⟩ := linked model rfl
            have absent := kept.apart name (by simp)
            obtain ⟨sound', extended⟩ :=
              kept.sound.insert absent (sameName.trans named) properModel above
            refine ⟨⟨sound', kept.extended.trans extended, ?_⟩, fun found same => ?_⟩
            · intro other member
              have different : other ≠ name := fun same => fresh (same ▸ member)
              simpa [List.lookup_cons, beq_false_of_ne different] using apartOld kept.apart other member
            · cases same
              simp

end Linking

namespace Resolver

/-- Resolvers as programs get them: made over provided sources and then asked any number of times,
whatever the files hold each time. -/
inductive Used : Resolver → Prop
  | new (sources : List Source) (provided : ∀ source ∈ sources, source.Provided) : Used { sources }
  | asked (fs : FileSystem) (resolver : Resolver) (name : QualName) (used : resolver.Used) :
      Used (resolver.resolve fs name).2

theorem ofStandardLibrary_used : ofStandardLibrary.Used :=
  .new _ (by simpa using Source.standardLibrary_provided)

theorem ofDirectory_used (root : Path) : (ofDirectory root).Used :=
  .new _ (by simpa using ⟨.directory root, Source.standardLibrary_provided⟩)

theorem ofDocument_used {text : String} {resolver : Resolver}
    (built : ofDocument text = .ok resolver) : resolver.Used := by
  unfold ofDocument at built
  obtain ⟨source, read, built⟩ := bind_eq_ok built
  cases built
  exact .new _ (by simpa using ⟨Source.ofDocument_provided read, Source.standardLibrary_provided⟩)

theorem resolve_keeps {fs : FileSystem} {resolver : Resolver} {name : QualName}
    (provided : ∀ source ∈ resolver.sources, source.Provided) (sound : resolver.cache.Sound) :
    Linking.Keeps [] resolver.cache (resolver.resolve fs name).2.cache ∧
      ∀ model, (resolver.resolve fs name).1 = .ok model →
        (resolver.resolve fs name).2.cache.lookup name = some model :=
  Linking.link_links (fun _ _ loaded => Source.loadFirst_spec provided loaded) (resolver.fuel fs) []
    name resolver.cache sound (by simp [Linking.Apart])

theorem Used.sound {resolver : Resolver} (used : resolver.Used) :
    (∀ source ∈ resolver.sources, source.Provided) ∧ resolver.cache.Sound := by
  induction used with
  | new sources provided => exact ⟨provided, by constructor <;> simp⟩
  | asked fs resolver name _ ih => exact ⟨ih.1, (resolve_keeps ih.1 ih.2).1.sound⟩

/-- Whatever a resolver returns has a linked hierarchy. -/
theorem Used.linked {fs : FileSystem} {resolver : Resolver} {name : QualName} {root : TypeModel}
    (used : resolver.Used) (resolved : (resolver.resolve fs name).1 = .ok root) : root.Linked := by
  obtain ⟨provided, sound⟩ := used.sound
  obtain ⟨kept, cached⟩ := @resolve_keeps fs resolver name provided sound
  exact kept.sound.linked (cached root resolved)

theorem Used.lookup_linked {fs : FileSystem} {resolver : Resolver} {name : QualName} {model : TypeModel}
    (used : resolver.Used) (found : resolver.lookup fs name = some model) : model.Linked := by
  unfold lookup at found
  cases answer : (resolver.resolve fs name).1 with
  | error reason => simp [answer, Except.toOption] at found
  | ok root =>
    rw [answer] at found
    exact Option.some.inj found ▸ used.linked answer

end Resolver

end JavaStubs
