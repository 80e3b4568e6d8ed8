import JavaStubs.Proofs.Resolver.Direct
import JavaStubs.Proofs.Resolver.Linked
import Mathlib.Data.List.Nodup
import Mathlib.Data.List.Perm.Subperm

namespace JavaStubs

namespace Linking

/-- What is cached is what linking anew gives. -/
def Faithful (load : QualName → Except ResolveError Descriptor) (cache : Cache) : Prop :=
  ∀ name model, cache.lookup name = some model →
    ∃ fuel progress, direct load fuel progress name = .ok model

section References

variable {link : QualName → Cache → Except ResolveError TypeModel × Cache}
  {anew : QualName → Except ResolveError TypeModel} {owner : QualName}
  {check : ClassRef → TypeModel → Except HierarchyFault Unit} {cache : Cache}

/-- Linking a name gives what linking it anew gives, and keeps what is known of the cache. -/
def Follows (link : QualName → Cache → Except ResolveError TypeModel × Cache)
    (anew : QualName → Except ResolveError TypeModel) (Good : Cache → Prop) (name : QualName) :
    Prop :=
  ∀ cache, Good cache → (link name cache).1 = anew name ∧ Good (link name cache).2

theorem directAll_cons (reference : ClassRef) (rest : List ClassRef) :
    directAll anew owner check (reference :: rest) = (do
      let target ← anew reference.name
      (check reference target).mapError (.hierarchy owner)
      let links ← directAll anew owner check rest
      return ⟨reference, target⟩ :: links) := by
  simp [directAll, List.mapM_cons]

variable (owner check) in
theorem linkAll_follows {Good : Cache → Prop} {references : List ClassRef}
    (each : ∀ reference ∈ references, Follows link anew Good reference.name) (good : Good cache) :
    (linkAll link owner check references cache).1 = directAll anew owner check references ∧
      Good (linkAll link owner check references cache).2 := by
  induction references generalizing cache with
  | nil => exact ⟨rfl, good⟩
  | cons reference rest ih =>
    obtain ⟨same, kept⟩ := each reference (List.mem_cons_self ..) cache good
    rw [directAll_cons, ← same]
    unfold linkAll
    split
    · rename_i failed
      rw [failed] at kept ⊢
      exact ⟨rfl, kept⟩
    · rename_i target cache' linked
      rw [linked] at kept ⊢
      rw [ok_bind]
      split
      · rename_i fault refused
        rw [refused]
        exact ⟨rfl, kept⟩
      · rename_i admitted
        obtain ⟨sameRest, keptRest⟩ :=
          ih (fun other later => each other (List.mem_cons_of_mem _ later)) kept
        rw [admitted, ← sameRest]
        split
        · rename_i failed
          rw [failed] at keptRest ⊢
          exact ⟨rfl, keptRest⟩
        · rename_i links cache'' linkedRest
          rw [linkedRest] at keptRest ⊢
          exact ⟨rfl, keptRest⟩

theorem linkDescriptor_follows {Good : Cache → Prop} {d : Descriptor}
    (each : ∀ reference ∈ d.references, Follows link anew Good reference.name) (good : Good cache) :
    (linkDescriptor link d cache).1 = directDescriptor anew d ∧
      Good (linkDescriptor link d cache).2 := by
  obtain ⟨same, kept⟩ := linkAll_follows d.name checkSuperclass
    (fun reference above => each reference (List.mem_append_left _ above)) good
  rw [directDescriptor, ← same]
  unfold linkDescriptor
  split
  · rename_i failed
    rw [failed] at kept ⊢
    exact ⟨rfl, kept⟩
  · rename_i superclass cache' linked
    rw [linked] at kept ⊢
    obtain ⟨same', kept'⟩ := linkAll_follows d.name checkInterface
      (fun reference listed => each reference (List.mem_append_right _ listed)) kept
    rw [ok_bind, ← same']
    split
    · rename_i failed
      rw [failed] at kept' ⊢
      exact ⟨rfl, kept'⟩
    · rename_i interfaces cache'' linked'
      rw [linked'] at kept' ⊢
      exact ⟨rfl, kept'⟩

end References

variable {load : QualName → Except ResolveError Descriptor} {limit fuel : Nat}
  {progress : List QualName} {name : QualName} {cache : Cache}

theorem direct_of_mem (member : name ∈ progress) :
    direct load fuel progress name = .error (.circular (progress ++ [name])) := by
  unfold direct
  rw [if_pos member]

theorem direct_of_not_mem (fresh : name ∉ progress) : direct load (fuel + 1) progress name =
    load name >>= directDescriptor (direct load fuel (progress ++ [name])) := by
  rw [direct, if_neg fresh]

/-- A cached name is not on a cycle, so it does not lead back to the names in progress, all of which
lead to it: linking it anew would succeed here as it did before. -/
theorem Faithful.direct (faithful : Faithful load cache) (supply : Supply load limit)
    (room : Room load limit fuel progress)
    (behind : ∀ p ∈ progress, Relation.TransGen (Refers load) p name) {model : TypeModel}
    (known : cache.lookup name = some model) : direct load fuel progress name = .ok model := by
  obtain ⟨_, _, before⟩ := faithful name model known
  have apart : ∀ p ∈ progress, ¬ Leads load name p := fun p member back =>
    direct_not_circular before (Relation.TransGen.trans_right back (behind p member))
  obtain ⟨again, linked⟩ := exists_direct supply (linkable_of_direct before) room apart
  rw [linked, direct_unique before linked]

/-- Linking with a faithful cache gives what linking anew gives, and leaves the cache faithful. -/
theorem link_follows (supply : Supply load limit) (room : Room load limit fuel progress)
    (behind : ∀ p ∈ progress, Relation.TransGen (Refers load) p name) :
    Follows (link load fuel progress) (direct load fuel progress) (Faithful load) name := by
  induction fuel generalizing progress name with
  | zero =>
    obtain ⟨_, impossible⟩ := room.exists_succ supply
    cases impossible
  | succ fuel ih =>
    intro cache faithful
    unfold link
    split
    · rename_i model known
      exact ⟨(faithful.direct supply room behind known).symm, faithful⟩
    · split
      · rename_i member
        exact ⟨(direct_of_mem member).symm, faithful⟩
      · rename_i fresh
        rw [direct_of_not_mem fresh]
        dsimp only
        split
        · rename_i failed
          rw [failed]
          exact ⟨rfl, faithful⟩
        · rename_i d loaded
          have each : ∀ reference ∈ d.references, Follows (link load fuel (progress ++ [name]))
              (direct load fuel (progress ++ [name])) (Faithful load) reference.name := by
            intro reference listed
            have refers : Refers load name reference.name := ⟨d, loaded, reference, listed, rfl⟩
            refine ih (room.step fresh loaded) fun p member => ?_
            rcases List.mem_append.mp member with old | new
            · exact (behind p old).tail refers
            · exact List.mem_singleton.mp new ▸ .single refers
          obtain ⟨same, kept⟩ := linkDescriptor_follows each faithful
          rw [loaded, ok_bind, ← same]
          split
          · rename_i failed
            rw [failed] at kept ⊢
            exact ⟨rfl, kept⟩
          · rename_i model cache' linked
            rw [linked] at same kept ⊢
            refine ⟨rfl, fun other found known => ?_⟩
            by_cases here : other = name
            · subst here
              cases (by simpa using known : model = found)
              refine ⟨fuel + 1, progress, ?_⟩
              rw [direct_of_not_mem fresh, loaded, ok_bind, ← same]
            · exact kept other found (by simpa [List.lookup_cons, beq_false_of_ne here] using known)

end Linking

namespace Source

variable {fs : FileSystem} {names : List QualName}

theorem inMemory_length_le {types : DescriptorIndex} (distinct : names.Nodup)
    (known : ∀ name ∈ names, ∃ d, types.get? name = some d) : names.length ≤ types.size := by
  have listed : names ⊆ types.descriptors.map Descriptor.name := by
    intro name member
    obtain ⟨d, found⟩ := known name member
    have named : d.name = name := by simpa using List.find?_some found
    exact named ▸ List.mem_map_of_mem (List.mem_of_find?_eq_some found)
  simpa [DescriptorIndex.size] using (List.subperm_of_subset distinct listed).length_le

/-- What is read at a place says for which name it was put there. -/
theorem readFile_name_unique {path path' : Path} {name name' : QualName} {d d' : Descriptor}
    (same : fs.locate path = fs.locate path') (read : readFile fs path name = .ok d)
    (read' : readFile fs path' name' = .ok d') : name = name' := by
  have sameText : fs.readText path = fs.readText path' := by
    unfold FileSystem.readText
    rw [same]
  obtain ⟨text, found, written, rfl, _⟩ := readFile_ok read
  obtain ⟨text', found', written', rfl, _⟩ := readFile_ok read'
  cases (found.symm.trans sameText).trans found'
  cases written.symm.trans written'
  rfl

theorem exists_place {path : Path} (isFile : fs.isFile path = true) :
    ∃ place ∈ fs.nodes.map Prod.fst, fs.locate path = .ok place := by
  unfold FileSystem.isFile FileSystem.nodeAt? at isFile
  cases located : fs.locate path with
  | error fault => simp [located, Except.toOption] at isFile
  | ok place =>
    refine ⟨place, ?_, rfl⟩
    rw [located] at isFile
    simp only [Except.toOption, Option.bind_some, FileSystem.node?] at isFile
    split at isFile
    · rename_i content found
      split at found
      · cases found
      · obtain ⟨before, after, split, _⟩ := List.lookup_eq_some_iff.mp found
        simp [split]
    · cases isFile

/-- Each name that a directory describes has a place of its own. -/
theorem directory_length_le (root : Path) (distinct : names.Nodup)
    (known : ∀ name ∈ names, fs.isFile (pathFor root name) = true ∧
      ∃ d, readFile fs (pathFor root name) name = .ok d) : names.length ≤ fs.nodes.length := by
  let placeOf (name : QualName) : Place := (fs.locate (pathFor root name)).toOption.getD []
  have located : ∀ name ∈ names, fs.locate (pathFor root name) = .ok (placeOf name) ∧
      placeOf name ∈ fs.nodes.map Prod.fst := by
    intro name member
    obtain ⟨place, listed, found⟩ := exists_place (known name member).1
    have same : placeOf name = place := by simp [placeOf, found, Except.toOption]
    exact ⟨same ▸ found, same ▸ listed⟩
  have distinctPlaces : (names.map placeOf).Nodup := by
    refine List.Nodup.map_on (fun name member name' member' same => ?_) distinct
    obtain ⟨_, read⟩ := (known name member).2
    obtain ⟨_, read'⟩ := (known name' member').2
    refine readFile_name_unique ?_ read read'
    rw [(located name member).1, (located name' member').1, same]
  have listed : names.map placeOf ⊆ fs.nodes.map Prod.fst := by
    intro place member
    obtain ⟨name, inside, rfl⟩ := List.mem_map.mp member
    exact (located name inside).2
  simpa using (List.subperm_of_subset distinctPlaces listed).length_le

theorem length_le_size {source : Source} (distinct : names.Nodup)
    (known : ∀ name ∈ names, ∃ d, source.load fs name = .ok (some d)) :
    names.length ≤ source.size fs := by
  cases source with
  | inMemory label types =>
    refine inMemory_length_le distinct fun name member => ?_
    obtain ⟨d, loaded⟩ := known name member
    exact ⟨d, Except.ok.inj loaded⟩
  | directory root =>
    refine directory_length_le root distinct fun name member => ?_
    obtain ⟨d, loaded⟩ := known name member
    unfold load at loaded
    dsimp only at loaded
    split at loaded
    · rename_i isFile
      obtain ⟨found, read, same⟩ := map_eq_ok loaded
      exact ⟨isFile, found, read⟩
    · cases loaded

/-- The sources describe fewer names than there is fuel. -/
theorem loadFirst_supply (fs : FileSystem) (sources : List Source) :
    Linking.Supply (loadFirst fs sources)
      (sources.foldr (fun source total => source.size fs + total) 1) := by
  induction sources with
  | nil =>
    intro names _ known
    cases names with
    | nil => simp
    | cons name names =>
      obtain ⟨_, loaded⟩ := known name (List.mem_cons_self ..)
      cases loaded
  | cons source sources ih =>
    intro names distinct known
    let knows (name : QualName) : Bool := (source.load fs name).toOption.join.isSome
    have first : (names.filter knows).length ≤ source.size fs := by
      refine length_le_size (distinct.filter _) fun name member => ?_
      have found := (List.mem_filter.mp member).2
      cases answer : source.load fs name with
      | error error => simp [knows, answer, Except.toOption] at found
      | ok found' =>
        cases found' with
        | none => simp [knows, answer, Except.toOption] at found
        | some d => exact ⟨d, rfl⟩
    have others := ih (names.filter (!knows ·)) (distinct.filter _) (fun name member => by
      obtain ⟨inside, unknown⟩ := List.mem_filter.mp member
      obtain ⟨d, loaded⟩ := known name inside
      unfold loadFirst at loaded
      obtain ⟨answer, asked, loaded⟩ := bind_eq_ok loaded
      cases answer with
      | none => exact ⟨d, loaded⟩
      | some found => simp [knows, asked, Except.toOption] at unknown)
    have total := List.length_eq_length_filter_add (l := names) knows
    simp only [List.foldr_cons]
    omega

theorem loadFirst_congr {fs fs' : FileSystem} {sources : List Source}
    (steady : ∀ source ∈ sources, ∀ name, source.load fs name = source.load fs' name) :
    loadFirst fs sources = loadFirst fs' sources := by
  funext name
  induction sources with
  | nil => rfl
  | cons source sources ih =>
    rw [loadFirst, loadFirst, steady source (List.mem_cons_self ..),
      ih fun other later => steady other (List.mem_cons_of_mem _ later)]

end Source

namespace Resolver

theorem room_nil {load : QualName → Except ResolveError Descriptor} (limit : Nat) :
    Linking.Room load limit limit [] := ⟨.nil, by simp, by simp⟩

/-- A resolver with a faithful cache answers as if it linked everything anew. -/
theorem resolve_follows (fs : FileSystem) (resolver : Resolver) (name : QualName)
    (faithful : Linking.Faithful (Source.loadFirst fs resolver.sources) resolver.cache) :
    (resolver.resolve fs name).1 =
        Linking.direct (Source.loadFirst fs resolver.sources) (resolver.fuel fs) [] name ∧
      Linking.Faithful (Source.loadFirst fs resolver.sources) (resolver.resolve fs name).2.cache :=
  Linking.link_follows (Source.loadFirst_supply fs resolver.sources) (room_nil _) (by simp)
    resolver.cache faithful

/-- The answers to calls that are made one after the other, each on the files of its time. -/
def answers : Resolver → List (FileSystem × QualName) → List (Except ResolveError TypeModel)
  | _, [] => []
  | resolver, (fs, name) :: calls =>
    (resolver.resolve fs name).1 :: answers (resolver.resolve fs name).2 calls

/-- Answers from a faithful cache are answers without one. -/
theorem answers_eq_direct {load : QualName → Except ResolveError Descriptor} {resolver : Resolver}
    {calls : List (FileSystem × QualName)}
    (steady : ∀ call ∈ calls, Source.loadFirst call.1 resolver.sources = load)
    (faithful : Linking.Faithful load resolver.cache) : resolver.answers calls =
      calls.map fun call => Linking.direct load (resolver.fuel call.1) [] call.2 := by
  induction calls generalizing resolver with
  | nil => rfl
  | cons call calls ih =>
    obtain ⟨fs, name⟩ := call
    obtain rfl := steady (fs, name) (List.mem_cons_self ..)
    obtain ⟨first, kept⟩ := resolve_follows fs resolver name faithful
    have rest := @ih (resolver.resolve fs name).2
      (fun call later => steady call (List.mem_cons_of_mem _ later)) kept
    rw [answers, List.map_cons, first, rest]
    rfl

end Resolver

/-- While the sources keep to their answers, each call returns what it returns on a new resolver,
whatever was asked before it. -/
theorem answers_eq_fresh {sources : List Source} {calls : List (FileSystem × QualName)}
    (steady : ∀ call ∈ calls, ∀ other ∈ calls, ∀ source ∈ sources, ∀ name,
      source.load call.1 name = source.load other.1 name) :
    Resolver.answers { sources } calls =
      calls.map fun call => (({ sources } : Resolver).resolve call.1 call.2).1 := by
  cases calls with
  | nil => rfl
  | cons first rest =>
    have load : ∀ call ∈ first :: rest,
        Source.loadFirst call.1 sources = Source.loadFirst first.1 sources := fun call member =>
      Source.loadFirst_congr (steady call member first (List.mem_cons_self ..))
    rw [Resolver.answers_eq_direct load (by simp [Linking.Faithful])]
    refine List.map_congr_left fun call member => ?_
    obtain ⟨fresh, _⟩ := Resolver.resolve_follows call.1 { sources } call.2
      (by simp [Linking.Faithful])
    rw [fresh, load call member]

namespace Tangled

/-- Asking for `A` fails, as `A` and `C` extend each other, but it leaves `B` in the cache. -/
def types : DescriptorIndex where
  descriptors := [
    { name := ⟨"A"⟩, kind := .interface, interfaces := [⟨⟨"B"⟩, []⟩, ⟨⟨"C"⟩, []⟩] },
    { name := ⟨"B"⟩, kind := .interface },
    { name := ⟨"C"⟩, kind := .interface, interfaces := [⟨⟨"B"⟩, []⟩, ⟨⟨"A"⟩, []⟩] }]
  distinct := by decide

def sources : List Source := [.inMemory "tangled" types]

/-- Between the calls a directory appears, which the source does not look at. -/
def calls : List (FileSystem × QualName) :=
  [({}, ⟨"A"⟩), ({ nodes := [(["B"], .directory)] }, ⟨"B"⟩), ({}, ⟨"C"⟩)]

theorem steady : ∀ call ∈ calls, ∀ other ∈ calls, ∀ source ∈ sources, ∀ name,
    source.load call.1 name = source.load other.1 name := by
  intro call _ other _ source listed name
  rw [List.mem_singleton.mp listed]
  rfl

end Tangled

theorem tangled_answers_eq_fresh :
    Resolver.answers { sources := Tangled.sources } Tangled.calls = [
      .error (.circular [⟨"A"⟩, ⟨"C"⟩, ⟨"A"⟩]),
      .ok { name := ⟨"B"⟩, kind := .interface },
      .error (.circular [⟨"C"⟩, ⟨"A"⟩, ⟨"C"⟩])] := by
  rw [answers_eq_fresh Tangled.steady]
  rfl

end JavaStubs
