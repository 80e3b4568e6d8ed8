import JavaStubs.Proofs.Descriptor.Listing
import JavaStubs.Proofs.Resolver.Assembled
import JavaStubs.Proofs.Resolver.Location
import JavaStubs.Proofs.Resolver.Outcome

namespace JavaStubs

namespace Linking

variable {load load' : QualName → Except ResolveError Descriptor} {Good : QualName → Prop}

theorem directAll_congr {anew anew' : QualName → Except ResolveError TypeModel} {owner : QualName}
    {check : ClassRef → TypeModel → Except HierarchyFault Unit} {references : List ClassRef}
    (same : ∀ reference ∈ references, anew reference.name = anew' reference.name) :
    directAll anew owner check references = directAll anew' owner check references := by
  induction references with
  | nil => rfl
  | cons reference rest ih =>
    obtain ⟨here, later⟩ := List.forall_mem_cons.mp same
    rw [directAll_cons, directAll_cons, here, ih later]

theorem directDescriptor_congr {anew anew' : QualName → Except ResolveError TypeModel} {d : Descriptor}
    (same : ∀ reference ∈ d.references, anew reference.name = anew' reference.name) :
    directDescriptor anew d = directDescriptor anew' d := by
  have above := fun reference listed => same reference (List.mem_append_left _ listed)
  have beside := fun reference listed => same reference (List.mem_append_right _ listed)
  rw [directDescriptor, directDescriptor, directAll_congr above, directAll_congr beside]

/-- Linking asks for names that references lead to, so it is enough to agree on these. -/
theorem direct_congr (same : ∀ name, Good name → load name = load' name)
    (closed : ∀ name d, Good name → load name = .ok d → ∀ reference ∈ d.references, Good reference.name)
    {fuel : Nat} {progress : List QualName} {name : QualName} (good : Good name) :
    direct load fuel progress name = direct load' fuel progress name := by
  induction fuel generalizing progress name with
  | zero => rfl
  | succ fuel ih =>
    by_cases member : name ∈ progress
    · rw [direct_of_mem member, direct_of_mem member]
    · rw [direct_of_not_mem member, direct_of_not_mem member, ← same name good]
      cases loaded : load name with
      | error error => rfl
      | ok d =>
        rw [ok_bind, ok_bind]
        exact directDescriptor_congr fun reference listed =>
          ih (closed name d good loaded reference listed)

/-- More fuel than there are names to describe has no part in the outcome. -/
theorem direct_more_fuel {limit : Nat} (supply : Supply load limit) (extra : Nat) (name : QualName) :
    direct load (limit + extra) [] name = direct load limit [] name := by
  have room : Room load limit limit [] := Resolver.room_nil limit
  have wider : Room load limit (limit + extra) [] := ⟨.nil, by simp, by simp⟩
  have faithful : Faithful load [] := by simp [Faithful]
  have linked : (link load limit [] name []).1 = direct load limit [] name :=
    (link_follows supply room (by simp) [] faithful).1
  have linkedWider : (link load (limit + extra) [] name []).1 = direct load (limit + extra) [] name :=
    (link_follows supply wider (by simp) [] faithful).1
  rw [← linked, ← linkedWider, link_fuel supply wider room]

end Linking

theorem FileSystem.isFile_of_readText {fs : FileSystem} {path : Path} {text : String} (read : fs.readText path = .ok text) :
    fs.isFile path = true := by
  unfold readText at read
  obtain ⟨place, located, read⟩ := bind_eq_ok read
  split at read
  · cases read
  · cases read
  · rename_i content there
    exact isFile_iff.mpr ⟨content, nodeAt?_eq_some.mpr ⟨place, located, there⟩⟩

namespace Source

variable {fs : FileSystem} {root : Path} {name : QualName}

/-- The directory below the root holds each text where its type belongs, and no other file. -/
structure Tree (fs : FileSystem) (root : Path) (entries : List (String × Descriptor)) : Prop where
  stored : ∀ entry ∈ entries, fs.readText (pathFor root entry.2.name) = .ok entry.1
  only : ∀ base place content, fs.follow root = .ok base → base <+: place →
    fs.node? place = some (.file content) →
      ∃ entry ∈ entries, fs.locate (pathFor root entry.2.name) = .ok place

variable {entries : List (String × Descriptor)}

theorem Tree.isFile_iff (tree : Tree fs root entries) (each : ∀ entry ∈ entries, Describes entry.1 entry.2)
    (valid : name.valid = true) :
    fs.isFile (pathFor root name) = true ↔ ∃ entry ∈ entries, entry.2.name = name := by
  constructor
  · intro isFile
    obtain ⟨content, there⟩ := FileSystem.isFile_iff.mp isFile
    obtain ⟨place, located, node⟩ := FileSystem.nodeAt?_eq_some.mp there
    obtain ⟨base, start, here⟩ := pathFor_place valid located
    obtain ⟨entry, member, same⟩ := tree.only base place content start ⟨_, here.symm⟩ node
    obtain ⟨element, read⟩ := Descriptor.parseOne_read (each entry member).read
    have named := (Descriptor.ofElement_written read).named
    exact ⟨entry, member, pathFor_injective named valid same located⟩
  · rintro ⟨entry, member, rfl⟩
    exact FileSystem.isFile_of_readText (tree.stored entry member)

/-- The file of a described type is read as its descriptor. -/
theorem Tree.readFile_eq (tree : Tree fs root entries) {entry : String × Descriptor}
    (member : entry ∈ entries) (describes : Describes entry.1 entry.2) :
    readFile fs (pathFor root entry.2.name) entry.2.name = .ok entry.2 := by
  unfold readFile
  rw [tree.stored entry member]
  change (Descriptor.parseOne entry.1).mapError _ >>= _ = _
  rw [describes.read]
  change (if entry.2.name ≠ entry.2.name then _ else _) = _
  rw [if_neg (by simp), describes.valid]
  rfl

/-- A tree knows what an index of its descriptors knows. -/
theorem Tree.load_eq (tree : Tree fs root entries) (each : ∀ entry ∈ entries, Describes entry.1 entry.2)
    {index : DescriptorIndex} (listed : index.descriptors = entries.map Prod.snd) (label : String)
    (valid : name.valid = true) :
    (inMemory label index).load fs name = (directory root).load fs name := by
  change Except.ok (index.get? name) =
    if fs.isFile (pathFor root name) = true then (readFile fs (pathFor root name) name).map some
    else .ok none
  cases found : index.get? name with
  | none =>
    have unknown : ¬ fs.isFile (pathFor root name) = true := by
      rw [tree.isFile_iff each valid]
      rintro ⟨entry, member, named⟩
      have other := List.find?_eq_none.mp found entry.2 (listed ▸ List.mem_map_of_mem member)
      simp [named] at other
    rw [if_neg unknown]
  | some d =>
    have named : d.name = name := by simpa using List.find?_some found
    have member := List.mem_of_find?_eq_some found
    rw [listed] at member
    obtain ⟨entry, inside, rfl⟩ := List.mem_map.mp member
    subst named
    rw [if_pos ((tree.isFile_iff each valid).mpr ⟨entry, inside, rfl⟩),
      tree.readFile_eq inside (each entry inside)]
    rfl

/-- The supertypes of whatever a source describes have valid names. -/
theorem load_references {source : Source} {d : Descriptor}
    (written : ∀ label index, source = inMemory label index →
      ∀ d ∈ index.descriptors, ∀ reference ∈ d.references, reference.name.valid = true)
    (loaded : source.load fs name = .ok (some d)) :
    ∀ reference ∈ d.references, reference.name.valid = true := by
  cases source with
  | inMemory label index =>
    exact written label index rfl d (List.mem_of_find?_eq_some (Except.ok.inj loaded))
  | directory root =>
    unfold load at loaded
    dsimp only at loaded
    split at loaded
    · obtain ⟨found, read, same⟩ := map_eq_ok loaded
      cases same
      obtain ⟨_, _, parsed, _, _⟩ := readFile_ok read
      obtain ⟨element, own⟩ := Descriptor.parseOne_read parsed
      exact Descriptor.ofElement_references own
    · cases loaded

theorem standardLibrary_references : ∀ d ∈ StandardLibrary.types, ∀ reference ∈ d.references,
    reference.name.valid = true := by decide +kernel

/-- What a directory or the standard library describes refers to valid names. -/
theorem loadFirst_references {d : Descriptor}
    (loaded : loadFirst fs [.directory root, .standardLibrary] name = .ok d) :
    ∀ reference ∈ d.references, reference.name.valid = true := by
  obtain ⟨source, listed, found⟩ := exists_source loaded
  refine load_references (fun label index same => ?_) found
  rcases List.mem_cons.mp listed with rfl | standard
  · cases same
  · rw [List.mem_singleton.mp standard] at same
    cases same
    exact standardLibrary_references

end Source

namespace Resolver

/-- Whatever has been asked before, a name resolves to what linking it anew gives, with any fuel that
is enough. -/
theorem consult_resolve (fs : FileSystem) (sources : List Source) (asked : List QualName)
    (name : QualName) (extra : Nat) :
    ((({ sources } : Resolver).consult fs asked).resolve fs name).1 =
      Linking.direct (Source.loadFirst fs sources)
        (sources.foldr (fun source total => source.size fs + total) 1 + extra) [] name := by
  obtain ⟨same, faithful⟩ := consult_faithful fs { sources } asked (by simp [Linking.Faithful])
  have supply := Source.loadFirst_supply fs sources
  rw [(resolve_follows fs _ name (by rw [same]; exact faithful)).1, fuel, same,
    Linking.direct_more_fuel supply]

end Resolver

theorem Source.loadFirst_head {fs : FileSystem} {source source' : Source} {name : QualName}
    (same : source.load fs name = source'.load fs name) (sources : List Source) :
    loadFirst fs (source :: sources) name = loadFirst fs (source' :: sources) name := by
  unfold loadFirst
  rw [same]

/-- Texts that describe one type each, of different names, make a document. -/
theorem Resolver.ofDocument_inTypes {entries : List (String × Descriptor)} (some : entries ≠ [])
    (each : ∀ entry ∈ entries, Describes entry.1 entry.2)
    (distinct : (entries.map (·.2.name)).Nodup) :
    ∃ label index, index.descriptors = entries.map Prod.snd ∧
      ofDocument (Markup.inTypes (entries.map Prod.fst)) =
        .ok { sources := [.inMemory label index, .standardLibrary] } := by
  have parsed := Descriptor.parseAll_inTypes some each
  have distinctNames : ((entries.map Prod.snd).map Descriptor.name).Nodup := by
    rw [List.map_map]
    exact distinct
  obtain ⟨index, indexed, listed⟩ := DescriptorIndex.exists_ofList distinctNames
  have valid : (entries.map Prod.snd).forM
      (fun d => d.validate.mapError ResolveError.validity) = .ok () := by
    refine forM_ok fun d member => ?_
    obtain ⟨entry, inside, rfl⟩ := List.mem_map.mp member
    rw [(each entry inside).valid]
    rfl
  refine ⟨"<inline descriptors>", index, listed, ?_⟩
  have source : Source.ofDocument "<inline descriptors>" (Markup.inTypes (entries.map Prod.fst)) =
      .ok (.inMemory "<inline descriptors>" index) := by
    unfold Source.ofDocument
    rw [parsed]
    change ((entries.map Prod.snd).forM (fun d => d.validate.mapError ResolveError.validity) >>= _) = _
    rw [valid, indexed]
    rfl
  rw [ofDocument, source]
  rfl

/-- Texts that describe one type each, of different names, make a document if there are any, and every
valid name resolves to the same from that document as from a tree that holds just these texts,
whatever either has been asked before. -/
theorem document_eq_tree {fs : FileSystem} {root : Path} {entries : List (String × Descriptor)}
    (some : entries ≠ []) (each : ∀ entry ∈ entries, Describes entry.1 entry.2)
    (distinct : (entries.map (·.2.name)).Nodup) (tree : Source.Tree fs root entries) :
    ∃ resolver, Resolver.ofDocument (Markup.inTypes (entries.map Prod.fst)) = .ok resolver ∧
      ∀ asked asked' name, name.valid = true →
        ((resolver.consult fs asked).resolve fs name).1 =
          (((Resolver.ofDirectory root).consult fs asked').resolve fs name).1 := by
  obtain ⟨label, index, listed, built⟩ := Resolver.ofDocument_inTypes some each distinct
  refine ⟨_, built, fun asked asked' name valid => ?_⟩
  have agree (name : QualName) (valid : name.valid = true) :
      Source.loadFirst fs [.directory root, .standardLibrary] name =
        Source.loadFirst fs [.inMemory label index, .standardLibrary] name :=
    Source.loadFirst_head (tree.load_eq each listed label valid).symm _
  -- Each side gets the fuel of the other one in addition to its own.
  have fromDocument := Resolver.consult_resolve fs [.inMemory label index, .standardLibrary] asked
    name ((Resolver.ofDirectory root).fuel fs)
  have fromTree := Resolver.consult_resolve fs [.directory root, .standardLibrary] asked' name
    (Resolver.fuel fs { sources := [.inMemory label index, .standardLibrary] })
  rw [fromDocument]
  refine Eq.trans ?_ fromTree.symm
  rw [Linking.direct_congr agree (fun _ _ _ loaded => Source.loadFirst_references loaded) valid,
    Nat.add_comm]
  rfl

namespace Stored

def upper : String × Descriptor :=
  ("<interface name='p.B'/>", { name := ⟨"p.B"⟩, kind := .interface })

def lower : String × Descriptor :=
  ("<interface name='p.A'><extends type='p.B'/></interface>",
    { name := ⟨"p.A"⟩, kind := .interface, interfaces := [⟨⟨"p.B"⟩, []⟩] })

def files : FileSystem where
  nodes := [
    (["src"], .directory), (["src", "p"], .directory),
    (["src", "p", "A.xml"], .file lower.1.toUTF8), (["src", "p", "B.xml"], .file upper.1.toUTF8)]

theorem describes : ∀ entry ∈ [lower, upper], Describes entry.1 entry.2 := by
  intro entry member
  rcases List.mem_cons.mp member with rfl | other
  · exact ⟨List.map_eq_singleton_iff.mp (by decide +kernel), by decide +kernel, by decide +kernel⟩
  · rw [List.mem_singleton.mp other]
    exact ⟨List.map_eq_singleton_iff.mp (by decide +kernel), by decide +kernel, by decide +kernel⟩

theorem tree : Source.Tree files "src" [lower, upper] where
  stored := by decide +kernel
  only := by
    intro base place content _ _ there
    have listed : (place, FileNode.file content) ∈ files.nodes := by
      unfold FileSystem.node? at there
      split at there
      · cases there
      · obtain ⟨before, after, split, _⟩ := List.lookup_eq_some_iff.mp there
        simp [split]
    simp only [files, List.mem_cons, Prod.mk.injEq, reduceCtorEq, and_false, FileNode.file.injEq,
      List.not_mem_nil, or_false, false_or] at listed
    rcases listed with ⟨rfl, _⟩ | ⟨rfl, _⟩
    · exact ⟨lower, by simp, by decide +kernel⟩
    · exact ⟨upper, by simp, by decide +kernel⟩

end Stored

theorem stored_document_eq_tree :
    ∃ resolver, Resolver.ofDocument (Markup.inTypes [Stored.lower.1, Stored.upper.1]) = .ok resolver ∧
      (resolver.resolve Stored.files ⟨"p.A"⟩).1 =
        ((Resolver.ofDirectory "src").resolve Stored.files ⟨"p.A"⟩).1 ∧
      ((Resolver.ofDirectory "src").resolve Stored.files ⟨"p.A"⟩).1.isOk = true := by
  obtain ⟨resolver, built, same⟩ := document_eq_tree (by simp) Stored.describes (by decide +kernel)
    Stored.tree
  exact ⟨resolver, built, same [] [] ⟨"p.A"⟩ (by decide +kernel), by decide +kernel⟩

/-- Without any text there is no document, although there is a tree. -/
theorem empty_document_refused : ¬ ∀ fs root entries, (∀ entry ∈ entries, Describes entry.1 entry.2) →
    (entries.map (·.2.name)).Nodup → Source.Tree fs root entries →
      ∃ resolver, Resolver.ofDocument (Markup.inTypes (entries.map Prod.fst)) = .ok resolver ∧
        ∀ name, name.valid = true → (resolver.resolve fs name).1 =
          ((Resolver.ofDirectory root).resolve fs name).1 := by
  intro claimed
  have tree : Source.Tree {} "src" [] := by
    refine ⟨by simp, fun base place content _ _ there => ?_⟩
    unfold FileSystem.node? at there
    split at there <;> cases there
  obtain ⟨resolver, built, _⟩ := claimed {} "src" [] (by simp) (by simp) tree
  have refused : (Resolver.ofDocument (Markup.inTypes [])).toOption.isNone = true := by decide +kernel
  rw [List.map_nil] at built
  rw [built] at refused
  cases refused

end JavaStubs
