import JavaStubs.Proofs.Generation.Atomicity
import JavaStubs.Proofs.Resolver.Location
import JavaStubs.Proofs.Resolver.Outcome
import JavaStubs.Proofs.Stub.Emission

namespace JavaStubs

/-- The place is one for a generated class. -/
def Generated (place : Place) : Prop := ∃ directory word, place = directory ++ [word ++ ".java"]

theorem not_generated_xml (directory : Place) (word : String) :
    ¬ Generated (directory ++ [word ++ ".xml"]) := by
  rintro ⟨other, word', same⟩
  have sameName : word ++ ".xml" = word' ++ ".java" :=
    List.singleton_inj.mp (List.append_inj' same rfl).2
  have lastChar := congrArg (fun text => text.toList.getLast?) sameName
  simp [String.toList_append] at lastChar

/-- What a descriptor directory says of a name does not change as classes are generated. -/
theorem Source.load_steady {fs fs' : FileSystem} {root : Path} (evolves : fs.Evolves fs' Generated)
    (sound : fs.Sound) (settled : fs.Settled root) (name : QualName) :
    (directory root).load fs' name = (directory root).load fs name := by
  obtain ⟨word, last⟩ := pathFor_last root name
  have sameFile (content : ByteArray) :
      fs'.nodeAt? (pathFor root name) = some (.file content) ↔
        fs.nodeAt? (pathFor root name) = some (.file content) :=
    evolves.nodeAt?_file sound (pathFor_settled settled name) last (xml_busy word) (xml_straight word)
      fun directory => not_generated_xml directory word
  have sameVerdict : fs'.isFile (pathFor root name) = fs.isFile (pathFor root name) := by
    rw [Bool.eq_iff_iff, FileSystem.isFile_iff, FileSystem.isFile_iff]
    exact exists_congr sameFile
  unfold load
  dsimp only
  rw [sameVerdict]
  split
  · rename_i isFile
    obtain ⟨content, there⟩ := FileSystem.isFile_iff.mp isFile
    unfold readFile
    rw [FileSystem.readText_congr ((sameFile content).mpr there) there]
  · rfl

theorem Stub.emit_path {naming : Naming} {output : Path} {root : TypeModel} {owed : List Obligation}
    {bodies : List Body} {stub : Stub} (emitted : emit naming output root owed bodies = .ok stub) :
    stub.path = naming.targetPath output stub.name := by
  rw [(emit_eq_ok emitted).2]

namespace Generator

variable {g : Generator} {fs fs' : FileSystem} {resolver : Resolver} {text : String} {stub : Stub}

theorem render_path (rendered : (g.render fs resolver text).1 = .ok stub) :
    stub.path = g.naming.targetPath g.output stub.name := by
  rw [render_value] at rendered
  split at rendered
  · cases rendered
  · split at rendered
    · cases rendered
    · obtain ⟨owed, _, emitted⟩ := emitted_of_renderModel rendered
      exact Stub.emit_path emitted

/-- Generation writes a class file or nothing. -/
theorem generate_evolves (java : g.naming.extension = "java") (fs : FileSystem) (resolver : Resolver)
    (text : String) : fs.Evolves (g.generate fs resolver text).2.2 Generated := by
  rcases outcome : g.generate fs resolver text with ⟨result, resolver', fs'⟩
  cases result with
  | error error =>
    rcases generate_error outcome with ⟨_, rfl⟩ | ⟨_, _, _, _, written⟩
    · exact .refl fs' Generated
    · exact FileSystem.replaceText_error written
  | ok stub =>
    obtain ⟨rendered, written⟩ := generate_ok outcome
    obtain ⟨directory, file, last, evolves, _, _⟩ := FileSystem.replaceText_ok written
    refine evolves.mono fun place here => ?_
    obtain ⟨word, ends⟩ := Path.inPackage_last (by decide : '/' ∉ ".java".toList) g.output
      stub.name.packageSegments stub.name.simple
    have path : stub.path =
        Path.inPackage g.output stub.name.packageSegments (stub.name.simple ++ ".java") := by
      rw [render_path rendered, Naming.targetPath, java, String.append_assoc]
      rfl
    rw [path, ends, Option.some.injEq] at last
    exact ⟨directory, word, by rw [here, last]⟩

end Generator

namespace Resolver

variable {fs : FileSystem} {resolver : Resolver}

/-- What a resolver with a faithful cache looks up, a new one does, too. -/
theorem resolve_fresh
    (faithful : Linking.Faithful (Source.loadFirst fs resolver.sources) resolver.cache)
    (name : QualName) : (resolver.resolve fs name).1 =
      (({ sources := resolver.sources } : Resolver).resolve fs name).1 := by
  have used := (resolve_follows fs resolver name faithful).1
  have fresh := (resolve_follows fs { sources := resolver.sources } name (by simp [Linking.Faithful])).1
  rw [used, fresh]
  rfl

theorem lookup_fresh
    (faithful : Linking.Faithful (Source.loadFirst fs resolver.sources) resolver.cache) :
    resolver.lookup fs = ({ sources := resolver.sources } : Resolver).lookup fs := by
  funext name
  rw [lookup, lookup, resolve_fresh faithful]

end Resolver

namespace Generator

variable {g : Generator} {fs : FileSystem} {resolver : Resolver}

/-- A used resolver renders the class that a new one renders. -/
theorem render_fresh
    (faithful : Linking.Faithful (Source.loadFirst fs resolver.sources) resolver.cache)
    (text : String) :
    (g.render fs resolver text).1 = (g.render fs { sources := resolver.sources } text).1 := by
  rw [render_value, render_value]
  cases targetName text with
  | error refusal => rfl
  | ok name =>
    have kept := (Resolver.resolve_follows fs resolver name faithful).2
    have keptFresh := (Resolver.resolve_follows fs { sources := resolver.sources } name
      (by simp [Linking.Faithful])).2
    have sameLookup : (resolver.resolve fs name).2.lookup fs =
        (({ sources := resolver.sources } : Resolver).resolve fs name).2.lookup fs := by
      rw [Resolver.lookup_fresh kept, Resolver.lookup_fresh keptFresh]
      rfl
    dsimp only
    rw [Resolver.resolve_fresh faithful, sameLookup]

theorem render_faithful
    (faithful : Linking.Faithful (Source.loadFirst fs resolver.sources) resolver.cache)
    (text : String) : (g.render fs resolver text).2.sources = resolver.sources ∧
      Linking.Faithful (Source.loadFirst fs resolver.sources) (g.render fs resolver text).2.cache := by
  unfold render
  split
  · exact ⟨rfl, faithful⟩
  · rename_i name _
    have kept := (Resolver.resolve_follows fs resolver name faithful).2
    have sameSources : (resolver.resolve fs name).2.sources = resolver.sources := rfl
    split
    · rename_i resolved
      rw [resolved] at kept sameSources
      exact ⟨sameSources, kept⟩
    · rename_i resolved
      rw [resolved] at kept sameSources
      rw [← sameSources] at kept ⊢
      exact Resolver.consult_faithful fs _ _ kept

/-- A used resolver generates what a new one generates, with the same effect, and remains faithful
to the files as they were. -/
theorem generate_fresh
    (faithful : Linking.Faithful (Source.loadFirst fs resolver.sources) resolver.cache)
    (text : String) :
    (g.generate fs resolver text).1 = (g.generate fs { sources := resolver.sources } text).1 ∧
      (g.generate fs resolver text).2.2 =
        (g.generate fs { sources := resolver.sources } text).2.2 ∧
      (g.generate fs resolver text).2.1.sources = resolver.sources ∧
      Linking.Faithful (Source.loadFirst fs resolver.sources)
        (g.generate fs resolver text).2.1.cache := by
  have same := render_fresh (g := g) faithful text
  obtain ⟨sources, kept⟩ := render_faithful (g := g) faithful text
  unfold generate
  rcases used : g.render fs resolver text with ⟨result, later⟩
  rcases fresh : g.render fs { sources := resolver.sources } text with ⟨result', later'⟩
  rw [used] at same sources kept
  rw [fresh] at same
  obtain rfl : result = result' := same
  cases result with
  | error error => exact ⟨rfl, rfl, sources, kept⟩
  | ok stub =>
    dsimp only
    split
    · exact ⟨rfl, rfl, sources, kept⟩
    · exact ⟨rfl, rfl, sources, kept⟩

end Generator

end JavaStubs
