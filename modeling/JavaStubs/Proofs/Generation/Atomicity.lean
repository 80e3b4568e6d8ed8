import JavaStubs.Generator
import JavaStubs.Proofs.Files.Replacement

namespace JavaStubs

namespace Generator

variable {g : Generator} {fs fs' : FileSystem} {resolver resolver' : Resolver} {text : String}

/-- What a failed generation did, and whether it came to writing at all. -/
theorem generate_error {error : GenerationError}
    (failed : g.generate fs resolver text = (.error error, resolver', fs')) :
    (g.render fs resolver text).1 = .error error ∧ fs' = fs ∨
      ∃ stub fault, (g.render fs resolver text).1 = .ok stub ∧ error = .write fault ∧
        stub.write fs = (.error fault, fs') := by
  unfold generate at failed
  split at failed
  · rename_i refused
    cases failed
    rw [refused]
    exact .inl ⟨rfl, rfl⟩
  · rename_i stub _ rendered
    split at failed
    · rename_i fault _ written
      cases failed
      rw [rendered]
      exact .inr ⟨stub, fault, rfl, rfl, written⟩
    · cases failed

/-- A generated class is the rendered one, and it was written. -/
theorem generate_ok {stub : Stub} (done : g.generate fs resolver text = (.ok stub, resolver', fs')) :
    (g.render fs resolver text).1 = .ok stub ∧ stub.write fs = (.ok (), fs') := by
  unfold generate at done
  split at done
  · cases done
  · rename_i stub _ rendered
    split at done
    · cases done
    · rename_i written
      cases done
      rw [rendered]
      exact ⟨rfl, written⟩

/-- Rendering does not fail in writing. -/
theorem render_ne_write (fault : WriteFault) :
    (g.render fs resolver text).1 ≠ .error (.write fault) := by
  intro failed
  unfold render at failed
  split at failed
  · cases failed
  · split at failed
    · cases failed
    · rename_i root _ _
      simp only [Resolver.settle, renderModel, Inquiry.value_bind] at failed
      split at failed
      · cases failed
      · rename_i owed _
        simp only [Inquiry.value_pure] at failed
        generalize Stub.emit g.naming g.output root owed (owed.map Obligation.body) = emitted at failed
        cases emitted <;> cases failed

end Generator

/-- If writing fails, at most directories are new, and if anything before fails, nothing is. If
generation succeeds, the path of the class leads through directories to a file with exactly the source
that rendering gives, and every other place is as it was or has become a directory. -/
theorem generate_all_or_nothing (g : Generator) (fs : FileSystem) (resolver : Resolver)
    (text : String) :
    match g.generate fs resolver text with
    | (.error (.write _), _, fs') => ∀ place, fs.Keeps fs' place
    | (.error _, _, fs') => fs' = fs
    | (.ok stub, _, fs') =>
      (g.render fs resolver text).1 = .ok stub ∧ fs'.readText stub.path = .ok stub.source ∧
      (∃ place, fs'.locate stub.path = .ok place ∧
        fs'.node? place = some (.file stub.source.toUTF8) ∧
        ∀ other, other ≠ place → fs.Keeps fs' other) ∧
      ∀ before piece after, Text.pieces '/' stub.path = before ++ piece :: after →
        ∃ directory, before.foldlM fs'.visit (fs'.start stub.path) = .ok directory ∧
          fs'.node? directory = some .directory := by
  split
  case h_1 fault _ _ failed =>
    rcases Generator.generate_error failed with ⟨rendered, _⟩ | ⟨stub, _, _, _, written⟩
    · exact absurd rendered (Generator.render_ne_write fault)
    · intro place
      have evolves : fs.Evolves _ (fun _ => False) := FileSystem.replaceText_error written
      exact evolves.keeps not_false
  case h_2 error _ _ other failed =>
    rcases Generator.generate_error failed with ⟨_, unchanged⟩ | ⟨_, fault, _, isWrite, _⟩
    · exact unchanged
    · exact absurd isWrite (other fault)
  case h_3 stub _ fs' done =>
    obtain ⟨rendered, written⟩ := Generator.generate_ok done
    obtain ⟨directory, name, _, evolves, located, there⟩ := FileSystem.replaceText_ok written
    refine ⟨rendered, FileSystem.readText_of_node located there,
      ⟨directory ++ [name], located, there, fun other apart => evolves.keeps apart⟩, ?_⟩
    intro before piece after cut
    exact FileSystem.locate_directories located cut

end JavaStubs
