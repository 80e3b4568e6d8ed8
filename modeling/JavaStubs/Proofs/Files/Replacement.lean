import JavaStubs.Proofs.Files.Following

namespace JavaStubs

/-- A path that does not end in a slash has no empty piece at its end. -/
theorem Path.dropSlashes_pieces {path : Path} (nonempty : path ≠ "")
    (named : path.toList.getLast? ≠ some '/') :
    dropSlashes (Text.pieces '/' path) = Text.pieces '/' path := by
  obtain ⟨before, last, ends⟩ := (List.eq_nil_or_concat path.toList).resolve_left (by simpa using nonempty)
  rw [List.concat_eq_append] at ends
  have plain : last ≠ '/' := fun slash => named (by simp [ends, slash])
  have separator : ∀ c ∈ [last], (c == '/') = false := by simpa using plain
  obtain ⟨pieces, piece, _, cut⟩ := Text.cutBy_append_plain separator before
  rw [Text.pieces, ends, cut]
  simp [dropSlashes]

namespace FileSystem

variable {fs fs' : FileSystem} {place directory : Place} {path : Path} {name text : String}
  {node : FileNode} {fault : FileFault}

/-- What it takes for a path to name a place: a directory that is there, and a name for what is in
it. -/
theorem entry_eq_ok (found : fs.entry path fault = .ok place) :
    checkPath path = .ok () ∧ ∃ before directory name,
      Path.dropSlashes (Text.pieces '/' path) = before ++ [name] ∧
      before.foldlM fs.visit (fs.start path) = .ok directory ∧
      fs.node? directory = some .directory ∧ Path.isIdle name = false ∧ name ≠ ".." ∧
      name.utf8ByteSize ≤ nameLimit ∧ place = directory ++ [name] := by
  unfold entry at found
  obtain ⟨_, checked, found⟩ := bind_eq_ok found
  refine ⟨checked, ?_⟩
  generalize Path.dropSlashes (Text.pieces '/' path) = pieces at found
  obtain ⟨directory, led, found⟩ := bind_eq_ok found
  dsimp only at found
  split at found
  · cases found
  rename_i isDirectory
  split at found
  · cases found
  rename_i unnamed
  split at found
  · cases found
  rename_i short
  cases found
  rcases List.eq_nil_or_concat pieces with rfl | ⟨before, name, rfl⟩
  · simp [Path.isIdle] at unnamed
  · simp only [List.concat_eq_append, List.dropLast_concat, List.getLast?_concat, Option.getD_some,
      Bool.or_eq_true, decide_eq_true_eq, not_or, Bool.not_eq_true] at led unnamed short ⊢
    refine ⟨before, directory, name, rfl, led, ?_, unnamed.1, unnamed.2, Nat.not_lt.mp short, rfl⟩
    exact isDirectory_iff.mp (by simpa using isDirectory)

theorem makeDirectory_eq_ok (made : fs.makeDirectory path = .ok fs') :
    ∃ place, fs.entry path .alreadyExists = .ok place ∧ fs.node? place = none ∧
      fs' = fs.put place .directory := by
  unfold makeDirectory at made
  obtain ⟨place, entered, made⟩ := bind_eq_ok made
  split at made
  · cases made
  · rename_i absent
    cases made
    exact ⟨place, entered, by simpa using absent, rfl⟩

theorem moveInto_eq_ok {content : ByteArray} (moved : fs.moveInto path content = .ok fs') :
    ∃ place, fs.entry path .busy = .ok place ∧ path.toList.getLast? ≠ some '/' ∧
      fs.node? place ≠ some .directory ∧ fs' = fs.put place (.file content) := by
  unfold moveInto at moved
  obtain ⟨place, entered, moved⟩ := bind_eq_ok moved
  dsimp only at moved
  split at moved
  · cases moved
  rename_i named
  split at moved
  · cases moved
  rename_i notDirectory
  cases moved
  exact ⟨place, entered, named, fun there => notDirectory (isDirectory_iff.mpr there), rfl⟩

theorem concat_ne_nil (directory : Place) (name : String) : directory ++ [name] ≠ [] := by simp

theorem put_directory_evolves {Written : Place → Prop}
    (absent : fs.node? (directory ++ [name]) = none) :
    fs.Evolves (fs.put (directory ++ [name]) .directory) Written where
  workDir := rfl
  capacity := rfl
  places := by
    intro place
    by_cases here : place = directory ++ [name]
    · rw [here, Keeps, node?_put_self (concat_ne_nil _ _)]
      exact .inl (.inr ⟨absent, rfl⟩)
    · exact .inl (.inl (node?_put_other here))

theorem put_file_evolves {content : ByteArray}
    (free : fs.node? (directory ++ [name]) ≠ some .directory) :
    fs.Evolves (fs.put (directory ++ [name]) (.file content)) (· = directory ++ [name]) where
  workDir := rfl
  capacity := rfl
  places := by
    intro place
    by_cases here : place = directory ++ [name]
    · rw [here, node?_put_self (concat_ne_nil _ _)]
      exact .inr ⟨rfl, free, content, rfl⟩
    · exact .inl (.inl (node?_put_other here))

section Directories

variable {Written : Place → Prop}

theorem makeDirectory_evolves (made : fs.makeDirectory path = .ok fs') : fs.Evolves fs' Written := by
  obtain ⟨place, entered, absent, rfl⟩ := makeDirectory_eq_ok made
  obtain ⟨_, _, directory, name, _, _, _, _, _, _, rfl⟩ := entry_eq_ok entered
  exact put_directory_evolves absent

/-- What each new directory keeps is kept when several are made, whether or not all of them can be. -/
theorem makeNested_invariant {P : FileSystem → Prop}
    (each : ∀ {fs fs' : FileSystem} {path : Path}, P fs → fs.makeDirectory path = .ok fs' → P fs')
    (start : P fs) (paths : List Path) : P (fs.makeNested paths).2 := by
  induction paths generalizing fs with
  | nil => exact start
  | cons path above ih =>
    unfold makeNested
    split
    · rename_i made
      exact each start made
    · -- The directory above is missing: it is made first, then this one is tried again.
      have higher := ih start
      split
      · rename_i failed
        rw [failed] at higher
        exact higher
      · rename_i done
        rw [done] at higher
        split
        · rename_i made
          exact each higher made
        · exact higher
    · exact start

theorem makeDirectories_evolves (fs : FileSystem) (path : Path) :
    fs.Evolves (fs.makeDirectories path).2 Written :=
  makeNested_invariant (P := (fs.Evolves · Written))
    (fun evolves made => evolves.trans (makeDirectory_evolves made)) (.refl fs Written) _

end Directories

/-- A file that was moved into place is found there by its path. -/
theorem moveInto_found {content : ByteArray} (moved : fs.moveInto path content = .ok fs') :
    ∃ directory name, (Text.pieces '/' path).getLast? = some name ∧
      fs.Evolves fs' (· = directory ++ [name]) ∧
      fs'.locate path = .ok (directory ++ [name]) ∧
      fs'.node? (directory ++ [name]) = some (.file content) := by
  obtain ⟨place, entered, named, free, rfl⟩ := moveInto_eq_ok moved
  obtain ⟨checked, before, directory, name, cut, led, there, idle, notUp, short, rfl⟩ :=
    entry_eq_ok entered
  have evolves : fs.Evolves (fs.put (directory ++ [name]) (.file content)) (· = directory ++ [name]) :=
    put_file_evolves free
  have filled : (fs.put (directory ++ [name]) (.file content)).node? (directory ++ [name]) =
      some (.file content) := node?_put_self (concat_ne_nil _ _)
  have nonempty : path ≠ "" := by
    rintro rfl
    simp [checkPath, pathLimit] at checked
  rw [Path.dropSlashes_pieces nonempty named] at cut
  have last : advance directory name = directory ++ [name] := by simp [advance, idle, notUp]
  refine ⟨directory, name, by simp [cut], evolves, ?_, filled⟩
  have entered : (fs.put (directory ++ [name]) (.file content)).visit directory name =
      .ok (directory ++ [name]) :=
    visit_eq_ok.mpr ⟨evolves.directory there, short, by simp [filled], last.symm⟩
  rw [locate_eq, checked, ok_bind, follow, cut, List.foldlM_append, evolves.start,
    evolves.visits led, ok_bind, List.foldlM_cons, entered, ok_bind]
  rfl

theorem readText_of_node {place : Place} (located : fs.locate path = .ok place)
    (there : fs.node? place = some (.file text.toUTF8)) : fs.readText path = .ok text := by
  have valid : text.toUTF8.IsValidUTF8 := text.isValidUTF8
  have decoded : String.fromUTF8? text.toUTF8 = some text := by
    rw [String.fromUTF8?, dif_pos valid]
    rfl
  unfold readText
  rw [located, ok_bind, there]
  simp only [decoded]
  rfl

/-- Whichever step of a write fails, the directories made for it are all that is left. -/
theorem replaceText_failed {fault : WriteFault}
    (failed : fs.replaceText path text = (.error fault, fs')) :
    fs' = (fs.makeDirectories (stagingDirectory path)).2 := by
  unfold replaceText at failed
  dsimp only at failed
  generalize stagingDirectory path = parent at failed ⊢
  split at failed
  · rename_i refused
    cases failed
    rw [refused]
  · rename_i made
    rw [made]
    split at failed
    · cases failed
      rfl
    · split at failed
      · cases failed
        rfl
      · split at failed
        · cases failed
          rfl
        · cases failed

/-- A write that succeeded found room for its text before the text was moved. -/
theorem replaceText_done (done : fs.replaceText path text = (.ok (), fs')) :
    (fs.makeDirectories (stagingDirectory path)).2.fill text.toUTF8 = .ok () ∧
      (fs.makeDirectories (stagingDirectory path)).2.moveInto path text.toUTF8 = .ok fs' := by
  unfold replaceText at done
  dsimp only at done
  split at done
  · cases done
  rename_i made
  rw [made]
  split at done
  · cases done
  split at done
  · cases done
  rename_i filled
  split at done
  · cases done
  rename_i moved
  cases done
  exact ⟨filled, moved⟩

/-- A write that failed leaves at most more directories. -/
theorem replaceText_error {fault : WriteFault} {Written : Place → Prop}
    (failed : fs.replaceText path text = (.error fault, fs')) : fs.Evolves fs' Written := by
  rw [replaceText_failed failed]
  exact makeDirectories_evolves fs _

/-- A write that succeeded put the whole text where its path leads, and no other file is new. -/
theorem replaceText_ok (done : fs.replaceText path text = (.ok (), fs')) :
    ∃ directory name, (Text.pieces '/' path).getLast? = some name ∧
      fs.Evolves fs' (· = directory ++ [name]) ∧
      fs'.locate path = .ok (directory ++ [name]) ∧
      fs'.node? (directory ++ [name]) = some (.file text.toUTF8) := by
  obtain ⟨directory, name, last, evolves, located, there⟩ := moveInto_found (replaceText_done done).2
  exact ⟨directory, name, last, (makeDirectories_evolves fs _).trans evolves, located, there⟩

end FileSystem

end JavaStubs
