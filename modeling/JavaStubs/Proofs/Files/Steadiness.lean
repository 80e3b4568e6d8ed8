import Mathlib.Data.List.Induction
import JavaStubs.Proofs.Files.Following

namespace JavaStubs.FileSystem

/-- Everything lies in a directory, and the working directory is one. -/
structure Sound (fs : FileSystem) : Prop where
  nested : ∀ place name, fs.node? (place ++ [name]) ≠ none → fs.node? place = some .directory
  workDir : fs.node? fs.workDir = some .directory

/-- Wherever the path goes up, the way to that point is there already. -/
def Settled (fs : FileSystem) (path : Path) : Prop :=
  ∀ before after, Text.pieces '/' path = before ++ ".." :: after →
    ∃ place, before.foldlM fs.visit (fs.start path) = .ok place

variable {fs fs' : FileSystem} {place next : Place} {path : Path} {Written : Place → Prop}

/-- A file system is sound if its list of nodes has the directory of each of them. -/
theorem Sound.of_nodes (each : ∀ entry ∈ fs.nodes, fs.node? entry.1.dropLast = some .directory)
    (workDir : fs.node? fs.workDir = some .directory) : fs.Sound where
  nested := by
    intro place name there
    obtain ⟨node, found⟩ := Option.ne_none_iff_exists'.mp there
    rw [node?, if_neg (by simp)] at found
    obtain ⟨_, _, listed, _⟩ := List.lookup_eq_some_iff.mp found
    have directory := each (place ++ [name], node) (by simp [listed])
    simpa using directory
  workDir := workDir

/-- Where something is, there is something at every place above it. -/
theorem Sound.above (sound : fs.Sound) (names : List String)
    (there : fs.node? (place ++ names) ≠ none) : fs.node? place ≠ none := by
  induction names using List.reverseRecOn with
  | nil => simpa using there
  | append_singleton names name ih =>
    rw [← List.append_assoc] at there
    have directory := sound.nested (place ++ names) name there
    exact ih (by simp [directory])

theorem Sound.start (sound : fs.Sound) (path : Path) : fs.node? (fs.start path) ≠ none := by
  unfold FileSystem.start
  split
  · simp
  · simp [sound.workDir]

/-- A path that can be followed to its end is settled. -/
theorem settled_of_follow (followed : fs.follow path = .ok place) : fs.Settled path := by
  intro before after cut
  rw [follow, cut, List.foldlM_append] at followed
  obtain ⟨between, led, _⟩ := bind_eq_ok followed
  exact ⟨between, led⟩

/-- So is one that never goes up. -/
theorem settled_of_not_mem (straight : ".." ∉ Text.pieces '/' path) : fs.Settled path := by
  intro before after cut
  exact absurd (by simp [cut]) straight

/-- A path stays settled if pieces that do not go up are joined to it. -/
theorem Settled.join (settled : fs.Settled path) {next : Path}
    (straight : ".." ∉ Text.pieces '/' next) : fs.Settled (Path.join path next) := by
  cases absolute : Path.isAbsolute next with
  | true =>
    rw [Path.join_absolute absolute]
    exact settled_of_not_mem straight
  | false =>
    obtain ⟨base, joined, cut, sameStart⟩ := Path.join_relative absolute path
    have first : fs.start (Path.join path next) = fs.start path := by
      rw [FileSystem.start, FileSystem.start, sameStart]
    intro before after cutAt
    rw [joined] at cutAt
    rw [first]
    -- The place where the path goes up lies in the first part.
    have inBase : ∃ rest, base = before ++ ".." :: rest := by
      rcases List.append_eq_append_iff.mp cutAt with ⟨more, rfl, rest⟩ | ⟨more, rfl, rest⟩
      · exact absurd (rest ▸ by simp) straight
      · cases more with
        | nil =>
          rw [List.nil_append] at rest
          exact absurd (rest ▸ by simp) straight
        | cons piece more =>
          obtain ⟨rfl, _⟩ := List.cons.inj rest
          exact ⟨more, rfl⟩
    obtain ⟨rest, rfl⟩ := inBase
    rcases cut with cut | cut
    · exact settled before rest cut
    · exact settled before (rest ++ [""]) (by simp [cut])

theorem advance_of_ne {piece : String} (straight : piece ≠ "..") (place : Place) :
    ∃ names, advance place piece = place ++ names := by
  unfold advance
  split
  · exact ⟨[], by simp⟩
  · exact ⟨[piece], rfl⟩

theorem visits_present {pieces : List String} (there : fs.node? place ≠ none)
    (visited : pieces.foldlM fs.visit place = .ok next) : fs.node? next ≠ none := by
  refine foldlM_invariant (P := fun place => fs.node? place ≠ none) ?_ there visited
  intro place piece _ after _ step
  exact (visit_eq_ok.mp step).2.2.1

namespace Evolves

/-- A directory that something was in the place of has been one before. -/
theorem was_directory (evolves : fs.Evolves fs' Written) (there : fs.node? place ≠ none)
    (now : fs'.node? place = some .directory) : fs.node? place = some .directory := by
  rcases evolves.places place with (same | ⟨absent, _⟩) | ⟨_, _, content, written⟩
  · exact same ▸ now
  · exact absurd absent there
  · simp [now] at written

/-- Pieces that lead to something that was there before have led there before, as long as they go up
only from where they could lead. -/
theorem visits_back (evolves : fs.Evolves fs' Written) (sound : fs.Sound) {pieces : List String}
    (settled : ∀ before after, pieces = before ++ ".." :: after →
      ∃ between, before.foldlM fs.visit place = .ok between)
    (start : fs.node? place ≠ none) (there : fs.node? next ≠ none)
    (visited : pieces.foldlM fs'.visit place = .ok next) :
    pieces.foldlM fs.visit place = .ok next := by
  induction pieces using List.reverseRecOn generalizing next with
  | nil => exact visited
  | append_singleton pieces piece ih =>
    rw [List.foldlM_append] at visited ⊢
    obtain ⟨between, led, last⟩ := bind_eq_ok visited
    rw [List.foldlM_cons] at last
    obtain ⟨after, step, ended⟩ := bind_eq_ok last
    cases ended
    obtain ⟨directory, short, _, moved⟩ := visit_eq_ok.mp step
    have reached : pieces.foldlM fs.visit place = .ok between := by
      by_cases up : piece = ".."
      · obtain ⟨earlier, before⟩ := settled pieces [] (by simp [up])
        have same := evolves.visits before
        rw [led] at same
        cases same
        exact before
      · -- What lies above something that is there is there, too.
        obtain ⟨names, extended⟩ := advance_of_ne up between
        have above : fs.node? between ≠ none := by
          refine sound.above names ?_
          rw [← extended, ← moved]
          exact there
        refine ih (fun before after cut => ?_) above led
        exact settled before (after ++ [piece]) (by simp [cut])
    have was := evolves.was_directory (visits_present start reached) directory
    have again : fs.visit between piece = .ok next := visit_eq_ok.mpr ⟨was, short, there, moved⟩
    rw [reached, ok_bind, List.foldlM_cons, again, ok_bind]
    rfl

theorem locate_back (evolves : fs.Evolves fs' Written) (sound : fs.Sound) (settled : fs.Settled path)
    (there : fs.node? place ≠ none) (located : fs'.locate path = .ok place) :
    fs.locate path = .ok place := by
  rw [locate_eq] at located ⊢
  obtain ⟨_, checked, followed⟩ := bind_eq_ok located
  rw [checked, ok_bind]
  rw [follow, evolves.start] at followed
  exact evolves.visits_back sound settled (sound.start path) there followed

end Evolves

theorem nodeAt?_eq_some {node : FileNode} :
    fs.nodeAt? path = some node ↔ ∃ place, fs.locate path = .ok place ∧ fs.node? place = some node := by
  unfold nodeAt?
  cases located : fs.locate path with
  | error fault => simp [Except.toOption]
  | ok place => simp [Except.toOption]

/-- The last piece of a path names what the path leads to. -/
theorem locate_last {last : String} (located : fs.locate path = .ok place)
    (ends : (Text.pieces '/' path).getLast? = some last) (busy : Path.isIdle last = false)
    (straight : last ≠ "..") : ∃ directory, place = directory ++ [last] := by
  obtain ⟨before, cut⟩ := List.getLast?_eq_some_iff.mp ends
  rw [locate_eq] at located
  obtain ⟨_, _, followed⟩ := bind_eq_ok located
  rw [follow, cut, List.foldlM_append] at followed
  obtain ⟨directory, _, followed⟩ := bind_eq_ok followed
  rw [List.foldlM_cons] at followed
  obtain ⟨_, entered, ended⟩ := bind_eq_ok followed
  cases ended
  obtain ⟨_, _, _, moved⟩ := visit_eq_ok.mp entered
  exact ⟨directory, by simp [moved, advance, busy, straight]⟩

/-- A path reads the same file as before, if no file of that name is written. -/
theorem Evolves.nodeAt?_file (evolves : fs.Evolves fs' Written) (sound : fs.Sound)
    (settled : fs.Settled path) {last : String} (ends : (Text.pieces '/' path).getLast? = some last)
    (busy : Path.isIdle last = false) (straight : last ≠ "..")
    (unwritten : ∀ directory, ¬ Written (directory ++ [last])) {content : ByteArray} :
    fs'.nodeAt? path = some (.file content) ↔ fs.nodeAt? path = some (.file content) := by
  have sameFile {place : Place} (named : ∃ directory, place = directory ++ [last]) :
      fs'.node? place = some (.file content) ↔ fs.node? place = some (.file content) := by
    obtain ⟨directory, rfl⟩ := named
    rcases evolves.keeps (unwritten directory) with same | ⟨absent, added⟩
    · rw [same]
    · simp [absent, added]
  rw [nodeAt?_eq_some, nodeAt?_eq_some]
  constructor
  · rintro ⟨place, located, there⟩
    have before := (sameFile (locate_last located ends busy straight)).mp there
    exact ⟨place, evolves.locate_back sound settled (by simp [before]) located, before⟩
  · rintro ⟨place, located, there⟩
    have after := (sameFile (locate_last located ends busy straight)).mpr there
    exact ⟨place, evolves.locate located, after⟩

theorem isFile_iff : fs.isFile path = true ↔ ∃ content, fs.nodeAt? path = some (.file content) := by
  unfold isFile
  split
  · rename_i content there
    simp [there]
  · rename_i other
    simp only [Bool.false_eq_true, false_iff, not_exists]
    exact other

/-- The text of a file depends on its content only. -/
theorem readText_congr {content : ByteArray} (there : fs.nodeAt? path = some (.file content))
    (there' : fs'.nodeAt? path = some (.file content)) : fs.readText path = fs'.readText path := by
  obtain ⟨place, located, node⟩ := nodeAt?_eq_some.mp there
  obtain ⟨place', located', node'⟩ := nodeAt?_eq_some.mp there'
  unfold readText
  rw [located, located', ok_bind, ok_bind, node, node']

end JavaStubs.FileSystem
