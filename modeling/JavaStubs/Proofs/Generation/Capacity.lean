import JavaStubs.CommandLine.Report
import JavaStubs.Proofs.Generation.Atomicity

namespace JavaStubs

namespace FileSystem

/-- All files have room. -/
def Fits (fs : FileSystem) : Prop :=
  ∀ capacity ∈ fs.capacity, fs.used ≤ capacity

variable {fs fs' : FileSystem} {path : Path} {content : ByteArray}

theorem Fits.of_used_le (fits : fs.Fits) (same : fs'.capacity = fs.capacity)
    (less : fs'.used ≤ fs.used) : fs'.Fits := by
  intro capacity bound
  rw [same] at bound
  exact Nat.le_trans less (fits capacity bound)

theorem fill_eq_ok :
    fs.fill content = .ok () ↔ ∀ capacity ∈ fs.capacity, fs.used + content.size ≤ capacity := by
  unfold fill
  cases fs.capacity with
  | none => simp
  | some capacity => simp

theorem used_filter_le (kept : Place × FileNode → Bool) (nodes : List (Place × FileNode)) :
    used { nodes := nodes.filter kept } ≤ used { nodes } := by
  induction nodes with
  | nil => exact Nat.le_refl _
  | cons entry nodes ih =>
    simp only [used] at ih ⊢
    by_cases keeps : kept entry = true
    · rw [List.filter_cons_of_pos keeps, List.foldr_cons, List.foldr_cons]
      omega
    · rw [List.filter_cons_of_neg keeps, List.foldr_cons]
      omega

/-- What was at the place before is gone, so it may be less. -/
theorem used_put_le (fs : FileSystem) (place : Place) (node : FileNode) :
    (fs.put place node).used ≤ fs.used + node.size := by
  have others := used_filter_le (·.1 != place) fs.nodes
  simp only [used, put, List.foldr_cons] at others ⊢
  omega

theorem makeDirectory_used (made : fs.makeDirectory path = .ok fs') : fs'.used ≤ fs.used := by
  obtain ⟨place, _, _, rfl⟩ := makeDirectory_eq_ok made
  exact used_put_le fs place .directory

theorem makeDirectories_fits (fits : fs.Fits) (path : Path) : (fs.makeDirectories path).2.Fits := by
  refine makeNested_invariant (P := Fits) (fun fits made => ?_) fits _
  have evolves : FileSystem.Evolves _ _ (fun _ => False) := makeDirectory_evolves made
  exact fits.of_used_le evolves.capacity (makeDirectory_used made)

theorem moveInto_fits (filled : fs.fill content = .ok ()) (moved : fs.moveInto path content = .ok fs') :
    fs'.Fits := by
  obtain ⟨place, _, _, _, rfl⟩ := moveInto_eq_ok moved
  intro capacity bound
  exact Nat.le_trans (used_put_le fs place (.file content)) (fill_eq_ok.mp filled capacity bound)

/-- Writing never takes more room than there is, whether or not it succeeds. -/
theorem replaceText_fits (fits : fs.Fits) (path : Path) (text : String) :
    (fs.replaceText path text).2.Fits := by
  rcases outcome : fs.replaceText path text with ⟨_ | _, left⟩
  · show left.Fits
    rw [replaceText_failed outcome]
    exact makeDirectories_fits fits _
  · obtain ⟨filled, moved⟩ := replaceText_done outcome
    exact moveInto_fits filled moved

/-- A file that finds no room leaves its directory behind. -/
example : (replaceText { capacity := some 3 } "p/A.java" "text").1 = .error ⟨"p/A.java", .noSpace⟩ ∧
    (replaceText { capacity := some 3 } "p/A.java" "text").2.nodes = [(["p"], .directory)] := by
  decide +kernel

end FileSystem

variable {fs : FileSystem}

theorem Generator.generate_fits (g : Generator) (fits : fs.Fits) (resolver : Resolver) (text : String) :
    (g.generate fs resolver text).2.2.Fits := by
  have written (stub : Stub) : (stub.write fs).2.Fits :=
    FileSystem.replaceText_fits fits stub.path stub.source
  rcases outcome : g.generate fs resolver text with ⟨error | stub, later, left⟩
  · rcases generate_error outcome with ⟨_, same⟩ | ⟨stub, _, _, _, failed⟩
    · exact same ▸ fits
    · have room := written stub
      rw [failed] at room
      exact room
  · have room := written stub
    rw [(generate_ok outcome).2] at room
    exact room

namespace CommandLine

theorem generateAll_fits (g : Generator) (fits : fs.Fits) (resolver : Resolver) (names : List String) :
    (generateAll g fs resolver names).2.Fits := by
  induction names generalizing fs resolver with
  | nil => exact fits
  | cons name names ih =>
    have first := g.generate_fits fits resolver name
    unfold generateAll
    split
    · rename_i failed
      rw [failed] at first
      exact first
    · rename_i generated
      rw [generated] at first
      exact ih first _

/-- A command never leaves more in the files than there is room for. -/
theorem run_fits (env : Environment) (words : List String) (fits : fs.Fits) :
    (run env words fs).2.Fits := by
  unfold run
  split
  · exact fits
  · exact generateAll_fits _ fits _ _

end CommandLine

end JavaStubs
