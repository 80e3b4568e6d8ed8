import JavaStubs.CommandLine.Report
import JavaStubs.Proofs.CommandLine.Reading
import JavaStubs.Proofs.Generation.Independence

namespace JavaStubs.CommandLine

/-- The report of two runs, of which the first has succeeded. -/
def Report.andThen (report next : Report) : Report where
  exitCode := next.exitCode
  stdout := report.stdout ++ next.stdout
  stderr := report.stderr ++ next.stderr

/-- Runs one line after the other, until one fails. -/
def inTurn (env : Environment) : List (List String) → FileSystem → Report × FileSystem
  | [], fs => ({}, fs)
  | line :: lines, fs =>
    let first := run env line fs
    if first.1.exitCode = 0 then
      let rest := inTurn env lines first.2
      (first.1.andThen rest.1, rest.2)
    else first

/-- Lines that ask for the names of a request one by one, with the same options. -/
def Request.Singly (env : Environment) (request : Request) (lines : List (List String)) : Prop :=
  List.Forall₂ (fun name line => ofWords env line = .ok { request with names := [name] })
    request.names lines

variable {env : Environment} {fs fs' : FileSystem} {request : Request}

theorem Report.andThen_assoc (first second third : Report) :
    (first.andThen second).andThen third = first.andThen (second.andThen third) := by
  simp [Report.andThen, String.append_assoc]

theorem Report.empty_andThen (report : Report) : Report.andThen {} report = report := by
  simp [Report.andThen]

/-- What comes after a failure has no part in the outcome. -/
theorem inTurn_stops {before after : List (List String)} {line : List String}
    (succeeded : (inTurn env before fs).1.exitCode = 0)
    (failed : (run env line (inTurn env before fs).2).1.exitCode ≠ 0) :
    inTurn env (before ++ line :: after) fs =
      ((inTurn env before fs).1.andThen (run env line (inTurn env before fs).2).1,
        (run env line (inTurn env before fs).2).2) := by
  induction before generalizing fs with
  | nil =>
    simp only [inTurn] at failed ⊢
    rw [List.nil_append, inTurn, if_neg failed, Report.empty_andThen]
  | cons first before ih =>
    rw [inTurn] at succeeded failed
    rw [List.cons_append, inTurn, inTurn]
    by_cases ended : (run env first fs).1.exitCode = 0
    · rw [if_pos ended] at succeeded failed ⊢
      rw [if_pos ended, ih succeeded failed, Report.andThen_assoc]
    · rw [if_neg ended] at succeeded
      exact absurd succeeded ended

/-- The directories that a request reads are settled. -/
def Request.Settled (request : Request) (fs : FileSystem) : Prop :=
  ∀ root, request.source = some root → fs.Settled root

/-- Generated files do not change what a request's sources say. -/
theorem Request.loads_steady (sound : fs.Sound) (settled : request.Settled fs)
    (evolves : fs.Evolves fs' Generated) :
    Source.loadFirst fs' request.resolver.sources = Source.loadFirst fs request.resolver.sources := by
  refine Source.loadFirst_congr fun source listed name => ?_
  unfold Request.resolver at listed
  split at listed
  · rw [List.mem_singleton.mp listed]
    rfl
  · rename_i root chosen
    rcases List.mem_cons.mp listed with rfl | standard
    · exact Source.load_steady evolves sound (settled root chosen) name
    · rw [List.mem_singleton.mp standard]
      rfl

theorem Request.resolver_cache (request : Request) :
    request.resolver = { sources := request.resolver.sources } := by
  unfold Request.resolver
  split <;> rfl

/-- A single name is generated with a new resolver. -/
theorem run_single {line : List String} {name : String}
    (asked : Request.ofWords env line = .ok { request with names := [name] }) :
    run env line fs = generateAll request.generator fs request.resolver [name] := by
  rw [run, asked]
  rfl

/-- As long as the resolver is faithful to the files as they were at first, it does not matter that it
has been used before. -/
theorem generateAll_eq_inTurn {first : FileSystem} {resolver : Resolver} {names : List String}
    {lines : List (List String)} (java : request.generator.naming.extension = "java")
    (sound : first.Sound) (settled : request.Settled first) (evolved : first.Evolves fs Generated)
    (sources : resolver.sources = request.resolver.sources)
    (faithful : Linking.Faithful (Source.loadFirst first resolver.sources) resolver.cache)
    (each : List.Forall₂
      (fun name line => Request.ofWords env line = .ok { request with names := [name] }) names lines) :
    generateAll request.generator fs resolver names = inTurn env lines fs := by
  induction each generalizing fs resolver with
  | nil => rfl
  | @cons name line names lines asked _ ih =>
    have sameLoads : Source.loadFirst fs resolver.sources = Source.loadFirst first resolver.sources := by
      rw [sources]
      exact Request.loads_steady sound settled evolved
    rw [← sameLoads] at faithful
    obtain ⟨sameResult, sameFiles, sameSources, kept⟩ :=
      Generator.generate_fresh (g := request.generator) faithful name
    rw [sources, ← request.resolver_cache] at sameResult sameFiles
    have step : fs.Evolves (request.generator.generate fs resolver name).2.2 Generated :=
      request.generator.generate_evolves java fs resolver name
    rw [inTurn, run_single asked]
    unfold generateAll
    rcases used : request.generator.generate fs resolver name with ⟨result, later, files⟩
    rcases fresh : request.generator.generate fs request.resolver name with ⟨result', later', files'⟩
    rw [used] at sameResult sameFiles sameSources kept step
    rw [fresh] at sameResult sameFiles
    obtain rfl : result = result' := sameResult
    obtain rfl : files = files' := sameFiles
    cases result with
    | error error => simp
    | ok stub =>
      have rest := ih (evolved.trans step) (sameSources.trans sources)
        (by rw [sameSources, ← sameLoads]; exact kept)
      simp [generateAll, Report.afterLine, Report.andThen, rest]

/-- A failed run for a single name prints nothing to the output. -/
theorem run_single_failed {line : List String} {name : String}
    (asked : Request.ofWords env line = .ok { request with names := [name] })
    (failed : (run env line fs).1.exitCode ≠ 0) : (run env line fs).1.stdout = "" := by
  rw [run_single asked] at failed ⊢
  unfold generateAll at failed ⊢
  split at failed
  · rfl
  · exact absurd rfl failed

end JavaStubs.CommandLine

namespace JavaStubs

open CommandLine

/-- On sound files and with settled sources, there are lines for the single names of a request, and
running such lines in turn gives the same report and leaves the same files as the request. If one of
them fails, only the lines before it have printed something, and those after it have no effect. -/
theorem run_eq_inTurn {env : Environment} {words : List String} {request : Request} {fs : FileSystem}
    (asked : Request.ofWords env words = .ok request) (sound : fs.Sound)
    (settled : request.Settled fs) :
    (∃ lines, request.Singly env lines) ∧ ∀ lines, request.Singly env lines →
      run env words fs = inTurn env lines fs ∧
      ∀ before line after, lines = before ++ line :: after →
        (inTurn env before fs).1.exitCode = 0 →
        (run env line (inTurn env before fs).2).1.exitCode ≠ 0 →
          (run env words fs).1.exitCode ≠ 0 ∧
          (run env words fs).1.stdout = (inTurn env before fs).1.stdout ∧
          (run env words fs).2 = (run env line (inTurn env before fs).2).2 := by
  have sensible := Request.ofWords_sensible asked
  refine ⟨⟨request.names.map request.lineFor, ?_⟩, ?_⟩
  · exact List.forall₂_map_right_iff.mpr
      (List.forall₂_same.mpr fun name _ => Request.ofWords_lineFor sensible env name)
  · intro lines singly
    have same : run env words fs = inTurn env lines fs := by
      rw [run, asked]
      refine generateAll_eq_inTurn sensible.extension sound settled (.refl fs Generated) rfl ?_ singly
      rw [request.resolver_cache]
      simp [Linking.Faithful]
    refine ⟨same, fun before line after cut succeeded failed => ?_⟩
    obtain ⟨name, _, single⟩ := forall₂_left singly.flip (by simp [cut] : line ∈ lines)
    rw [same, cut, inTurn_stops succeeded failed]
    refine ⟨failed, ?_, rfl⟩
    simp [Report.andThen, run_single_failed single failed]

namespace Shared

def files : FileSystem where
  nodes := [
    (["src"], .directory), (["src", "p"], .directory),
    (["src", "p", "A.xml"], .file "<interface name='p.A'><method name='f'/></interface>".toUTF8)]

def line (names : List String) : List String := ["dir", "-s", "src", "-o", "src"] ++ names

def request : Request where
  source := some "src"
  generator := { output := "src" }
  names := ["p.A", "p.B", "p.A"]

theorem singly : request.Singly {} [line ["p.A"], line ["p.B"], line ["p.A"]] :=
  .cons (by decide +kernel) (.cons (by decide +kernel) (.cons (by decide +kernel) .nil))

end Shared

theorem shared_run_eq_inTurn :
    run {} (Shared.line ["p.A", "p.B", "p.A"]) Shared.files =
      inTurn {} [Shared.line ["p.A"], Shared.line ["p.B"], Shared.line ["p.A"]] Shared.files ∧
    (run {} (Shared.line ["p.A", "p.B", "p.A"]) Shared.files).1.stdout =
      "p.AImpl src/p/AImpl.java\n" := by
  have settled : Shared.request.Settled Shared.files := by
    rintro root ⟨⟩
    exact FileSystem.settled_of_follow (by decide +kernel : Shared.files.follow "src" = .ok ["src"])
  have asked : Request.ofWords {} (Shared.line ["p.A", "p.B", "p.A"]) = .ok Shared.request := by
    decide +kernel
  have sound : Shared.files.Sound := .of_nodes (by decide +kernel) (by decide +kernel)
  obtain ⟨_, each⟩ := run_eq_inTurn asked sound settled
  exact ⟨(each _ Shared.singly).1, by decide +kernel⟩

namespace Detour

def files : FileSystem where
  nodes := [
    (["src"], .directory), (["src", "java"], .directory), (["src", "java", "lang"], .directory),
    (["src", "java", "lang", "Runnable.xml"],
      .file "<interface name='java.lang.Runnable'/>".toUTF8)]

def name : String := "java.lang.Runnable"

/-- Nothing is at `a` until the first class is written. -/
def line (names : List String) : List String := ["dir", "-s", "a/../src", "-o", "a"] ++ names

def request : Request where
  source := some "a/../src"
  generator := { output := "a" }
  names := [name, name]

/-- The source that is written in the end. -/
def written (outcome : Report × FileSystem) : Option String :=
  (outcome.2.readText "a/java/lang/RunnableImpl.java").toOption

end Detour

theorem detour_not_inTurn : ¬ ∀ env words request fs, Request.ofWords env words = .ok request →
    fs.Sound → ∀ lines, request.Singly env lines → run env words fs = inTurn env lines fs := by
  intro claimed
  have single : Request.ofWords {} (Detour.line [Detour.name]) =
      .ok { Detour.request with names := [Detour.name] } := by decide +kernel
  have same := claimed {} (Detour.line [Detour.name, Detour.name]) Detour.request Detour.files
    (by decide +kernel) (.of_nodes (by decide +kernel) (by decide +kernel))
    [Detour.line [Detour.name], Detour.line [Detour.name]] (.cons single (.cons single .nil))
  have different : Detour.written (run {} (Detour.line [Detour.name, Detour.name]) Detour.files) ≠
      Detour.written (inTurn {} [Detour.line [Detour.name], Detour.line [Detour.name]] Detour.files) := by
    decide +kernel
  exact different (congrArg Detour.written same)

end JavaStubs
