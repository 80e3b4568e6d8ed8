import JavaStubs.CommandLine.Request
import JavaStubs.Proofs.Descriptor.Scoping

namespace JavaStubs.CommandLine

/-- No path is empty. -/
structure Options.Filled (options : Options) : Prop where
  output : options.output ≠ some ""
  source : options.source ≠ some ""

theorem Options.Filled.assign {options next : Options} (filled : options.Filled) {switch : Switch}
    {value : String} (assigned : options.assign switch value = .ok next) : next.Filled := by
  have known (path : Path) {given : Bool} (free : ¬ (decide (path = "") || given) = true) :
      some path ≠ some "" := by
    intro empty
    simp [Option.some.inj empty] at free
  unfold Options.assign at assigned
  split at assigned
  · split at assigned
    · cases assigned
    · rename_i free
      cases assigned
      exact ⟨known value free, filled.source⟩
  · split at assigned
    · cases assigned
    · rename_i free
      cases assigned
      exact ⟨filled.output, known value free⟩
  · split at assigned
    · cases assigned
    · cases assigned
      exact ⟨filled.output, filled.source⟩
  · cases assigned
  · cases assigned

namespace Reading

variable {r next : Reading} {switch : Switch} {value : String}

structure Filled (r : Reading) : Prop where
  before : r.before.Filled
  after : r.after.Filled

theorem Filled.assign (filled : r.Filled) (assigned : r.assign switch value = .ok next) :
    next.Filled := by
  unfold Reading.assign at assigned
  split at assigned
  · obtain ⟨options, changed, same⟩ := bind_eq_ok assigned
    cases same
    exact ⟨filled.before.assign changed, filled.after⟩
  · obtain ⟨options, changed, same⟩ := bind_eq_ok assigned
    cases same
    exact ⟨filled.before, filled.after.assign changed⟩

theorem Filled.takeLong (filled : r.Filled) {value : Option String}
    (taken : r.takeLong switch value = .ok next) : next.Filled := by
  unfold Reading.takeLong at taken
  split at taken
  · cases taken
  · cases taken
    exact filled
  · exact filled.assign taken
  · cases taken
    exact ⟨filled.before, filled.after⟩

theorem Filled.cluster {text : List Char} (filled : r.Filled) (read : r.cluster text = .ok next) :
    next.Filled := by
  induction text with
  | nil =>
    cases read
    exact filled
  | cons c rest ih =>
    unfold Reading.cluster at read
    obtain ⟨switch, _, read⟩ := bind_eq_ok read
    split at read
    · cases read
    · exact ih read
    · split at read
      · cases read
        exact ⟨filled.before, filled.after⟩
      · exact filled.assign read

theorem Filled.bare {word : String} (filled : r.Filled) (read : r.bare word = .ok next) :
    next.Filled := by
  unfold Reading.bare at read
  split at read
  · cases read
    exact ⟨filled.before, filled.after⟩
  · split at read
    · cases read
      exact ⟨filled.before, filled.after⟩
    · cases read

/-- One more word leaves no path empty. -/
theorem Filled.word {word : String} (filled : r.Filled) (read : r.word word = .ok next) :
    next.Filled := by
  unfold Reading.word at read
  split at read
  · exact filled.bare read
  · split at read
    · unfold Reading.awaited at read
      split at read
      · cases read
      · have same : Filled { r with waiting := none } := ⟨filled.before, filled.after⟩
        exact same.assign read
    · split at read
      · unfold Reading.endOptions at read
        split at read
        · cases read
          exact ⟨filled.before, filled.after⟩
        · cases read
      · obtain ⟨_, _, read⟩ := bind_eq_ok read
        exact filled.takeLong read
      · exact filled.cluster read
      · exact filled.bare read

end Reading

/-- The request has paths that are not empty, something to generate and the usual extension. -/
structure Request.Sensible (request : Request) : Prop where
  source : request.source ≠ some ""
  output : request.generator.output ≠ ""
  extension : request.generator.naming.extension = "java"
  names : request.names ≠ []

theorem fallback_filled {option given found : Option Path} (filled : option ≠ some "")
    (known : fallback option given = .ok found) : found ≠ some "" := by
  unfold fallback at known
  split at known
  · cases known
  · rename_i other
    cases known
    exact fun empty => other empty
  · cases known
    exact filled

theorem outputOf_filled {env : Environment} {r : Reading} {output : Path} (filled : r.Filled)
    (found : outputOf env r = .ok output) : output ≠ "" := by
  unfold outputOf at found
  obtain ⟨before, known, found⟩ := bind_eq_ok found
  obtain ⟨_, _, found⟩ := bind_eq_ok found
  cases found
  have ahead : before ≠ some "" := fallback_filled filled.before.output known
  have behind : r.after.output ≠ some "" := filled.after.output
  cases after : r.after.output with
  | some path =>
    rw [after] at behind
    simpa using behind
  | none =>
    cases before with
    | some path => simpa using ahead
    | none => simp

/-- Whatever a line asks for is sensible. -/
theorem Request.ofWords_sensible {env : Environment} {words : List String} {request : Request}
    (asked : ofWords env words = .ok request) : request.Sensible := by
  obtain ⟨r, read, finished⟩ := bind_eq_ok asked
  have filled : r.Filled := by
    refine foldlM_invariant (P := Reading.Filled) (fun r word _ next before step => before.word step) ?_ read
    exact ⟨⟨nofun, nofun⟩, ⟨nofun, nofun⟩⟩
  unfold Reading.finish at finished
  dsimp only at finished
  split at finished
  case h_2 => cases finished
  case h_1 command _ =>
  rw [pure_bind] at finished
  split at finished
  · cases finished
  rename_i named
  have some : r.names ≠ [] := by
    intro empty
    simp [empty] at named
  split at finished
  · rw [pure_bind] at finished
    obtain ⟨output, found, finished⟩ := bind_eq_ok finished
    cases finished
    exact ⟨nofun, outputOf_filled filled found, rfl, some⟩
  · obtain ⟨option, known, finished⟩ := bind_eq_ok finished
    have nonempty := fallback_filled filled.after.source known
    split at finished
    · rw [pure_bind] at finished
      obtain ⟨output, found, finished⟩ := bind_eq_ok finished
      cases finished
      exact ⟨nonempty, outputOf_filled filled found, rfl, some⟩
    · cases finished

/-- A long option with its value. -/
def setting (key value : String) : String := "--" ++ key ++ "=" ++ value

namespace Reading

variable {r : Reading}

theorem word_setting (listening : r.plain = false) (ready : r.waiting = none) {key : String}
    {switch : Switch} (known : Switch.ofLong? key = some switch) (plain : '=' ∉ key.toList)
    (allowed : switch.allowedAt r.command = true) (value : String) :
    r.word (setting key value) = r.assign switch value := by
  have written : (setting key value).toList =
      '-' :: '-' :: (key.toList ++ '=' :: value.toList) := by
    simp [setting, String.toList_append]
  have nonempty : key.toList ++ '=' :: value.toList ≠ [] := by simp
  have name : (key.toList ++ '=' :: value.toList).takeWhile (· != '=') = key.toList := by
    rw [List.takeWhile_append_of_pos]
    · simp
    · intro c member
      simpa using fun same : c = '=' => plain (same ▸ member)
  have rest : (key.toList ++ '=' :: value.toList).dropWhile (· != '=') = '=' :: value.toList := by
    rw [List.dropWhile_append_of_pos]
    · simp
    · intro c member
      simpa using fun same : c = '=' => plain (same ▸ member)
  have long : r.word (setting key value) = r.long (key.toList ++ '=' :: value.toList) := by
    unfold Reading.word
    rw [listening, ready, written]
    obtain ⟨c, text, cut⟩ := List.exists_cons_of_ne_nil nonempty
    rw [cut]
    rfl
  have permitted : r.allow (some switch) = .ok switch := by simp [Reading.allow, Option.filter, allowed]
  rw [long, Reading.long, name, rest, String.ofList_toList, known, permitted, ok_bind]
  cases switch <;> simp [Reading.takeLong]

end Reading

namespace Request

/-- The command of a request, with its source. -/
def commandWords (request : Request) : List String :=
  match request.source with
  | none => ["stdlib"]
  | some root => ["dir", setting "source" root]

/-- A line that asks for one of the names of a request. The output stands on both sides of the
command, so the environment is not asked. -/
def lineFor (request : Request) (name : String) : List String :=
  setting "output" request.generator.output :: request.commandWords ++
    [setting "output" request.generator.output, setting "suffix" request.generator.naming.suffix,
      "--", name]

theorem ofWords_lineFor {request : Request} (sensible : request.Sensible) (env : Environment)
    (name : String) : ofWords env (request.lineFor name) = .ok { request with names := [name] } := by
  obtain ⟨source, ⟨output, ⟨suffix, extension⟩⟩, names⟩ := request
  obtain ⟨sourceFilled, outputFilled, java, _⟩ := sensible
  dsimp only at sourceFilled outputFilled java
  subst java
  have first : Reading.word {} (setting "output" output) =
      .ok { before := { output := some output } } := by
    rw [Reading.word_setting rfl rfl (by rfl : _ = some Switch.output) (by decide) rfl]
    simp [Reading.assign, Options.assign, outputFilled]
  have again (command : Command) (source : Option Path) :
      Reading.word { command := some command, before := { output := some output }, after := { source } }
        (setting "output" output) = .ok { command := some command, before := { output := some output }
                                          after := { source, output := some output } } := by
    rw [Reading.word_setting rfl rfl (by rfl : _ = some Switch.output) (by decide) rfl]
    simp [Reading.assign, Options.assign, outputFilled]
  have ending (command : Command) (source : Option Path) :
      Reading.word { command := some command, before := { output := some output }
                     after := { source, output := some output } }
        (setting "suffix" suffix) = .ok { command := some command, before := { output := some output }
                                          after := { source, output := some output
                                                     suffix := some suffix } } := by
    rw [Reading.word_setting rfl rfl (by rfl : _ = some Switch.suffix) (by decide) rfl]
    simp [Reading.assign, Options.assign]
  unfold ofWords lineFor commandWords
  rw [List.cons_append, List.foldlM_cons, first, ok_bind, List.foldlM_append]
  cases source with
  | none =>
    have command : ["stdlib"].foldlM Reading.word { before := { output := some output } } =
        .ok { command := some .stdlib, before := { output := some output } } := rfl
    dsimp only
    rw [command, ok_bind, List.foldlM_cons, again, ok_bind, List.foldlM_cons, ending, ok_bind]
    rfl
  | some root =>
    have rootFilled : root ≠ "" := by simpa using sourceFilled
    have command : Reading.word { before := { output := some output } } "dir" =
        .ok { command := some .dir, before := { output := some output } } := rfl
    have place : Reading.word { command := some .dir, before := { output := some output } }
        (setting "source" root) = .ok { command := some .dir, before := { output := some output }
                                        after := { source := some root } } := by
      rw [Reading.word_setting rfl rfl (by rfl : _ = some Switch.source) (by decide) rfl]
      simp [Reading.assign, Options.assign, rootFilled]
    dsimp only
    rw [List.foldlM_cons, command, ok_bind, List.foldlM_cons, place, ok_bind, List.foldlM_nil]
    change (List.foldlM _ _ _ >>= fun r => Reading.finish env r) = _
    rw [List.foldlM_cons, again, ok_bind, List.foldlM_cons, ending, ok_bind]
    rfl

end Request

end JavaStubs.CommandLine
