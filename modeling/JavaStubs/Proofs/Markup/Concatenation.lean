import JavaStubs.Markup.Element
import Mathlib.Data.List.Forall2

namespace JavaStubs.Markup

open Document

/-- How far a tree has been built: the open elements, and the finished ones in the innermost of them,
the last one first. -/
abbrev Stage := List Frame × List Element

namespace Stage

def after (stage : Stage) : Event → Stage
  | .opening tag => ((tag, stage.2) :: stage.1, [])
  | .empty tag => (stage.1, .node tag [] .selfClosed :: stage.2)
  | .closing =>
    match stage.1 with
    | [] => stage
    | (tag, before) :: frames => (frames, .node tag stage.2.reverse .closed :: before)
  | .fault _ => stage

/-- The stage that events lead to, the last of which is the first in the list. -/
def ofEvents (events : List Event) : Stage := events.foldr (fun event stage => stage.after event) ([], [])

/-- The names of the open elements. -/
def names (stage : Stage) : List String := stage.1.map (·.1.name)

/-- The stage inside of other open elements, behind finished ones. -/
def within (outer : List Frame) (before : List Element) : List Frame → List Element → Stage
  | [], done => (outer, done ++ before)
  | (tag, siblings) :: frames, done =>
    let above := within outer before frames siblings
    ((tag, above.2) :: above.1, done)

theorem within_cons (outer : List Frame) (before : List Element) (frames : List Frame)
    (element : Element) (done : List Element) :
    within outer before frames (element :: done) =
      ((within outer before frames done).1, element :: (within outer before frames done).2) := by
  cases frames <;> rfl

/-- An event has the same effect inside, unless it closes what is not open here. -/
theorem after_within (outer : List Frame) (before : List Element) {stage : Stage} {event : Event}
    (inner : event = .closing → stage.1 ≠ []) :
    (within outer before stage.1 stage.2).after event =
      within outer before (stage.after event).1 (stage.after event).2 := by
  obtain ⟨frames, done⟩ := stage
  cases event with
  | opening tag => rfl
  | empty tag => exact (within_cons ..).symm
  | closing =>
    cases frames with
    | nil => exact absurd rfl (inner rfl)
    | cons frame frames => exact (within_cons ..).symm
  | fault fault => rfl

end Stage

namespace Document

/-- A fault ends up in the document. -/
theorem cutOff_fault (fault : Option MarkupFault) (frames : List Frame) (done : List Element) :
    (cutOff fault frames done).fault = fault := by
  induction frames generalizing done with
  | nil => rfl
  | cons frame frames ih => exact ih _

theorem build_fault {events : List Event} {frames : List Frame} {done : List Element}
    (whole : (build frames done events).fault = none) : ∀ fault, Event.fault fault ∉ events := by
  induction events generalizing frames done with
  | nil => simp
  | cons event rest ih =>
    have later {frames' : List Frame} {done' : List Element} (other : ∀ fault, event ≠ .fault fault)
        (same : build frames done (event :: rest) = build frames' done' rest) :
        ∀ fault, Event.fault fault ∉ event :: rest := by
      intro fault member
      rcases List.mem_cons.mp member with here | there
      · exact other fault here.symm
      · exact ih (same ▸ whole) fault there
    cases event with
    | fault fault =>
      rw [build, cutOff_fault] at whole
      cases whole
    | opening tag => exact later nofun rfl
    | empty tag => exact later nofun rfl
    | closing =>
      cases frames with
      | nil => exact later nofun rfl
      | cons frame frames => exact later nofun rfl

/-- Without faults, a document is what the stage at its end is cut off to. -/
theorem build_eq_cutOff {events : List Event} (whole : ∀ fault, Event.fault fault ∉ events)
    (stage : Stage) : build stage.1 stage.2 events =
      cutOff none (events.foldl Stage.after stage).1 (events.foldl Stage.after stage).2 := by
  induction events generalizing stage with
  | nil => rfl
  | cons event rest ih =>
    have further := ih (fun fault member => whole fault (List.mem_cons_of_mem _ member))
      (stage.after event)
    obtain ⟨frames, done⟩ := stage
    rw [List.foldl_cons, ← further]
    cases event with
    | fault fault => exact absurd (List.mem_cons_self ..) (whole fault)
    | opening tag => rfl
    | empty tag => rfl
    | closing => cases frames <;> rfl

/-- What is cut off while elements are open has an element that is cut. -/
theorem exists_cut (fault : Option MarkupFault) {frames : List Frame} (inside : frames ≠ [])
    (done : List Element) : ∃ element ∈ (cutOff fault frames done).elements,
      element.ending = .cut fault := by
  have outermost (frames : List Frame) {done : List Element}
      (cut : ∃ element ∈ done, element.ending = .cut fault) :
      ∃ element ∈ (cutOff fault frames done).elements, element.ending = .cut fault := by
    induction frames generalizing done with
    | nil =>
      obtain ⟨element, member, ends⟩ := cut
      exact ⟨element, List.mem_reverse.mpr member, ends⟩
    | cons frame frames ih => exact ih ⟨_, List.mem_cons_self .., rfl⟩
  obtain ⟨frame, frames, rfl⟩ := List.exists_cons_of_ne_nil inside
  exact outermost frames ⟨_, List.mem_cons_self .., rfl⟩

end Document

namespace Scanner

/-- What a scanner does at one character. -/
inductive Action
  | turn (mode : Mode)
  | stop (fault : MarkupFault)
  | empty (tag : Tag)
  | opening (tag : Tag)
  | closing (seen : List Char)

def perform (s : Scanner) : Action → Scanner
  | .turn mode => { s with mode }
  | .stop fault => s.stop fault
  | .empty tag => s.emit (.empty tag)
  | .opening tag => { s.emit (.opening tag) with openNames := tag.name :: s.openNames }
  | .closing seen => s.closeEnd seen

/-- The change is the same action, whatever the scanner has read before. -/
def Uniform (change : Scanner → Scanner) : Prop :=
  ∃ action, action ≠ .turn .stopped ∧ ∀ s, change s = s.perform action

namespace Uniform

theorem turn {mode : Mode} (going : mode ≠ .stopped) : Uniform fun s => { s with mode } :=
  ⟨.turn mode, by simpa using going, fun _ => rfl⟩

theorem resume : Uniform Scanner.resume := turn nofun

theorem stop (fault : MarkupFault) : Uniform fun s => s.stop fault := ⟨.stop fault, nofun, fun _ => rfl⟩

theorem closeEnd (seen : List Char) : Uniform fun s => s.closeEnd seen :=
  ⟨.closing seen, nofun, fun _ => rfl⟩

theorem closeStart (seen : List Char) : Uniform fun s => s.closeStart seen := by
  by_cases slash : ∃ inside, seen = '/' :: inside
  · obtain ⟨inside, rfl⟩ := slash
    exact ⟨.empty (Tag.ofText inside.reverse), nofun, fun _ => rfl⟩
  · refine ⟨.opening (Tag.ofText seen.reverse), nofun, fun s => ?_⟩
    unfold Scanner.closeStart
    split
    · rename_i inside
      exact absurd ⟨inside, rfl⟩ slash
    · rfl

theorem ite {p : Prop} [Decidable p] {yes no : Scanner → Scanner} (one : Uniform yes)
    (other : Uniform no) : Uniform fun s => if p then yes s else no s := by
  by_cases holds : p
  · simpa only [holds, if_true] using one
  · simpa only [holds, if_false] using other

theorem comment (seen : List Char) (c : Char) : Uniform fun s => s.stepComment seen c :=
  .ite (.ite .resume (.stop _)) (.turn nofun)

theorem data (seen : List Char) (c : Char) : Uniform fun s => s.stepData seen c :=
  .ite (.ite .resume (.stop _)) (.turn nofun)

theorem doctype (zone : DoctypeZone) (seen : List Char) (c : Char) :
    Uniform fun s => (zone.step c).elim (s.closeDoctype seen) fun zone =>
      { s with mode := .doctype zone (c :: seen) } := by
  cases zone.step c with
  | none => exact .ite (.ite (.stop _) .resume) (.stop _)
  | some zone => exact .turn nofun

theorem instruction (seen : List Char) (c : Char) : Uniform fun s => s.stepInstruction seen c := by
  unfold stepInstruction
  split
  · exact .ite (.stop _) (.turn nofun)
  · exact .ite .resume (.turn nofun)
  · exact .turn nofun

theorem start (quote : Option Char) (seen : List Char) (c : Char) :
    Uniform fun s => s.stepStart quote seen c := .ite (.closeStart seen) (.turn nofun)

theorem ending (quote : Option Char) (seen : List Char) (c : Char) :
    Uniform fun s => s.stepEnd quote seen c := .ite (.closeEnd seen) (.turn nofun)

end Uniform

/-- What a scanner does depends on its mode only. -/
theorem exists_uniform {mode : Mode} (going : mode ≠ .stopped) (c : Char) :
    ∃ change, Uniform change ∧ ∀ s : Scanner, s.mode = mode → s.step c = change s := by
  have stays {s : Scanner} (here : s.mode = mode) : s = { s with mode } := by
    obtain ⟨_, _, _⟩ := s
    cases here
    rfl
  cases mode with
  | text =>
    refine ⟨fun s => if c = '<' then { s with mode := .tagStart } else
      if c = '&' then { s with mode := .reference } else { s with mode := .text },
      .ite (.turn nofun) (.ite (.turn nofun) (.turn nofun)), fun s here => ?_⟩
    simp only [step, here, ← stays here]
  | reference =>
    refine ⟨fun s => if c = ';' then s.resume else
      if c = '&' ∨ c = '<' then s.stop .unclosedReference else { s with mode := .reference },
      .ite .resume (.ite (.stop _) (.turn nofun)), fun s here => ?_⟩
    simp only [step, here, ← stays here]
  | tagStart =>
    refine ⟨fun s => if c = '!' then { s with mode := .markup } else
      if c = '?' then { s with mode := .instruction [] } else
      if c = '/' then { s with mode := .endTag none [] } else s.stepStart none [] c,
      .ite (.turn nofun) (.ite (.turn nofun) (.ite (.turn nofun) (.start ..))), fun s here => ?_⟩
    simp only [step, here]
  | markup =>
    refine ⟨fun s => if c = '[' then { s with mode := .data [c] } else
      if c = '-' then { s with mode := .comment [c] } else
      if c = 'D' ∨ c = 'd' then { s with mode := .doctype (.before none) [c] } else
        s.stop .unknownMarkup,
      .ite (.turn nofun) (.ite (.turn nofun) (.ite (.turn nofun) (.stop _))), fun s here => ?_⟩
    simp only [step, here]
  | comment seen => exact ⟨_, .comment seen c, fun s here => by simp only [step, here]⟩
  | data seen => exact ⟨_, .data seen c, fun s here => by simp only [step, here]⟩
  | doctype zone seen =>
    refine ⟨_, .doctype zone seen c, fun s here => ?_⟩
    simp only [step, here]
    cases zone.step c <;> rfl
  | instruction seen => exact ⟨_, .instruction seen c, fun s here => by simp only [step, here]⟩
  | startTag quote seen => exact ⟨_, .start quote seen c, fun s here => by simp only [step, here]⟩
  | endTag quote seen => exact ⟨_, .ending quote seen c, fun s here => by simp only [step, here]⟩
  | stopped => exact absurd rfl going

theorem exists_action {mode : Mode} (going : mode ≠ .stopped) (c : Char) :
    ∃ action, action ≠ .turn .stopped ∧ ∀ s : Scanner, s.mode = mode → s.step c = s.perform action := by
  obtain ⟨change, ⟨action, turns, same⟩, changed⟩ := exists_uniform going c
  exact ⟨action, turns, fun s here => (changed s here).trans (same s)⟩

/-- The open names are those of the open elements, and a scanner that has stopped has a fault. -/
structure Matched (s : Scanner) : Prop where
  names : (Stage.ofEvents s.events).names = s.openNames
  faulty : s.mode = .stopped → ∃ fault, Event.fault fault ∈ s.events

variable {s t : Scanner}

theorem step_stopped (stopped : s.mode = .stopped) (c : Char) : s.step c = s := by
  simp only [step, stopped]

theorem run_stopped (stopped : s.mode = .stopped) (text : List Char) : text.foldl step s = s := by
  induction text with
  | nil => rfl
  | cons c rest ih => rw [List.foldl_cons, step_stopped stopped, ih]

theorem Matched.closeEnd (matched : s.Matched) (seen : List Char) : (s.closeEnd seen).Matched := by
  have stopping (fault : MarkupFault) : (s.stop fault).Matched :=
    ⟨matched.names, fun _ => ⟨fault, List.mem_cons_self ..⟩⟩
  unfold Scanner.closeEnd
  dsimp only
  split
  · exact stopping _
  · rename_i innermost outer inside
    split
    · refine ⟨?_, nofun⟩
      have names := matched.names
      rw [inside] at names
      change ((Stage.ofEvents s.events).after .closing).names = outer
      generalize Stage.ofEvents s.events = stage at names ⊢
      obtain ⟨frames, done⟩ := stage
      cases frames with
      | nil => cases names
      | cons frame frames => exact (List.cons.inj names).2
    · exact stopping _

theorem Matched.perform (matched : s.Matched) {action : Action} (going : action ≠ .turn .stopped) :
    (s.perform action).Matched := by
  cases action with
  | turn mode => exact ⟨matched.names, fun stopped => absurd (congrArg Action.turn stopped) going⟩
  | stop fault => exact ⟨matched.names, fun _ => ⟨fault, List.mem_cons_self ..⟩⟩
  | empty tag => exact ⟨matched.names, nofun⟩
  | opening tag => exact ⟨congrArg (tag.name :: ·) matched.names, nofun⟩
  | closing seen => exact matched.closeEnd seen

theorem Matched.step (matched : s.Matched) (c : Char) : (s.step c).Matched := by
  by_cases stopped : s.mode = .stopped
  · rw [step_stopped stopped]
    exact matched
  · obtain ⟨action, going, acts⟩ := exists_action stopped c
    rw [acts s rfl]
    exact matched.perform going

theorem Matched.run (matched : s.Matched) (text : List Char) : (text.foldl Scanner.step s).Matched := by
  induction text generalizing s with
  | nil => exact matched
  | cons c rest ih => exact ih (matched.step c)

theorem matched_start : Matched {} := ⟨rfl, nofun⟩

/-- The second scanner is where the first one is, but inside of other elements. -/
structure Inside (outer : List Frame) (before : List Element) (s t : Scanner) : Prop where
  mode : t.mode = s.mode
  names : t.openNames = s.openNames ++ outer.map (·.1.name)
  stage : Stage.ofEvents t.events =
    .within outer before (Stage.ofEvents s.events).1 (Stage.ofEvents s.events).2
  whole : ∀ fault, Event.fault fault ∉ t.events

variable {outer : List Frame} {before : List Element}

/-- After the same event, the second is still where the first one is. -/
theorem Inside.emit (inside : Inside outer before s t) (event : Event) (names : List String)
    (inner : event = .closing → (Stage.ofEvents s.events).1 ≠ []) (whole : ∀ fault, event ≠ .fault fault) :
    Inside outer before { s.emit event with openNames := names }
      { t.emit event with openNames := names ++ outer.map (·.1.name) } where
  mode := rfl
  names := rfl
  stage := by
    change (Stage.ofEvents t.events).after event = _
    rw [inside.stage]
    exact Stage.after_within outer before inner
  whole := by
    intro fault member
    rcases List.mem_cons.mp member with here | there
    · exact whole fault here.symm
    · exact inside.whole fault there

theorem Inside.closeEnd (inside : Inside outer before s t) (matched : s.Matched) {seen : List Char}
    (going : (s.closeEnd seen).mode ≠ .stopped) :
    Inside outer before (s.closeEnd seen) (t.closeEnd seen) := by
  cases opened : s.openNames with
  | nil => exact absurd (by simp [Scanner.closeEnd, opened, stop]) going
  | cons innermost rest =>
    have openedInside : t.openNames = innermost :: (rest ++ outer.map (·.1.name)) := by
      rw [inside.names, opened, List.cons_append]
    by_cases named : endName seen = innermost
    · have closing : (Stage.ofEvents s.events).1 ≠ [] := by
        intro none
        have names := matched.names
        rw [opened, Stage.names, none] at names
        cases names
      have emitted := inside.emit .closing rest (fun _ => closing) nofun
      simpa [Scanner.closeEnd, opened, openedInside, named] using emitted
    · exact absurd (by simp [Scanner.closeEnd, opened, named, stop]) going

theorem Inside.perform (inside : Inside outer before s t) (matched : s.Matched) {action : Action}
    (going : (s.perform action).mode ≠ .stopped) :
    Inside outer before (s.perform action) (t.perform action) := by
  cases action with
  | turn mode => exact ⟨rfl, inside.names, inside.stage, inside.whole⟩
  | stop fault => exact absurd rfl going
  | empty tag =>
    have emitted := inside.emit (.empty tag) s.openNames nofun nofun
    rw [← inside.names] at emitted
    exact emitted
  | opening tag =>
    have emitted := inside.emit (.opening tag) (tag.name :: s.openNames) nofun nofun
    rw [List.cons_append, ← inside.names] at emitted
    exact emitted
  | closing seen => exact inside.closeEnd matched going

/-- Both do the same at a character, as long as the first does not stop. -/
theorem Inside.step (inside : Inside outer before s t) (matched : s.Matched) {c : Char}
    (going : (s.step c).mode ≠ .stopped) : Inside outer before (s.step c) (t.step c) := by
  by_cases stopped : s.mode = .stopped
  · rw [step_stopped stopped] at going
    exact absurd stopped going
  · obtain ⟨action, _, acts⟩ := exists_action stopped c
    rw [acts s rfl] at going ⊢
    rw [acts t inside.mode]
    exact inside.perform matched going

theorem Inside.run (inside : Inside outer before s t) (matched : s.Matched) {text : List Char}
    (going : (text.foldl Scanner.step s).mode ≠ .stopped) :
    Inside outer before (text.foldl Scanner.step s) (text.foldl Scanner.step t) := by
  induction text generalizing s t with
  | nil => exact inside
  | cons c rest ih =>
    rw [List.foldl_cons] at going ⊢
    refine ih (inside.step matched fun stopped => ?_) (matched.step c) going
    rw [run_stopped stopped] at going
    exact going stopped

/-- A byte order mark is text like any other, where it is not at the start. -/
theorem run_dropMark (reading : s.mode = .text) (text : List Char) :
    text.foldl step s = (dropMark text).foldl step s := by
  unfold dropMark
  split
  · rename_i rest
    have skipped : s.step '\uFEFF' = s := by simp [step, reading]
    rw [List.foldl_cons, skipped]
  · rfl

end Scanner

/-- The text is one element that ends, apart from what leaves no trace in a document. -/
structure Lone (text : String) (element : Element) : Prop where
  document : Document.parse text = ⟨[element], none⟩
  ended : ∀ fault, element.ending ≠ .cut fault

/-- A scanner that is back in text has the document that its stage is cut off to. -/
theorem parse_of_run {text : String} {final : Scanner}
    (run : (dropMark text.toList).foldl Scanner.step {} = final) (reading : final.mode = .text)
    (whole : ∀ fault, Event.fault fault ∉ final.events) : Document.parse text =
      cutOff none (Stage.ofEvents final.events).1 (Stage.ofEvents final.events).2 := by
  have finished : events text = final.events.reverse := by
    rw [events, run, Scanner.finish, reading]
    rfl
  have folded : final.events.reverse.foldl Stage.after ([], []) = Stage.ofEvents final.events :=
    List.foldl_reverse
  rw [Document.parse, finished, ← folded]
  exact build_eq_cutOff (by simpa using whole) ([], [])

/-- A text without faults is read to its end. -/
theorem run_whole {text : String} {final : Scanner}
    (run : (dropMark text.toList).foldl Scanner.step {} = final)
    (whole : (Document.parse text).fault = none) :
    final.mode = .text ∧ ∀ fault, Event.fault fault ∉ final.events := by
  have matched : final.Matched := run ▸ Scanner.matched_start.run _
  have faultless : ∀ fault, Event.fault fault ∉ final.finish := by
    rw [← run]
    exact build_fault whole
  unfold Scanner.finish at faultless
  cases ended : Scanner.endFault? final.mode with
  | some fault =>
    rw [ended] at faultless
    exact absurd (by simp) (faultless fault)
  | none =>
    simp only [ended, List.mem_reverse] at faultless
    refine ⟨?_, faultless⟩
    cases mode : final.mode with
    | text => rfl
    | stopped =>
      obtain ⟨fault, member⟩ := matched.faulty mode
      exact absurd member (faultless fault)
    | startTag quote seen => cases quote <;> simp [mode, Scanner.endFault?] at ended
    | endTag quote seen => cases quote <;> simp [mode, Scanner.endFault?] at ended
    | _ => simp [mode, Scanner.endFault?] at ended

namespace Lone

variable {text : String} {element : Element}

/-- Alone, the scanner ends where it began, with one element. -/
theorem run (lone : Lone text element) {final : Scanner}
    (run : (dropMark text.toList).foldl Scanner.step {} = final) :
    final.mode = .text ∧ final.openNames = [] ∧ Stage.ofEvents final.events = ([], [element]) := by
  have matched : final.Matched := run ▸ Scanner.matched_start.run _
  obtain ⟨reading, faultless⟩ := run_whole run (congrArg Document.fault lone.document)
  have parsed := parse_of_run run reading faultless
  rw [lone.document] at parsed
  have names := matched.names
  generalize Stage.ofEvents final.events = stage at parsed names ⊢
  obtain ⟨frames, done⟩ := stage
  cases frames with
  | cons frame frames =>
    -- An element would be open still, and so it would be cut.
    obtain ⟨other, member, ends⟩ := exists_cut none (List.cons_ne_nil frame frames) done
    rw [← parsed, List.mem_singleton] at member
    exact absurd (member ▸ ends) (lone.ended none)
  | nil =>
    have reversed : done.reverse = [element] := (congrArg Document.elements parsed).symm
    have alone : done = [element] := by simpa using congrArg List.reverse reversed
    exact ⟨reading, names.symm, by rw [alone]⟩

end Lone

/-- The scanner stands inside an element of this name, behind the elements. -/
structure Listing (tag : Tag) (elements : List Element) (s : Scanner) : Prop where
  mode : s.mode = .text
  names : s.openNames = [tag.name]
  stage : Stage.ofEvents s.events = ([(tag, [])], elements.reverse)
  whole : ∀ fault, Event.fault fault ∉ s.events

namespace Listing

variable {tag : Tag} {elements : List Element} {s : Scanner}

/-- One more text is one more element. -/
theorem read (listing : Listing tag elements s) {text : String} {element : Element}
    (lone : Lone text element) :
    Listing tag (elements ++ [element]) (text.toList.foldl Scanner.step s) := by
  have start : Scanner.Inside [(tag, [])] elements.reverse {} s :=
    ⟨listing.mode, listing.names, listing.stage, listing.whole⟩
  obtain ⟨reading, opened, stage⟩ := lone.run rfl
  have inside := start.run Scanner.matched_start (by rw [reading]; nofun)
  rw [Scanner.run_dropMark listing.mode]
  refine ⟨inside.mode.trans reading, ?_, ?_, inside.whole⟩
  · rw [inside.names, opened]
    rfl
  · rw [inside.stage, stage, List.reverse_append]
    rfl

theorem readAll (listing : Listing tag elements s) {texts : List String} {more : List Element}
    (each : List.Forall₂ Lone texts more) :
    Listing tag (elements ++ more) ((texts.flatMap String.toList).foldl Scanner.step s) := by
  induction each generalizing elements s with
  | nil => simpa using listing
  | @cons text element texts more lone _ ih =>
    have further := ih (listing.read lone)
    rw [List.append_assoc, List.singleton_append] at further
    rw [List.flatMap_cons, List.foldl_append]
    exact further

end Listing

/-- Texts one after the other in a `types` element. -/
def inTypes (texts : List String) : String := "<types>" ++ String.join texts ++ "</types>"

/-- Whole elements in a `types` element are its children. -/
theorem parse_inTypes {texts : List String} {elements : List Element}
    (each : List.Forall₂ Lone texts elements) : Document.parse (inTypes texts) =
      ⟨[.node ⟨"types", []⟩ elements .closed], none⟩ := by
  have start : Listing ⟨"types", []⟩ [] ("<types>".toList.foldl Scanner.step {}) := by
    have read : "<types>".toList.foldl Scanner.step {} =
        { openNames := ["types"], events := [.opening ⟨"types", []⟩] } := by decide +kernel
    rw [read]
    exact ⟨rfl, rfl, rfl, by simp⟩
  have inside := start.readAll each
  rw [List.nil_append] at inside
  generalize last : (texts.flatMap String.toList).foldl Scanner.step
    ("<types>".toList.foldl Scanner.step {}) = inner at inside
  have closed : "</types>".toList.foldl Scanner.step inner =
      { openNames := [], events := .closing :: inner.events } := by
    obtain ⟨mode, names, events⟩ := inner
    cases inside.mode
    cases inside.names
    rfl
  have unmarked : dropMark (inTypes texts).toList =
      "<types>".toList ++ texts.flatMap String.toList ++ "</types>".toList := by
    rw [inTypes, String.toList_append, String.toList_append, String.toList_join]
    rfl
  have run : (dropMark (inTypes texts).toList).foldl Scanner.step {} =
      { openNames := [], events := .closing :: inner.events } := by
    rw [unmarked, List.foldl_append, List.foldl_append, last, closed]
  have stage : Stage.ofEvents (.closing :: inner.events) =
      ([], [.node ⟨"types", []⟩ elements .closed]) := by
    change (Stage.ofEvents inner.events).after .closing = _
    rw [inside.stage]
    simp [Stage.after]
  rw [parse_of_run run rfl (by simpa using inside.whole)]
  dsimp only
  rw [stage]
  rfl

end JavaStubs.Markup
