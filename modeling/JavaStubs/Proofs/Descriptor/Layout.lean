import JavaStubs.Descriptor.Reader
import JavaStubs.Proofs.Descriptor.Scoping

namespace JavaStubs

namespace Markup

/-- The element has an end, its own tag or an end tag, and so has everything inside it. -/
inductive Element.Closed : Element → Prop
  | node {tag : Tag} {children : List Element} {ending : Ending}
      (ended : ∀ fault, ending ≠ .cut fault) (inside : ∀ child ∈ children, child.Closed) :
      Closed (.node tag children ending)

namespace Element

theorem closed_iff {element : Element} :
    element.Closed ↔ (∀ fault, element.ending ≠ .cut fault) ∧ ∀ child ∈ element.children, child.Closed := by
  cases element with
  | node tag children ending =>
    constructor
    · rintro ⟨ended, inside⟩
      exact ⟨ended, inside⟩
    · rintro ⟨ended, inside⟩
      exact .node ended inside

end Element

namespace Document

/-- Cutting off leaves all but the last element as they are. -/
theorem cutOff_dropLast {P : Element → Prop} {fault : Option MarkupFault} {frames : List Frame}
    {done : List Element} (before : ∀ frame ∈ frames, ∀ element ∈ frame.2, P element)
    (inner : frames = [] → ∀ element ∈ done.tail, P element) :
    ∀ element ∈ (cutOff fault frames done).elements.dropLast, P element := by
  induction frames generalizing done with
  | nil =>
    intro element member
    rw [cutOff, List.dropLast_reverse, List.mem_reverse] at member
    exact inner rfl element member
  | cons frame frames ih =>
    obtain ⟨outer, before⟩ := List.forall_mem_cons.mp before
    exact ih before fun _ => outer

/-- Only the last of the top-level elements can be one that the document stops in. -/
theorem build_dropLast {events : List Event} {frames : List Frame} {done : List Element}
    (before : ∀ frame ∈ frames, ∀ element ∈ frame.2, ∀ fault, element.ending ≠ .cut fault)
    (inner : ∀ element ∈ done, ∀ fault, element.ending ≠ .cut fault) :
    ∀ element ∈ (build frames done events).elements.dropLast, ∀ fault, element.ending ≠ .cut fault := by
  induction events generalizing frames done with
  | nil => exact cutOff_dropLast before fun _ element member => inner element (List.mem_of_mem_tail member)
  | cons event rest ih =>
    cases event with
    | fault fault =>
      exact cutOff_dropLast before fun _ element member => inner element (List.mem_of_mem_tail member)
    | empty tag => exact ih before (List.forall_mem_cons.mpr ⟨by simp [Element.ending], inner⟩)
    | opening tag => exact ih (List.forall_mem_cons.mpr ⟨inner, before⟩) (by simp)
    | closing =>
      cases frames with
      | nil => exact ih before inner
      | cons frame frames =>
        obtain ⟨outer, before⟩ := List.forall_mem_cons.mp before
        exact ih before (List.forall_mem_cons.mpr ⟨by simp [Element.ending], outer⟩)

end Document

end Markup

open Markup (Element Document Ending)

theorem foldlM_mem {ε α σ : Type} {f : σ → α → Except ε σ} {items : List α} {state final : σ}
    (done : items.foldlM f state = .ok final) : ∀ a ∈ items, ∃ s s', f s a = .ok s' := by
  induction items generalizing state with
  | nil => simp
  | cons a items ih =>
    rw [List.foldlM_cons] at done
    obtain ⟨next, first, done⟩ := bind_eq_ok done
    exact List.forall_mem_cons.mpr ⟨⟨state, next, first⟩, ih done⟩

namespace Declaration

theorem checkEnding_eq_ok {element : Element} (checked : checkEnding element = .ok ()) :
    ∀ fault, element.ending ≠ .cut fault := by
  intro fault cut
  rw [checkEnding, cut] at checked
  cases fault <;> cases checked

theorem checkLeaf_closed {element : Element} (checked : checkLeaf element = .ok ()) :
    element.Closed := by
  unfold checkLeaf at checked
  split at checked
  · cases checked
  · rename_i empty
    exact Element.closed_iff.mpr ⟨checkEnding_eq_ok checked, by simp [empty]⟩

theorem readMemberChild_closed {context : String} {inside inside' : MemberText} {child : Element}
    (read : readMemberChild context inside child = .ok inside') : child.Closed := by
  unfold readMemberChild at read
  dsimp only at read
  split_ifs at read
  case neg => cases read
  all_goals
    obtain ⟨_, _, read⟩ := bind_eq_ok read
    obtain ⟨_, _, read⟩ := bind_eq_ok read
    obtain ⟨_, checked, _⟩ := bind_eq_ok read
    exact checkLeaf_closed checked

theorem readMember_closed {element : Element} {inside : MemberText}
    (read : readMember element = .ok inside) : element.Closed := by
  obtain ⟨_, children, read⟩ := bind_eq_ok read
  obtain ⟨_, checked, _⟩ := bind_eq_ok read
  refine Element.closed_iff.mpr ⟨checkEnding_eq_ok checked, fun child member => ?_⟩
  obtain ⟨_, _, read⟩ := foldlM_mem children child member
  exact readMemberChild_closed read

theorem readMethod_closed {element : Element} {method : MethodText}
    (read : readMethod element = .ok method) : element.Closed := by
  unfold readMethod at read
  obtain ⟨_, _, read⟩ := bind_eq_ok read
  obtain ⟨_, _, read⟩ := bind_eq_ok read
  dsimp only at read
  split at read
  · cases read
  split at read
  · cases read
  split at read
  · cases read
  obtain ⟨_, member, _⟩ := bind_eq_ok read
  exact readMember_closed member

theorem readConstructor_closed {element : Element} {constructor : ConstructorText}
    (read : readConstructor element = .ok constructor) : element.Closed := by
  unfold readConstructor at read
  obtain ⟨_, _, read⟩ := bind_eq_ok read
  dsimp only at read
  split at read
  all_goals
    obtain ⟨_, _, read⟩ := bind_eq_ok read
    obtain ⟨_, member, _⟩ := bind_eq_ok read
    exact readMember_closed member

theorem readTypeChild_closed {context : String} {body body' : TypeBodyText} {child : Element}
    (read : readTypeChild context body child = .ok body') : child.Closed := by
  unfold readTypeChild at read
  split at read
  case h_4 =>
    obtain ⟨_, method, _⟩ := bind_eq_ok read
    exact readMethod_closed method
  case h_5 =>
    obtain ⟨_, constructor, _⟩ := bind_eq_ok read
    exact readConstructor_closed constructor
  case h_6 => cases read
  all_goals
    obtain ⟨_, _, read⟩ := bind_eq_ok read
    obtain ⟨_, checked, _⟩ := bind_eq_ok read
    exact checkLeaf_closed checked

theorem readBody_closed {element : Element} {body : TypeBodyText}
    (read : readBody element = .ok body) : element.Closed := by
  obtain ⟨_, children, read⟩ := bind_eq_ok read
  obtain ⟨_, checked, _⟩ := bind_eq_ok read
  refine Element.closed_iff.mpr ⟨checkEnding_eq_ok checked, fun child member => ?_⟩
  obtain ⟨_, _, read⟩ := foldlM_mem children child member
  exact readTypeChild_closed read

end Declaration

namespace Descriptor

theorem ofElement_closed {element : Element} {descriptor : Descriptor}
    (read : ofElement element = .ok descriptor) : element.Closed := by
  unfold ofElement at read
  obtain ⟨_, _, read⟩ := bind_eq_ok read
  split at read
  · cases read
  · split at read
    · cases read
    · obtain ⟨_, body, _⟩ := bind_eq_ok read
      exact Declaration.readBody_closed body

theorem declared_closed {elements : List Element} {all : List Descriptor}
    (read : elements.mapM ofElement = .ok all) : ∀ element ∈ elements, element.Closed := by
  intro element member
  obtain ⟨descriptor, _, own⟩ := forall₂_left (mapM_eq_ok_iff.mp read) member
  exact ofElement_closed own

theorem declared_eq_nil_iff {elements : List Element} {all : List Descriptor}
    (read : elements.mapM ofElement = .ok all) : elements = [] ↔ all = [] := by
  have length := (mapM_eq_ok_iff.mp read).length_eq
  rw [← List.length_eq_zero_iff, ← List.length_eq_zero_iff, length]

theorem readDeclared_eq_ok {progress next : Progress} {element : Element} :
    readDeclared progress element = .ok next ↔
      isTypeElement element = true ∧ (progress.inTypes = true ∨ progress.found = []) ∧
      ∃ descriptor, ofElement element = .ok descriptor ∧
        next = { progress with found := progress.found ++ [descriptor] } := by
  unfold readDeclared
  by_cases declares : isTypeElement element = true
  · by_cases second : !progress.inTypes ∧ !progress.found.isEmpty
    · have refused : ¬(progress.inTypes = true ∨ progress.found = []) := by simpa using second
      simp only [declares, second, refused, if_true, and_self, false_and, and_false, iff_false]
      intro read
      cases read
    · have allowed : progress.inTypes = true ∨ progress.found = [] := by simp at second; grind
      simp only [declares, second, allowed, if_true, if_false, true_and]
      constructor
      · intro read
        obtain ⟨descriptor, own, read⟩ := bind_eq_ok read
        cases read
        exact ⟨descriptor, own, rfl⟩
      · rintro ⟨descriptor, own, rfl⟩
        rw [own]
        rfl
  · rw [if_neg declares]
    constructor
    · intro read
      cases read
    · intro allowed
      exact absurd allowed.1 declares

theorem readTopLevel_inTypes (found : List Descriptor) :
    readTopLevel ⟨true, found⟩ = readDeclared ⟨true, found⟩ := by
  funext element
  simp [readTopLevel]

/-- Inside `types`, and after it, types are read one by one. -/
theorem readAll_inTypes {read : Progress → Element → Except DescriptorError Progress}
    (same : ∀ found, read ⟨true, found⟩ = readDeclared ⟨true, found⟩) {elements : List Element}
    {found : List Descriptor} {final : Progress} :
    elements.foldlM read ⟨true, found⟩ = .ok final ↔
      (∀ element ∈ elements, isTypeElement element = true) ∧
      ∃ all, elements.mapM ofElement = .ok all ∧ final = ⟨true, found ++ all⟩ := by
  induction elements generalizing found with
  | nil =>
    constructor
    · intro done
      cases done
      exact ⟨by simp, [], rfl, by simp⟩
    · rintro ⟨_, all, none, rfl⟩
      cases none
      simp [pure, Except.pure]
  | cons element rest ih =>
    rw [List.foldlM_cons, same]
    constructor
    · intro done
      obtain ⟨next, first, done⟩ := bind_eq_ok done
      obtain ⟨declares, _, descriptor, own, rfl⟩ := readDeclared_eq_ok.mp first
      obtain ⟨declare, all, others, rfl⟩ := ih.mp done
      refine ⟨List.forall_mem_cons.mpr ⟨declares, declare⟩, descriptor :: all, ?_, by simp⟩
      rw [List.mapM_cons, own, others]
      rfl
    · rintro ⟨declare, all, read, rfl⟩
      obtain ⟨declares, declare⟩ := List.forall_mem_cons.mp declare
      rw [List.mapM_cons] at read
      obtain ⟨descriptor, own, read⟩ := bind_eq_ok read
      obtain ⟨others, later, read⟩ := bind_eq_ok read
      cases read
      have first : readDeclared ⟨true, found⟩ element = .ok ⟨true, found ++ [descriptor]⟩ :=
        readDeclared_eq_ok.mpr ⟨declares, .inl rfl, descriptor, own, rfl⟩
      rw [first, ok_bind]
      exact ih.mpr ⟨declare, others, later, by simp⟩

theorem readTopLevel_again {found : List Descriptor} (some : found ≠ []) {element : Element}
    {next : Progress} : readTopLevel ⟨false, found⟩ element ≠ .ok next := by
  intro read
  rw [readTopLevel, if_neg (by simp [some])] at read
  obtain ⟨_, outside | none, _⟩ := readDeclared_eq_ok.mp read
  · cases outside
  · exact some none

/-- What the first element that counts can be. -/
theorem readTopLevel_first {element : Element} {next : Progress} :
    readTopLevel {} element = .ok next ↔
      element.name = "types" ∧ element.ending = .selfClosed ∧ next = {} ∨
      element.name = "types" ∧ (element.ending = .closed ∨ element.ending = .cut none) ∧
        element.children.foldlM readDeclared ⟨true, []⟩ = .ok next ∨
      isTypeElement element = true ∧
        ∃ descriptor, ofElement element = .ok descriptor ∧ next = ⟨false, [descriptor]⟩ := by
  unfold readTopLevel
  by_cases types : element.name = "types"
  · have listing : ¬isTypeElement element = true := by simp [isTypeElement, types]
    rw [if_pos (by simp [types])]
    simp only [types, listing, true_and]
    cases element.ending with
    | selfClosed => simp [pure, Except.pure, eq_comm]
    | closed => simp
    | cut fault =>
      cases fault with
      | none => simp
      | some fault =>
        simp only [reduceCtorEq, false_and, or_self, Ending.cut.injEq, iff_false]
        intro read
        obtain ⟨_, _, read⟩ := bind_eq_ok read
        cases read
  · rw [if_neg (by simp [types]), readDeclared_eq_ok]
    simp [types]

end Descriptor

/-- The top level of a document: empty lists of types, a list of types, and types beside it. -/
structure Layout where
  skipped : List Element
  listing : Option Element
  beside : List Element

namespace Layout

open Descriptor

def elements (layout : Layout) : List Element :=
  layout.skipped ++ (layout.listing.toList ++ layout.beside)

/-- The elements that declare the types, in order. -/
def declared (layout : Layout) : List Element :=
  layout.listing.toList.flatMap Element.children ++ layout.beside

/-- What reading demands of the elements. -/
structure Lawful (layout : Layout) : Prop where
  skipped : ∀ element ∈ layout.skipped, element.name = "types" ∧ element.ending = .selfClosed
  listing : ∀ element ∈ layout.listing, element.name = "types" ∧
    (element.ending = .closed ∨ element.ending = .cut none)
  declared : ∀ element ∈ layout.declared, isTypeElement element = true
  /-- Without a list there is one type. -/
  lone : layout.listing = none → ∃ element, layout.beside = [element]

theorem Lawful.read {layout : Layout} (lawful : layout.Lawful) {all : List Descriptor}
    (read : layout.declared.mapM ofElement = .ok all) :
    layout.elements.foldlM readTopLevel {} = .ok ⟨layout.listing.isSome, all⟩ := by
  obtain ⟨skipped, listing, beside⟩ := layout
  have skip : skipped.foldlM readTopLevel {} = .ok {} := by
    have each := lawful.skipped
    clear lawful read
    induction skipped with
    | nil => rfl
    | cons element rest ih =>
      obtain ⟨own, others⟩ := List.forall_mem_cons.mp each
      have first : readTopLevel {} element = .ok {} :=
        readTopLevel_first.mpr (.inl ⟨own.1, own.2, rfl⟩)
      rw [List.foldlM_cons, first, ok_bind]
      exact ih others
  simp only [elements, List.foldlM_append, skip, ok_bind]
  cases listing with
  | none =>
    obtain ⟨element, lone⟩ := lawful.lone rfl
    cases lone
    have declares := lawful.declared element (by simp [Layout.declared])
    rw [show Layout.declared ⟨skipped, none, [element]⟩ = [element] from rfl, List.mapM_cons] at read
    obtain ⟨descriptor, own, read⟩ := bind_eq_ok read
    cases read
    simp only [Option.toList_none, List.foldlM_nil, List.foldlM_cons, pure_bind, bind_pure]
    exact readTopLevel_first.mpr (.inr (.inr ⟨declares, descriptor, own, rfl⟩))
  | some list =>
    obtain ⟨name, ending⟩ := lawful.listing list rfl
    have declares := lawful.declared
    simp only [Layout.declared, Option.toList_some, List.flatMap_cons, List.flatMap_nil, List.append_nil,
      List.mapM_append, List.forall_mem_append] at read declares
    obtain ⟨inside, children, read⟩ := bind_eq_ok read
    obtain ⟨after, others, read⟩ := bind_eq_ok read
    cases read
    have first : readTopLevel {} list = .ok ⟨true, inside⟩ :=
      readTopLevel_first.mpr (.inr (.inl ⟨name, ending,
        (readAll_inTypes fun _ => rfl).mpr ⟨declares.1, inside, children, rfl⟩⟩))
    have rest : beside.foldlM readTopLevel ⟨true, inside⟩ = .ok ⟨true, inside ++ after⟩ :=
      (readAll_inTypes readTopLevel_inTypes).mpr ⟨declares.2, after, others, rfl⟩
    simp only [Option.toList_some, List.foldlM_cons, List.foldlM_nil, first, ok_bind, bind_pure]
    exact rest

theorem exists_lawful {elements : List Element} {final : Progress}
    (read : elements.foldlM readTopLevel {} = .ok final) (some : final.found ≠ []) :
    ∃ layout : Layout, layout.Lawful ∧ layout.elements = elements ∧
      layout.declared.mapM ofElement = .ok final.found := by
  induction elements with
  | nil =>
    cases read
    exact absurd rfl some
  | cons element rest ih =>
    rw [List.foldlM_cons] at read
    obtain ⟨next, first, later⟩ := bind_eq_ok read
    rcases readTopLevel_first.mp first with
      ⟨types, empty, rfl⟩ | ⟨types, ending, children⟩ | ⟨declares, descriptor, own, rfl⟩
    · obtain ⟨layout, lawful, same, read⟩ := ih later
      refine ⟨{ layout with skipped := element :: layout.skipped }, ?_, ?_, read⟩
      · exact ⟨List.forall_mem_cons.mpr ⟨⟨types, empty⟩, lawful.skipped⟩, lawful.listing,
          lawful.declared, lawful.lone⟩
      · rw [← same]
        rfl
    · obtain ⟨declare, inside, own, rfl⟩ := (readAll_inTypes fun _ => rfl).mp children
      obtain ⟨others, after, beside, rfl⟩ := (readAll_inTypes readTopLevel_inTypes).mp later
      refine ⟨⟨[], element, rest⟩, ⟨by simp, ?_, ?_, by simp⟩, rfl, ?_⟩
      · intro other same
        cases same
        exact ⟨types, ending⟩
      · simp only [declared, Option.toList_some, List.flatMap_cons, List.flatMap_nil, List.append_nil]
        exact List.forall_mem_append.mpr ⟨declare, others⟩
      · simp [declared, own, beside, ok_bind]
    · cases rest with
      | nil =>
        cases later
        refine ⟨⟨[], none, [element]⟩, ⟨by simp, by simp, ?_, fun _ => ⟨element, rfl⟩⟩, rfl, ?_⟩
        · simpa [declared] using declares
        · simp [declared, own]
      | cons second rest =>
        rw [List.foldlM_cons] at later
        obtain ⟨_, again, _⟩ := bind_eq_ok later
        exact absurd again (readTopLevel_again (by simp))

/-- Nothing comes after a list that the input ends in. -/
theorem Lawful.last {layout : Layout} (lawful : layout.Lawful) {text : String}
    (elements : (Document.parse text).elements = layout.elements) :
    ∀ list ∈ layout.listing, list.ending ≠ .closed → layout.beside = [] := by
  intro list listed unclosed
  by_contra followed
  have cut := (lawful.listing list listed).2.resolve_left unclosed
  have early : list ∈ (Document.parse text).elements.dropLast := by
    rw [elements, Layout.elements, ← List.append_assoc, List.dropLast_append_of_ne_nil followed]
    simp [Option.mem_def.mp listed]
  exact Document.build_dropLast (by simp) (by simp) list early none cut

/-- The document has this layout, with every type closed and only the list of types, if it is the
last element, open at the end. -/
structure Of (layout : Layout) (document : Document) : Prop extends layout.Lawful where
  whole : document.fault = none
  elements : document.elements = layout.elements
  closed : ∀ element ∈ layout.declared, element.Closed
  last : ∀ element ∈ layout.listing, element.ending ≠ .closed → layout.beside = []
  some : layout.declared ≠ []

end Layout

/-- One top-level element, closed with all that it holds: a type, or the list of all types. -/
structure Markup.Document.Tidy (document : Document) : Prop where
  whole : document.fault = none
  closed : ∀ element ∈ document.elements, element.Closed
  single : ∃ element, document.elements = [element] ∧
    (Descriptor.isTypeElement element = true ∨
      element.name = "types" ∧ ∀ child ∈ element.children, Descriptor.isTypeElement child = true)

namespace Markup.Document.Tidy

variable {document : Document}

theorem length_eq_one (tidy : document.Tidy) : document.elements.length = 1 := by
  obtain ⟨element, single, _⟩ := tidy.single
  rw [single, List.length_singleton]

theorem not_cut (tidy : document.Tidy) (fault : Option Markup.MarkupFault) :
    .cut fault ∉ document.elements.map Element.ending := by
  intro cut
  obtain ⟨element, member, ending⟩ := List.mem_map.mp cut
  exact (Element.closed_iff.mp (tidy.closed element member)).1 fault ending

end Markup.Document.Tidy

namespace Layout

/-- The document is tidy unless empty lists come first, or the list is open or has types beside it. -/
theorem Of.tidy_iff {layout : Layout} {document : Document} (of : layout.Of document) :
    document.Tidy ↔
      layout.skipped = [] ∧ ∀ list ∈ layout.listing, list.ending = .closed ∧ layout.beside = [] := by
  have elements := of.elements
  have declares := of.declared
  have inside := of.closed
  obtain ⟨skipped, listing, beside⟩ := layout
  cases listing with
  | none =>
    obtain ⟨only, lone⟩ := of.lone rfl
    cases lone
    simp only [Layout.declared, Option.toList_none, List.flatMap_nil, List.nil_append,
      List.forall_mem_singleton] at declares inside
    simp only [Layout.elements, Option.toList_none, List.nil_append] at elements
    constructor
    · rintro ⟨_, _, element, single, _⟩
      simp [elements, List.append_eq_singleton_iff] at single
      simp [single]
    · rintro ⟨rfl, _⟩
      exact ⟨of.whole, by simpa [elements] using inside, only, elements, .inl declares⟩
  | some list =>
    simp only [Layout.declared, Option.toList_some, List.flatMap_cons, List.flatMap_nil,
      List.append_nil, List.forall_mem_append] at declares inside
    simp only [Layout.elements, Option.toList_some, List.singleton_append] at elements
    have types := (of.listing list rfl).1
    constructor
    · rintro ⟨_, closed, element, single, _⟩
      simp [elements, List.append_eq_singleton_iff] at single
      obtain ⟨rfl, rfl, rfl⟩ := single
      have ended := (Element.closed_iff.mp (closed list (by simp [elements]))).1
      have ending := (of.listing list rfl).2.resolve_right (ended none)
      simpa using ending
    · rintro ⟨rfl, only⟩
      obtain ⟨ending, rfl⟩ := only list rfl
      have ended : list.Closed := Element.closed_iff.mpr ⟨by simp [ending], inside.1⟩
      exact ⟨of.whole, by simpa [elements] using ended, list, elements, .inr ⟨types, declares.1⟩⟩

end Layout

namespace Descriptor

theorem ofDocument_eq_ok {document : Document} {all : List Descriptor} :
    ofDocument document = .ok all ↔
      document.fault = none ∧ all ≠ [] ∧
      ∃ progress, document.elements.foldlM readTopLevel {} = .ok progress ∧ progress.found = all := by
  unfold ofDocument
  constructor
  · intro read
    obtain ⟨progress, done, read⟩ := bind_eq_ok read
    cases whole : document.fault with
    | some fault =>
      rw [whole] at read
      cases read
    | none =>
      simp only [whole] at read
      split at read
      · cases read
      · rename_i some
        cases read
        exact ⟨rfl, by simpa using some, progress, done, rfl⟩
  · rintro ⟨whole, some, progress, done, rfl⟩
    rw [done, ok_bind, whole]
    simp only [List.isEmpty_iff, some, if_false]
    rfl

/-- A document can be read exactly if its elements have a layout whose types can be read, and it is
tidy exactly if in that layout no empty list comes first and the list, if there is one, is closed
and has no type beside it. -/
theorem parseAll_ok_iff_layout {text : String} {all : List Descriptor} :
    parseAll text = .ok all ↔
      ∃ layout : Layout, layout.Of (Document.parse text) ∧ layout.declared.mapM ofElement = .ok all ∧
        ((Document.parse text).Tidy ↔
          layout.skipped = [] ∧ ∀ list ∈ layout.listing, list.ending = .closed ∧ layout.beside = []) := by
  unfold parseAll
  rw [ofDocument_eq_ok]
  constructor
  · rintro ⟨whole, some, progress, done, rfl⟩
    obtain ⟨layout, lawful, elements, read⟩ := Layout.exists_lawful done some
    have of : layout.Of (Document.parse text) := {
      lawful with
      whole, elements := elements.symm
      closed := declared_closed read
      last := lawful.last elements.symm
      some := (declared_eq_nil_iff read).not.mpr some }
    exact ⟨layout, of, read, of.tidy_iff⟩
  · rintro ⟨layout, of, read, _⟩
    exact ⟨of.whole, (declared_eq_nil_iff read).not.mp of.some, _, of.elements ▸ of.toLawful.read read, rfl⟩

/-- Types after the list, a list that never ends and an empty list ahead of a type are read alike,
though none of these documents is tidy. -/
theorem untidy_documents_read :
    (parseAll "<types><interface name=\"p.A\"/></types><interface name=\"p.B\"/>" =
        .ok [{ name := ⟨"p.A"⟩, kind := .interface }, { name := ⟨"p.B"⟩, kind := .interface }] ∧
      ¬(Document.parse "<types><interface name=\"p.A\"/></types><interface name=\"p.B\"/>").Tidy) ∧
    (parseAll "<types><interface name=\"p.A\"/>" = .ok [{ name := ⟨"p.A"⟩, kind := .interface }] ∧
      ¬(Document.parse "<types><interface name=\"p.A\"/>").Tidy) ∧
    (parseAll "<types/><interface name=\"p.A\"/>" = .ok [{ name := ⟨"p.A"⟩, kind := .interface }] ∧
      ¬(Document.parse "<types/><interface name=\"p.A\"/>").Tidy) := by
  refine ⟨⟨by decide +kernel, fun tidy => ?_⟩, ⟨by decide +kernel, fun tidy => ?_⟩,
    ⟨by decide +kernel, fun tidy => ?_⟩⟩
  · exact absurd tidy.length_eq_one (by decide +kernel)
  · exact absurd (tidy.not_cut none) (by decide +kernel)
  · exact absurd tidy.length_eq_one (by decide +kernel)

end Descriptor

end JavaStubs
