import JavaStubs.Proofs.Files.Components
import JavaStubs.Proofs.Obligation.Variables
import JavaStubs.Proofs.Stub.Heads
import JavaStubs.Proofs.Stub.Naming

namespace JavaStubs

namespace Text

theorem afterLead?_eq_some {lead text rest : String} (found : afterLead? lead text = some rest) :
    text.toList = lead.toList ++ rest.toList := by
  obtain ⟨behind, split, rfl⟩ := Option.map_eq_some_iff.mp found
  rw [String.toList_ofList, List.isPrefixOf?_eq_some_iff_append_eq.mp split]

theorem beforeTail?_eq_some {tail text front : String} (found : beforeTail? tail text = some front) :
    text.toList = front.toList ++ tail.toList := by
  obtain ⟨before, split, rfl⟩ := Option.map_eq_some_iff.mp found
  rw [String.toList_ofList, List.isSuffixOf?_eq_some_iff_append_eq.mp split]

/-- A text ends as its last part does. -/
theorem getLast?_ending {ending : String} {c : Char} (ends : ending.toList.getLast? = some c)
    (front : String) : (front ++ ending).toList.getLast? = some c := by
  rw [String.toList_append, List.getLast?_append, ends, Option.some_or]

/-- Trimming leaves a character at the end that is no blank. -/
theorem getLast?_trimChars {text : List Char} {c : Char} (last : text.getLast? = some c)
    (filled : isBlank c = false) : (trimChars text).getLast? = some c := by
  obtain ⟨before, after, blankBefore, blankAfter, same⟩ := exists_trimChars text
  have outside : ∀ blanks : List Char, (∀ c ∈ blanks, isBlank c = true) → blanks.getLast? ≠ some c := by
    intro blanks blank ends
    rw [blank c (List.mem_of_getLast? ends)] at filled
    cases filled
  generalize trimChars text = inner at same ⊢
  subst same
  by_cases behind : after = []
  · subst behind
    rw [List.append_nil] at last
    by_cases nothing : inner = []
    · subst nothing
      rw [List.append_nil] at last
      exact absurd last (outside before blankBefore)
    · rwa [List.getLast?_append_of_ne_nil _ nothing] at last
  · rw [List.getLast?_append_of_ne_nil _ behind] at last
    exact absurd last (outside after blankAfter)

end Text

namespace Compiler

/-- The package that a line declares. -/
def declaredPackage? (line : String) : Option String := do
  let rest ← Text.afterLead? "package " (Text.trim line)
  let name ← Text.beforeTail? ";" (Text.trim rest)
  return Text.trim name

theorem packageOf?_eq (source : String) :
    packageOf? source = (Text.lines source).findSome? declaredPackage? := rfl

variable {line lead text : String} {c : Char}

/-- A declaration ends in a semicolon. -/
theorem declaredPackage?_of_last (last : line.toList.getLast? = some c) (filled : Text.isBlank c = false)
    (unclosed : c ≠ ';') : declaredPackage? line = none := by
  by_contra declared
  obtain ⟨package, found⟩ := Option.ne_none_iff_exists'.mp declared
  simp only [declaredPackage?, Option.bind_eq_bind, Option.bind_eq_some_iff] at found
  obtain ⟨rest, front, name, behind, _⟩ := found
  have front := Text.afterLead?_eq_some front
  have behind := Text.beforeTail?_eq_some behind
  rw [Text.trim, String.toList_ofList] at front behind
  have nonempty : rest.toList ≠ [] := by
    intro empty
    rw [empty] at behind
    exact absurd behind (by simp [Text.trimChars, Text.dropBlanks])
  have ends := Text.getLast?_trimChars last filled
  rw [front, List.getLast?_append_of_ne_nil _ nonempty] at ends
  have closes := Text.getLast?_trimChars ends filled
  rw [behind] at closes
  exact unclosed (by simpa using closes.symm)

/-- A declaration starts with its keyword. -/
theorem declaredPackage?_of_first (blank : ∀ c ∈ lead.toList, Text.isBlank c = true)
    (tight : Text.Tight text.toList) (other : text.toList.head? ≠ some 'p') :
    declaredPackage? (lead ++ text) = none := by
  have starts : Text.afterLead? "package " text = none := by
    by_contra found
    obtain ⟨rest, found⟩ := Option.ne_none_iff_exists'.mp found
    rw [Text.afterLead?_eq_some found] at other
    exact other (by simp)
  rw [declaredPackage?, Text.trim_append blank tight, starts]
  rfl

theorem declaredPackage?_package {package : String} (valid : (⟨package⟩ : QualName).valid = true) :
    declaredPackage? ("package " ++ package ++ ";") = some package := by
  have name := (QualName.firm_text valid).toTight
  have keyword : Text.Tight "package".toList := .of_all (by decide) (by decide)
  have mark : Text.Tight ";".toList := .of_all (by decide) (by decide)
  have whole : Text.Tight ("package " ++ package ++ ";").toList := by
    have joined := keyword.append (" " ++ package).toList mark
    simpa [String.toList_append] using joined
  have rest : Text.Tight (package ++ ";").toList := by simpa [String.toList_append] using name.append [] mark
  rw [declaredPackage?, whole.trim_eq, String.append_assoc, Text.afterLead?_append]
  simp only [Option.bind_eq_bind, Option.bind_some, rest.trim_eq, Text.beforeTail?_append, name.trim_eq]
  rfl

theorem packageOf?_line (plain : '\n' ∉ line.toList) (closed : line.toList.getLast? ≠ some '\r')
    (rest : String) :
    packageOf? (line ++ "\n" ++ rest) = (declaredPackage? line).or (packageOf? rest) := by
  rw [packageOf?_eq, Text.lines_cons plain closed, List.findSome?_cons, ← packageOf?_eq]
  cases declaredPackage? line <;> rfl

/-- A text of whole lines without a declaration: what comes behind is read as if it stood alone. -/
def Silent (text : String) : Prop := ∀ rest, packageOf? (text ++ rest) = packageOf? rest

namespace Silent

theorem empty : Silent "" := fun rest => by rw [String.empty_append]

theorem append (first : Silent lead) (second : Silent text) : Silent (lead ++ text) := fun rest => by
  rw [String.append_assoc, first, second]

theorem intercalate {texts : List String} (joint : Silent lead) (each : ∀ text ∈ texts, Silent text) :
    Silent (lead.intercalate texts) := by
  induction texts with
  | nil => exact empty
  | cons text texts ih =>
    obtain ⟨own, others⟩ := List.forall_mem_cons.mp each
    cases texts with
    | nil => simpa using own
    | cons next texts =>
      rw [String.intercalate_cons_of_ne_nil (by simp)]
      exact (own.append joint).append (ih others)

/-- A line that ends in neither a blank nor a semicolon. -/
theorem of_line (plain : '\n' ∉ line.toList) (last : line.toList.getLast? = some c)
    (filled : Text.isBlank c = false) (unclosed : c ≠ ';') : Silent (line ++ "\n") := by
  have closed : line.toList.getLast? ≠ some '\r' := by
    rw [last]
    rintro same
    cases same
    exact absurd filled (by decide)
  intro rest
  rw [packageOf?_line plain closed, declaredPackage?_of_last last filled unclosed, Option.none_or]

/-- An indented line that does not start like a declaration. -/
theorem of_statement (blank : ∀ c ∈ lead.toList, Text.isBlank c = true) (tight : Text.Tight text.toList)
    (other : text.toList.head? ≠ some 'p') (plain : '\n' ∉ (lead ++ text).toList) :
    Silent (lead ++ text ++ "\n") := by
  have closed : (lead ++ text).toList.getLast? ≠ some '\r' := by
    rw [String.toList_append, List.getLast?_append_of_ne_nil _ tight.nonempty]
    intro ends
    exact absurd (tight.last _ ends) (by decide)
  intro rest
  rw [packageOf?_line plain closed, declaredPackage?_of_first blank tight other, Option.none_or]

theorem newline : Silent "\n" := by
  intro rest
  have line := @packageOf?_line "" (by decide) (by decide) rest
  rwa [String.empty_append, show declaredPackage? "" = none by decide, Option.none_or] at line

end Silent

end Compiler

theorem isIdentifier_no_newline {word : String} (identifier : isIdentifier word = true) :
    '\n' ∉ word.toList := fun member =>
  absurd (isIdentifier_chars identifier '\n' member) (by decide)

theorem QualName.not_mem_newline {name : QualName} (valid : name.valid = true) :
    '\n' ∉ name.text.toList := by
  intro member
  rcases valid_chars valid '\n' member with dot | word
  · exact absurd dot (by decide)
  · exact absurd word (by decide)

theorem TypeModel.selfReference_proper (root : TypeModel) (valid : root.name.valid = true) :
    root.selfReference.ty.Proper root.parameterNames := by
  refine Ty.proper_cls.mpr ⟨valid, fun arg member => ?_⟩
  obtain ⟨p, listed, rfl⟩ := List.mem_map.mp member
  exact Ty.proper_var (List.mem_map_of_mem listed)

/-- An obligation whose types and names are made of words. -/
def Obligation.Worded : Obligation → Prop
  | .constructor c => ∀ ty ∈ c.parameters ++ c.throwing, ty.Worded
  | .method o => Stub.Checked o.method ∧ Stub.Worded o

namespace Stub

open Compiler (Silent)

/-- A statement in a body, from its keyword to its semicolon. -/
theorem silent_statement {keyword rest : String} (tight : Text.Tight keyword.toList)
    (other : keyword.toList.head? ≠ some 'p') (plain : '\n' ∉ (keyword ++ rest).toList) :
    Silent (indent ++ indent ++ (keyword ++ rest ++ ";") ++ "\n") := by
  have closing : Text.Tight ";".toList := .of_all (by decide) (by decide)
  have whole := tight.append rest.toList closing
  rw [← String.toList_append, ← String.toList_append] at whole
  refine .of_statement (List.all_eq_true.mp (by decide)) whole ?_ ?_
  · rwa [String.append_assoc, String.toList_append, List.head?_append_of_ne_nil _ tight.nonempty]
  · rw [String.toList_append, List.mem_append, not_or]
    refine ⟨by decide, ?_⟩
    rw [String.toList_append, List.mem_append, not_or]
    exact ⟨plain, by decide⟩

theorem silent_bodyText (body : Body) : Silent (bodyText body) := by
  cases body with
  | empty => exact .empty
  | result value =>
    have text : bodyText (.result value) =
        indent ++ indent ++ ("return" ++ (" " ++ value.literal) ++ ";") ++ "\n" := by
      simp only [bodyText, String.append_assoc]
      rfl
    have literal : '\n' ∉ value.literal.toList := by
      cases value with
      | zero p => cases p <;> decide
      | _ => decide
    rw [text]
    refine silent_statement (.of_all (by decide) (by decide)) (by decide) ?_
    simp only [String.toList_append, List.mem_append, not_or]
    exact ⟨by decide, by decide, literal⟩
  | forward arity =>
    let names := ", ".intercalate (argumentNames arity)
    have text : bodyText (.forward arity) =
        indent ++ indent ++ ("super" ++ ("(" ++ names ++ ")") ++ ";") ++ "\n" := by
      simp only [bodyText, String.append_assoc]
      rfl
    have inside : '\n' ∉ names.toList := by
      refine not_mem_of_isLineChar (by decide)
        (Text.isLineChar_of_mem_intercalate (List.all_eq_true.mp (by decide)) fun text member => ?_)
      obtain ⟨i, _, rfl⟩ := List.mem_map.mp member
      exact fun c inside => Text.isLineChar_of_isWordChar (isWordChar_of_mem_argumentName i c inside)
    rw [text]
    refine silent_statement (.of_all (by decide) (by decide)) (by decide) ?_
    simp only [String.toList_append, List.mem_append, not_or]
    exact ⟨by decide, ⟨by decide, inside⟩, by decide⟩

theorem silent_block {head : String} (plain : '\n' ∉ (indent ++ head ++ " \x7b").toList) (body : Body) :
    Silent (block head body) := by
  have text : block head body =
      indent ++ head ++ " \x7b" ++ "\n" ++ bodyText body ++ (indent ++ "\x7d" ++ "\n") := by
    simp only [block, String.append_assoc]
    rfl
  have opening : Silent (indent ++ head ++ " \x7b" ++ "\n") :=
    .of_line (c := '\x7b') plain (Text.getLast?_ending (by decide) _) (by decide) (by decide)
  have closing : Silent (indent ++ "\x7d" ++ "\n") :=
    .of_line (c := '\x7d') (by decide) (by decide) (by decide) (by decide)
  rw [text]
  exact (opening.append (silent_bodyText body)).append closing

theorem silent_memberText {simple : String} (identifier : isIdentifier simple = true)
    {member : Obligation × Body} (worded : member.1.Worded) : Silent (memberText simple member) := by
  have foreign : Text.isLineChar '\n' = false := by decide
  obtain ⟨obligation, body⟩ := member
  cases obligation with
  | constructor c =>
    have inside := not_mem_of_isLineChar foreign (isLineChar_parametersText
      (fun ty listed => worded ty (List.mem_append_left _ listed)) c.varargs)
    have throws := not_mem_of_isLineChar foreign (isLineChar_throwsText
      fun ty listed => worded ty (List.mem_append_right _ listed))
    refine silent_block ?_ body
    simp only [constructorHead, String.toList_append, List.mem_append, not_or]
    refine ⟨⟨?_, ⟨⟨⟨⟨?_, isIdentifier_no_newline identifier⟩, ?_⟩, inside⟩, ?_⟩, throws⟩, ?_⟩ <;> decide
  | method o =>
    have annotation : Silent (indent ++ "@Override" ++ "\n") :=
      .of_line (c := 'e') (by decide) (by decide) (by decide) (by decide)
    have text : memberText simple (.method o, body) =
        indent ++ "@Override" ++ "\n" ++ block (methodHead o) body := by
      simp only [memberText, String.append_assoc]
      rfl
    rw [text]
    exact annotation.append (silent_block (plain_headLine worded.1 worded.2) body)

theorem silent_classHead {simple : String} (identifier : isIdentifier simple = true) {root : TypeModel}
    (valid : root.name.valid = true) (identifiers : ∀ p ∈ root.typeParameters, isIdentifier p.name = true)
    (worded : ∀ p ∈ root.typeParameters, ∀ bound ∈ p.bounds, bound.Worded) :
    Silent (classHead simple root) := by
  have foreign : Text.isLineChar '\n' = false := by decide
  have name := isIdentifier_no_newline identifier
  have parameters := not_mem_of_isLineChar foreign (isLineChar_typeParametersText identifiers worded)
  have reference := not_mem_of_isLineChar foreign
    ((root.selfReference_proper valid).worded (List.forall_mem_map.mpr identifiers)).render_chars
  have relation : '\n' ∉ (if root.isInterface then " implements " else " extends ").toList := by
    split <;> decide
  have lineEnd : " \x7b\n" = " \x7b" ++ "\n" := rfl
  delta classHead
  rw [lineEnd, ← String.append_assoc]
  refine .of_line (c := '\x7b') ?_ (Text.getLast?_ending (by decide) _) (by decide) (by decide)
  simp only [String.toList_append, List.mem_append, not_or]
  refine ⟨⟨⟨⟨⟨?_, name⟩, parameters⟩, relation⟩, reference⟩, ?_⟩ <;> decide

/-- A class without package has no line that declares one. -/
theorem silent_unpackaged {generated : QualName} (unpackaged : generated.package = "")
    (identifier : isIdentifier generated.simple = true) {root : TypeModel}
    (valid : root.name.valid = true) (identifiers : ∀ p ∈ root.typeParameters, isIdentifier p.name = true)
    (worded : ∀ p ∈ root.typeParameters, ∀ bound ∈ p.bounds, bound.Worded)
    {members : List (Obligation × Body)} (each : ∀ member ∈ members, member.1.Worded) :
    Silent (sourceText generated root members) := by
  have comment : Silent ("// Generated by implgen from " ++ root.name.text ++ "." ++ "\n") := by
    refine .of_line (c := '.') ?_ (Text.getLast?_ending (by decide) _) (by decide) (by decide)
    simp only [String.toList_append, List.mem_append, not_or]
    exact ⟨⟨by decide, QualName.not_mem_newline valid⟩, by decide⟩
  have head := silent_classHead identifier valid identifiers worded
  have body : Silent ("\n".intercalate (members.map (memberText generated.simple))) :=
    .intercalate .newline (List.forall_mem_map.mpr fun member listed =>
      silent_memberText identifier (each member listed))
  have closing : Silent ("\x7d" ++ "\n") :=
    .of_line (c := '\x7d') (by decide) (by decide) (by decide) (by decide)
  have source : sourceText generated root members =
      "// Generated by implgen from " ++ root.name.text ++ "." ++ "\n" ++ classHead generated.simple root ++
        "\n".intercalate (members.map (memberText generated.simple)) ++ ("\x7d" ++ "\n") := by
    have lineEnd : ".\n" = "." ++ "\n" := rfl
    delta sourceText packageText
    rw [if_pos unpackaged, String.empty_append, lineEnd, ← String.append_assoc]
    rfl
  rw [source]
  exact ((comment.append head).append body).append closing

end Stub

theorem Method.Emittable.checked {m : Method} (emittable : m.Emittable) : Stub.Checked m where
  named := emittable.identifier
  declared p listed := emittable.typeParameters p.name (List.mem_map_of_mem listed)
  arity varargs last ends := by
    obtain ⟨other, ends', array⟩ := emittable.arity varargs
    cases ends.symm.trans ends'
    exact array

/-- Contracts of candidates stay made of words in the terms of the first one. -/
theorem Collect.align_worded {names : List String} {base other : Method} (proper : other.Proper names)
    (outer : ∀ name ∈ names, isIdentifier name = true)
    (own : ∀ name ∈ base.declaredNames, isIdentifier name = true)
    (theirs : ∀ name ∈ other.declaredNames, isIdentifier name = true) :
    ∀ ty ∈ (align base other).types, ty.Worded := by
  intro ty member
  by_cases counts : base.typeParameters.length = other.typeParameters.length
  · exact (align_proper counts proper ty member).worded (List.forall_mem_append.mpr ⟨outer, own⟩)
  · rw [align_of_ne counts] at member
    exact (proper.types ty (mem_types_of_contract member)).worded
      (List.forall_mem_append.mpr ⟨outer, theirs⟩)

/-- What is collected in a well-formed hierarchy is made of words. -/
theorem obligations_worded {lookup : QualName → Option TypeModel} {root : TypeModel}
    {owed : List Obligation} (linked : root.Linked)
    (wellFormed : ∀ model, root.Reaches model → model.WellFormed)
    (collected : (obligations lookup root).value = .ok owed) : ∀ o ∈ owed, o.Worded := by
  have outer := TypeModel.isIdentifier_parameterNames (wellFormed root .refl)
  obtain ⟨_, constructors, entries, forwarded, resolved, rfl⟩ := obligations_value.mp collected
  obtain ⟨_, rfl⟩ := Collect.resolveAll_value.mp resolved
  intro o member
  rcases List.mem_append.mp member with inFront | behind
  · obtain ⟨c, listed, rfl⟩ := List.mem_map.mp inFront
    have declared := (wellFormed root .refl).declared.written
    have written := declared.constructors c (mem_constructorObligations forwarded c listed)
    exact fun ty inside => (written.proper ty inside).worded outer
  · obtain ⟨entry, sorted, rfl⟩ := List.mem_map.mp behind
    obtain ⟨base, others, contract, value, agreed, inherited⟩ :=
      Collect.entry_candidates (List.mem_mergeSort.mp sorted)
    have proper : ∀ d ∈ base :: others, d.method.Proper root.parameterNames := fun d candidate =>
      Inherited.method_proper linked (inherited d candidate).1
    have emittable : ∀ d ∈ base :: others, d.method.Emittable := fun d candidate =>
      Inherited.emittable wellFormed (inherited d candidate).1
    have first : base ∈ base :: others := List.mem_cons_self ..
    have own := (emittable base first).typeParameters
    have aligned : ∀ d ∈ base :: others, ∀ ty ∈ (Collect.align base.method d.method).types, ty.Worded :=
      fun d candidate => Collect.align_worded (proper d candidate) outer own
        (emittable d candidate).typeParameters
    have signature : ∀ ty ∈ base.method.types, ty.Worded := fun ty listed =>
      ((proper base first).types ty listed).worded (List.forall_mem_append.mpr ⟨outer, own⟩)
    obtain ⟨⟨a, inA, result⟩, b, inB, throwing⟩ := Collect.agreement_origin agreed
    rw [value]
    refine ⟨(emittable base first).checked, ?_, ?_, ?_, ?_⟩
    · change contract.result.Worded
      rw [result]
      exact aligned a inA _ (List.mem_cons_self ..)
    · intro p listed bound among
      refine signature bound ?_
      simp only [Method.types, List.mem_append, List.mem_flatMap]
      exact .inl (.inl (.inl ⟨p, listed, among⟩))
    · intro ty listed
      refine signature ty ?_
      simp only [Method.types, List.mem_append]
      exact .inl (.inl (.inr listed))
    · intro e thrown
      exact aligned b inB e (List.mem_cons_of_mem _ (throwing e thrown))

namespace QualName

/-- The segments of a package are read off its name. -/
theorem packageSegments_eq (name : QualName) :
    (Text.pieces '.' name.package).filter (· != "") = name.packageSegments := by
  unfold package packageSegments
  by_cases outer : name.segments.dropLast = []
  · rw [outer]
    decide
  · rw [Text.pieces_intercalate rfl outer fun segment member =>
      not_mem_segment (List.dropLast_subset _ member)]

theorem valid_package {name : QualName} (valid : name.valid = true) (packaged : name.package ≠ "") :
    (⟨name.package⟩ : QualName).valid = true :=
  valid_intercalate (mt (package_eq_empty_iff valid).mpr packaged) fun _ member =>
    isIdentifier_of_mem_segments valid (List.dropLast_subset _ member)

end QualName

namespace Stub

/-- The first line declares the package, if there is one to declare. -/
theorem packageOf?_sourceText {generated : QualName} (valid : generated.valid = true) {root : TypeModel}
    (validRoot : root.name.valid = true)
    (identifiers : ∀ p ∈ root.typeParameters, isIdentifier p.name = true)
    (worded : ∀ p ∈ root.typeParameters, ∀ bound ∈ p.bounds, bound.Worded)
    {members : List (Obligation × Body)} (each : ∀ member ∈ members, member.1.Worded) :
    Compiler.packageOf? (sourceText generated root members) =
      if generated.package = "" then none else some generated.package := by
  by_cases unpackaged : generated.package = ""
  · have silent := silent_unpackaged unpackaged (QualName.isIdentifier_simple valid) validRoot identifiers
      worded each ""
    rw [String.append_empty] at silent
    rw [if_pos unpackaged, silent]
    decide
  · have validPackage := QualName.valid_package valid unpackaged
    have plain : '\n' ∉ ("package " ++ generated.package ++ ";").toList := by
      have name := QualName.not_mem_newline validPackage
      simp only [String.toList_append, List.mem_append, not_or]
      exact ⟨⟨by decide, name⟩, by decide⟩
    obtain ⟨rest, source⟩ : ∃ rest, sourceText generated root members =
        "package " ++ generated.package ++ ";" ++ "\n" ++ rest := by
      have lineEnd : ";\n\n" = ";" ++ "\n" ++ "\n" := rfl
      delta sourceText packageText
      rw [if_neg unpackaged, lineEnd]
      simp only [String.append_assoc]
      exact ⟨_, rfl⟩
    have closed : ("package " ++ generated.package ++ ";").toList.getLast? ≠ some '\r' := by
      rw [@Text.getLast?_ending ";" ';' (by decide)]
      decide
    rw [if_neg unpackaged, source, Compiler.packageOf?_line plain closed,
      Compiler.declaredPackage?_package validPackage, Option.some_or]

end Stub

namespace Naming

/-- Above the file of a generated class stands the output directory, as far up as its package says. -/
theorem sourceRoot_targetPath {naming : Naming} (plain : '/' ∉ naming.extension.toList)
    {generated : QualName} (valid : generated.valid = true) (output : Path) :
    (Compiler.sourceRoot (naming.targetPath output generated) generated.package).Same output := by
  have identifier := QualName.isIdentifier_simple valid
  refine Compiler.sourceRoot_inPackage generated.packageSegments_eq ?_ ?_ output
  · have file : '/' ∉ (generated.simple ++ "." ++ naming.extension).toList := by
      simp only [String.toList_append, List.mem_append, not_or]
      exact ⟨⟨isIdentifier_no_slash identifier, by decide⟩, plain⟩
    rw [List.forall_mem_append]
    exact ⟨fun segment member => isIdentifier_no_slash (QualName.isIdentifier_of_mem_segments valid
      (QualName.packageSegments_subset member)), by simpa using file⟩
  · rw [List.forall_mem_append, String.append_assoc]
    exact ⟨fun segment member => isIdentifier_busy (QualName.isIdentifier_of_mem_segments valid
      (QualName.packageSegments_subset member)),
      by simpa using Path.isIdle_append (isIdentifier_busy identifier) _⟩

end Naming

/-- What the compiler reads back from a class that was generated for a resolved type: the class's
package from the source, none if it has none, and with it the output directory from the path. -/
theorem generated_read_back {g : Generator} {fs : FileSystem} {resolver : Resolver} {name : QualName}
    {root : TypeModel} {lookup : QualName → Option TypeModel} {stub : Stub} (opened : resolver.Opened)
    (resolved : (resolver.resolve fs name).1 = .ok root)
    (suffix : ∀ c ∈ g.naming.suffix.toList, Text.isWordChar c = true)
    (extension : '/' ∉ g.naming.extension.toList)
    (rendered : (g.renderModel lookup root).value = .ok stub) :
    Compiler.packageOf? stub.source =
      (if stub.name.package = "" then none else some stub.name.package) ∧
    (Compiler.sourceRoot stub.path ((Compiler.packageOf? stub.source).getD "")).Same g.output := by
  obtain ⟨_, assembled⟩ := opened.assembled resolved
  have wellFormed : ∀ model, root.Reaches model → model.WellFormed := fun model reached =>
    (assembled.of_reaches reached).wellFormed
  have linked := opened.used.linked resolved
  have declared := (wellFormed root .refl).declared.written
  have validRoot : root.name.valid = true := declared.named
  have outer := TypeModel.isIdentifier_parameterNames (wellFormed root .refl)
  obtain ⟨owed, collected, emitted⟩ := Generator.emitted_of_renderModel rendered
  obtain ⟨identifier, written⟩ := Stub.emit_eq_ok emitted
  have named : stub.name = g.naming.generatedName root.name := by rw [written]
  have valid : stub.name.valid = true := by
    have undotted : '.' ∉ (root.name.simple ++ g.naming.suffix).toList := by
      rw [String.toList_append, List.mem_append, not_or]
      exact ⟨root.name.not_mem_simple, fun dot => absurd (suffix '.' dot) (by decide)⟩
    rw [Naming.generatedName, QualName.simple_sibling validRoot undotted] at identifier
    rw [named]
    exact QualName.valid_sibling validRoot identifier
  have source : stub.source = Stub.sourceText stub.name root (owed.zip (owed.map Obligation.body)) := by
    rw [named, written]
  have path : stub.path = g.naming.targetPath g.output stub.name := by rw [named, written]
  have package := Stub.packageOf?_sourceText valid validRoot
    (fun p listed => (declared.typeParameters p listed).identifier)
    (fun p listed bound among => (linked.own.bounds p listed bound among).worded outer)
    fun member (paired : member ∈ owed.zip (owed.map Obligation.body)) =>
      obligations_worded linked wellFormed collected member.1 (List.of_mem_zip paired).1
  rw [← source] at package
  have read : (Compiler.packageOf? stub.source).getD "" = stub.name.package := by
    rw [package]
    split
    · rename_i unpackaged
      exact unpackaged.symm
    · rfl
  refine ⟨package, ?_⟩
  rw [read, path]
  exact Naming.sourceRoot_targetPath extension valid g.output

namespace Runner

def generator : Generator := { output := "./out/" }

def root : TypeModel := Linking.modelOf StandardLibrary.runnable none []

theorem resolved : (Resolver.ofStandardLibrary.resolve {} ⟨"java.lang.Runnable"⟩).1 = .ok root := rfl

def stub : Stub where
  name := ⟨"java.lang.RunnableImpl"⟩
  path := "./out/java/lang/RunnableImpl.java"
  source := "package java.lang;\n\n// Generated by implgen from java.lang.Runnable.\n" ++
    "public class RunnableImpl implements java.lang.Runnable \x7b\n" ++
    "    @Override\n    public void run() \x7b\n    \x7d\n\x7d\n"

theorem rendered : (generator.renderModel (fun _ => none) root).value = .ok stub := by decide +kernel

end Runner

theorem runner_read_back : Compiler.packageOf? Runner.stub.source = some "java.lang" ∧
    (Compiler.sourceRoot Runner.stub.path "java.lang").Same Runner.generator.output := by
  have suffix : ∀ c ∈ Runner.generator.naming.suffix.toList, Text.isWordChar c = true :=
    List.all_eq_true.mp (by decide)
  have back := generated_read_back .standardLibrary Runner.resolved suffix (by decide) Runner.rendered
  have package : Runner.stub.name.package = "java.lang" := by decide +kernel
  obtain ⟨source, directory⟩ := back
  rw [package, if_neg (by decide)] at source
  rw [source] at directory
  exact ⟨source, directory⟩

end JavaStubs
