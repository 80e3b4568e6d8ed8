import JavaStubs.Proofs.Resolver.Location
import JavaStubs.Proofs.Stub.Emission

namespace JavaStubs

namespace Path

/-- A directory with the slash that what lies in it comes behind. -/
def lead (directory : Path) : String :=
  if directory = "" ∨ directory.toList.getLast? = some '/' then directory else directory ++ "/"

variable {path next : Path}

theorem join_eq (relative : isAbsolute next = false) (path : Path) : join path next = path.lead ++ next := by
  unfold join lead
  rw [if_neg (by simp [relative])]
  by_cases closed : path = "" ∨ path.toList.getLast? = some '/'
  · rw [if_pos (by simpa using closed), if_pos closed]
  · rw [if_neg (by simpa using closed), if_neg closed]

theorem lead_append {word : String} (nonempty : word ≠ "") (plain : '/' ∉ word.toList) (path : Path) :
    lead (path ++ word) = path ++ word ++ "/" := by
  refine if_neg ?_
  rintro (empty | slash)
  · exact nonempty (String.append_eq_empty_iff.mp empty).2
  · rw [String.toList_append, List.getLast?_append_of_ne_nil _ (by simpa using nonempty)] at slash
    exact plain (List.mem_of_getLast? slash)

theorem isAbsolute_append {word : String} (nonempty : word ≠ "") (plain : '/' ∉ word.toList)
    (tail : String) : isAbsolute (word ++ tail) = false := by
  have chars : word.toList ≠ [] := by simpa using nonempty
  have first : isAbsolute (word ++ tail) = isAbsolute word := by
    simp [isAbsolute, String.toList_append, List.head?_append_of_ne_nil _ chars]
  rw [first, isAbsolute_of_not_mem plain]

/-- The path of a file in a package: the segments of the package and the file, between slashes. -/
theorem inPackage_eq {segments : List String} (named : ∀ segment ∈ segments, segment ≠ "")
    (plain : ∀ segment ∈ segments, '/' ∉ segment.toList) {file : String}
    (relative : isAbsolute file = false) (path : Path) :
    inPackage path segments file = path.lead ++ "/".intercalate (segments ++ [file]) := by
  induction segments generalizing path with
  | nil => simpa [inPackage] using join_eq relative path
  | cons segment segments ih =>
    obtain ⟨nonempty, named⟩ := List.forall_mem_cons.mp named
    obtain ⟨unslashed, plain⟩ := List.forall_mem_cons.mp plain
    have inner := ih named plain (join path segment)
    rw [join_eq (isAbsolute_of_not_mem unslashed), lead_append nonempty unslashed] at inner
    have step : inPackage path (segment :: segments) file =
        inPackage (path.lead ++ segment) segments file := by
      simp only [inPackage, List.foldl_cons, join_eq (isAbsolute_of_not_mem unslashed)]
    rw [step, inner, List.cons_append, String.intercalate_cons_of_ne_nil (by simp)]
    simp only [String.append_assoc]

end Path

namespace QualName

variable {name : QualName} {word : String}

theorem isIdentifier_of_mem_segments (valid : name.valid = true) {segment : String}
    (member : segment ∈ name.segments) : isIdentifier segment = true :=
  valid_iff.mp valid segment member

/-- Only names of one segment have no package. -/
theorem package_eq_empty_iff (valid : name.valid = true) :
    name.package = "" ↔ name.segments.dropLast = [] := by
  unfold package
  cases outer : name.segments.dropLast with
  | nil => simp
  | cons first rest =>
    have listed : first ∈ name.segments := List.dropLast_subset _ (by simp [outer])
    have nonempty := isIdentifier_ne_empty (isIdentifier_of_mem_segments valid listed)
    refine iff_of_false (fun empty => nonempty ?_) (by simp)
    cases rest with
    | nil => simpa using empty
    | cons second rest =>
      rw [String.intercalate_cons_of_ne_nil (by simp), String.append_eq_empty_iff,
        String.append_eq_empty_iff] at empty
      exact empty.1.1

/-- A name beside a valid one is joined to the segments of its package. -/
theorem sibling_eq (valid : name.valid = true) (word : String) :
    name.sibling word = ⟨".".intercalate (name.segments.dropLast ++ [word])⟩ := by
  unfold sibling inPackage
  by_cases unpackaged : name.package = ""
  · rw [if_pos unpackaged, (package_eq_empty_iff valid).mp unpackaged]
    simp
  · have outer := mt (package_eq_empty_iff valid).mpr unpackaged
    rw [if_neg unpackaged, String.intercalate_append_of_ne_nil outer (by simp)]
    simp [package]

theorem segments_eq (name : QualName) : name.segments = name.segments.dropLast ++ [name.simple] := by
  have nonempty : name.segments ≠ [] := Text.pieces_ne_nil '.' name.text
  rw [simple, List.getLast?_eq_some_getLast nonempty, Option.getD_some, List.dropLast_append_getLast]

theorem segments_sibling (valid : name.valid = true) (plain : '.' ∉ word.toList) :
    (name.sibling word).segments = name.segments.dropLast ++ [word] := by
  rw [sibling_eq valid, segments]
  refine Text.pieces_intercalate rfl (by simp) fun segment member => ?_
  rcases List.mem_append.mp member with outer | last
  · exact not_mem_segment (List.dropLast_subset _ outer)
  · exact List.mem_singleton.mp last ▸ plain

theorem package_sibling (valid : name.valid = true) (plain : '.' ∉ word.toList) :
    (name.sibling word).package = name.package := by
  rw [package, segments_sibling valid plain, List.dropLast_concat, package]

/-- What is put behind the simple name goes behind the whole name. -/
theorem sibling_append (valid : name.valid = true) (tail : String) :
    (name.sibling (name.simple ++ tail)).text = name.text ++ tail := by
  have whole := name.intercalate_segments
  rw [segments_eq] at whole
  rw [sibling_eq valid, ← whole]
  by_cases outer : name.segments.dropLast = []
  · simp [outer]
  · rw [String.intercalate_append_of_ne_nil outer (by simp),
      String.intercalate_append_of_ne_nil outer (by simp)]
    simp [String.append_assoc]

/-- Behind the last dot stands the simple name, and in front of it the package. -/
theorem parts_of_text {front : String} (text : name.text = front ++ "." ++ word)
    (plain : '.' ∉ word.toList) : name.package = front ∧ name.simple = word := by
  have cut : name.segments = Text.pieces '.' front ++ [word] := by
    rw [segments, text, Text.pieces_append rfl, Text.pieces_of_not_mem plain]
  constructor
  · rw [package, cut, List.dropLast_concat]
    exact intercalate_segments ⟨front⟩
  · rw [simple, cut]
    simp

/-- The package of a valid name is shorter than the name. -/
theorem package_length_lt (valid : name.valid = true) : name.package.length < name.text.length := by
  have whole := name.intercalate_segments
  have simple : 0 < name.simple.length := by
    have nonempty := isIdentifier_ne_empty (isIdentifier_simple valid)
    rw [← String.length_toList]
    exact List.length_pos_iff.mpr (by simpa using nonempty)
  rw [segments_eq] at whole
  by_cases outer : name.segments.dropLast = []
  · rw [(package_eq_empty_iff valid).mpr outer, ← whole, outer]
    simpa using simple
  · rw [String.intercalate_append_of_ne_nil outer (by simp)] at whole
    rw [← whole, ← package]
    simp only [String.length_append, String.intercalate_singleton]
    omega

end QualName

namespace Stub

/-- The class is the root's with the suffix behind its simple name: in the same package, under an
identifier, and both in its source and in its file's path. -/
structure NamedAfter (root : TypeModel) (naming : Naming) (output : Path) (stub : Stub) : Prop where
  package : stub.name.package = root.name.package
  simple : stub.name.simple = root.name.simple ++ naming.suffix
  identifier : isIdentifier (root.name.simple ++ naming.suffix) = true
  source : ∃ rest, stub.source =
    (if root.name.package = "" then "" else "package " ++ root.name.package ++ ";\n\n") ++
      "// Generated by implgen from " ++ root.name.text ++ ".\n" ++
      "public class " ++ (root.name.simple ++ naming.suffix) ++ rest ∧ Apart rest.toList
  path : stub.path = output.lead ++ "/".intercalate
    (root.name.packageSegments ++ [root.name.simple ++ naming.suffix ++ "." ++ naming.extension])

/-- The source says package and name of the class in front. -/
theorem sourceText_front (generated : QualName) (root : TypeModel) (members : List (Obligation × Body)) :
    ∃ rest, sourceText generated root members =
      packageText generated.package ++ "// Generated by implgen from " ++ root.name.text ++ ".\n" ++
        "public class " ++ generated.simple ++ rest ∧ Apart rest.toList := by
  let relation := if root.isInterface then " implements " else " extends "
  let more := root.selfReference.render ++ " \x7b\n" ++
    "\n".intercalate (members.map (memberText generated.simple)) ++ "\x7d\n"
  refine ⟨typeParametersText root.typeParameters ++ relation ++ more, ?_, ?_⟩
  · -- Proving an equation for `classHead` first would compare its texts at length.
    delta sourceText classHead
    simp only [relation, more, String.append_assoc]
  · -- Either the type parameters come first or the blank before the relation.
    cases parameters : root.typeParameters with
    | nil =>
      have blank : ∃ word, relation.toList = ' ' :: word := by
        cases kind : root.isInterface
        · exact ⟨"extends ".toList, by simp [relation, kind]⟩
        · exact ⟨"implements ".toList, by simp [relation, kind]⟩
      obtain ⟨word, starts⟩ := blank
      simp only [typeParametersText, List.isEmpty_nil, if_true, String.toList_append, starts]
      exact apart_cons (by decide)
    | cons first others =>
      simp only [typeParametersText, List.isEmpty_cons, Bool.false_eq_true, if_false,
        String.toList_append]
      exact apart_cons (by decide)

variable {root : TypeModel} {naming : Naming} {output : Path} {stub : Stub} {owed : List Obligation}
  {bodies : List Body}

/-- A suffix without dots leaves the class beside its root. -/
theorem namedAfter_of_plain (valid : root.name.valid = true) (plain : '.' ∉ naming.suffix.toList)
    (emitted : emit naming output root owed bodies = .ok stub) :
    stub.NamedAfter root naming output := by
  obtain ⟨identifier, rfl⟩ := emit_eq_ok emitted
  have undotted : '.' ∉ (root.name.simple ++ naming.suffix).toList := by
    simpa [String.toList_append] using ⟨root.name.not_mem_simple, plain⟩
  have simple : (naming.generatedName root.name).simple = root.name.simple ++ naming.suffix :=
    QualName.simple_sibling valid undotted
  have package : (naming.generatedName root.name).package = root.name.package :=
    QualName.package_sibling valid undotted
  have segments : (naming.generatedName root.name).packageSegments = root.name.packageSegments := by
    unfold QualName.packageSegments Naming.generatedName
    rw [QualName.segments_sibling valid undotted, List.dropLast_concat]
  rw [simple] at identifier
  refine ⟨package, simple, identifier, ?_, ?_⟩
  · have front := sourceText_front (naming.generatedName root.name) root (owed.zip bodies)
    rw [package, simple] at front
    exact front
  · have identifiers : ∀ segment ∈ root.name.packageSegments, isIdentifier segment = true :=
      fun segment member => QualName.isIdentifier_of_mem_segments valid
        (QualName.packageSegments_subset member)
    have relative : Path.isAbsolute (root.name.simple ++ naming.suffix ++ "." ++ naming.extension) =
        false := by
      rw [String.append_assoc]
      exact Path.isAbsolute_append (isIdentifier_ne_empty identifier) (isIdentifier_no_slash identifier) _
    dsimp only
    rw [Naming.targetPath, simple, segments]
    exact Path.inPackage_eq (fun segment member => isIdentifier_ne_empty (identifiers segment member))
      (fun segment member => isIdentifier_no_slash (identifiers segment member)) relative output

end Stub

/-- Where a class is emitted for a root with a valid name, it is named after the root exactly if the
suffix has no dot; with a dot, all in front of the last one goes into the package. -/
theorem named_iff_plain {root : TypeModel} {naming : Naming} {output : Path} {stub : Stub}
    {owed : List Obligation} {bodies : List Body} (valid : root.name.valid = true)
    (emitted : Stub.emit naming output root owed bodies = .ok stub) :
    (stub.NamedAfter root naming output ↔ '.' ∉ naming.suffix.toList) ∧
      ∀ front last, naming.suffix = front ++ "." ++ last → '.' ∉ last.toList →
        stub.name.package = root.name.text ++ front ∧ stub.name.simple = last := by
  have parts : ∀ front last, naming.suffix = front ++ "." ++ last → '.' ∉ last.toList →
      stub.name.package = root.name.text ++ front ∧ stub.name.simple = last := by
    intro front last suffix plain
    obtain ⟨_, rfl⟩ := Stub.emit_eq_ok emitted
    refine QualName.parts_of_text ?_ plain
    rw [Naming.generatedName, QualName.sibling_append valid, suffix]
    simp only [String.append_assoc]
  refine ⟨⟨fun named dot => ?_, fun plain => Stub.namedAfter_of_plain valid plain emitted⟩, parts⟩
  obtain ⟨front, last, suffix, plain⟩ : ∃ front last, naming.suffix = front ++ "." ++ last ∧
      '.' ∉ last.toList := by
    obtain ⟨behind, before, split, undotted⟩ := List.eq_append_cons_of_mem (List.mem_reverse.mpr dot)
    refine ⟨String.ofList before.reverse, String.ofList behind.reverse, ?_, by simpa using undotted⟩
    rw [← String.toList_inj, ← List.reverse_inj, split]
    simp [String.toList_append]
  have longer := congrArg String.length ((parts front last suffix plain).1.symm.trans named.package)
  have shorter := QualName.package_length_lt valid
  rw [String.length_append] at longer
  omega

namespace Suffixed

def root : TypeModel where
  name := ⟨"p.Foo"⟩
  kind := .interface

/-- The class called `p.FooImpl`. -/
def beside : Stub where
  name := ⟨"p.FooImpl"⟩
  path := "out/p/FooImpl.java"
  source := "package p;\n\n// Generated by implgen from p.Foo.\n" ++
    "public class FooImpl implements p.Foo \x7b\n\x7d\n"

/-- What the suffix `Impl.Bar` gives: a class in another package. -/
def astray : Stub where
  name := ⟨"p.FooImpl.Bar"⟩
  path := "out/p/FooImpl/Bar.java"
  source := "package p.FooImpl;\n\n// Generated by implgen from p.Foo.\n" ++
    "public class Bar implements p.Foo \x7b\n\x7d\n"

/-- What the suffix `./elsewhere.Bar` gives: a file outside the output directory. -/
def escaped : Stub where
  name := ⟨"p.Foo./elsewhere.Bar"⟩
  path := "/elsewhere/Bar.java"
  source := "package p.Foo./elsewhere;\n\n// Generated by implgen from p.Foo.\n" ++
    "public class Bar implements p.Foo \x7b\n\x7d\n"

theorem emitted : Stub.emit {} "out" root [] [] = .ok beside := by decide +kernel

end Suffixed

theorem beside_named : Suffixed.beside.NamedAfter Suffixed.root {} "out" := by
  have valid : Suffixed.root.name.valid = true := by decide +kernel
  exact (named_iff_plain valid Suffixed.emitted).1.mpr (by decide)

/-- With a dot in the suffix a class is emitted, but into another package, and a slash in front of the
dot may even lead out of the output directory. -/
theorem dotted_suffix_strays :
    (Stub.emit { suffix := "Impl.Bar" } "out" Suffixed.root [] [] = .ok Suffixed.astray ∧
      ¬ Suffixed.astray.NamedAfter Suffixed.root { suffix := "Impl.Bar" } "out") ∧
    Stub.emit { suffix := "./elsewhere.Bar" } "out" Suffixed.root [] [] = .ok Suffixed.escaped ∧
      ¬ Suffixed.escaped.NamedAfter Suffixed.root { suffix := "./elsewhere.Bar" } "out" := by
  refine ⟨⟨by decide +kernel, fun named => ?_⟩, by decide +kernel, fun named => ?_⟩
  · exact absurd named.package (by decide +kernel)
  · exact absurd named.package (by decide +kernel)

end JavaStubs
