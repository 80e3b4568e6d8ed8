import JavaStubs.Proofs.Files.Steadiness
import JavaStubs.Proofs.Types.Printing
import JavaStubs.Resolver.Source

namespace JavaStubs

/-- Behind a path the next one decides on the last piece. -/
theorem Path.join_last (path next : Path) :
    (Text.pieces '/' (join path next)).getLast? = (Text.pieces '/' next).getLast? := by
  cases absolute : isAbsolute next with
  | true => rw [join_absolute absolute]
  | false =>
    obtain ⟨base, joined, _, _⟩ := join_relative absolute path
    rw [joined, List.getLast?_append_of_ne_nil _ (Text.pieces_ne_nil '/' next)]

/-- A file in a package keeps the end of its name. -/
theorem Path.inPackage_last {tail : String} (plain : '/' ∉ tail.toList) (root : Path)
    (segments : List String) (simple : String) :
    ∃ word, (Text.pieces '/' (inPackage root segments (simple ++ tail))).getLast? =
      some (word ++ tail) := by
  obtain ⟨before, word, _, cut⟩ := Text.pieces_append_plain plain simple
  exact ⟨word, by rw [inPackage, join_last, cut, List.getLast?_concat]⟩

namespace QualName

variable {name : QualName} {segment : String}

theorem not_mem_segment (member : segment ∈ name.segments) : '.' ∉ segment.toList := fun dot =>
  (Text.mem_of_mem_pieces member dot).2 rfl

theorem packageSegments_subset (member : segment ∈ name.packageSegments) : segment ∈ name.segments :=
  List.dropLast_subset _ (List.mem_filter.mp member).1

theorem not_mem_simple (name : QualName) : '.' ∉ name.simple.toList := by
  unfold simple
  cases last : name.segments.getLast? with
  | none => simp
  | some segment => exact not_mem_segment (List.mem_of_getLast? last)

end QualName

/-- The pieces of a text without dots do not lead upwards. -/
theorem Text.up_not_mem_pieces {text : String} (undotted : '.' ∉ text.toList) :
    ".." ∉ pieces '/' text := fun member =>
  undotted (mem_of_mem_pieces member (by simp : '.' ∈ "..".toList)).1

theorem FileSystem.Settled.package {fs : FileSystem} {root : Path} (settled : fs.Settled root)
    {segments : List String} (undotted : ∀ segment ∈ segments, '.' ∉ segment.toList) :
    fs.Settled (segments.foldl Path.join root) := by
  induction segments generalizing root with
  | nil => exact settled
  | cons segment segments ih =>
    obtain ⟨first, rest⟩ := List.forall_mem_cons.mp undotted
    exact ih (settled.join (Text.up_not_mem_pieces first)) rest

namespace Source

variable {fs : FileSystem} {root : Path}

/-- The last piece of a descriptor's path is the name of a file. -/
theorem pathFor_last (root : Path) (name : QualName) : ∃ word,
    (Text.pieces '/' (pathFor root name)).getLast? = some (word ++ ".xml") :=
  Path.inPackage_last (by decide) root name.packageSegments name.simple

theorem xml_ne_short {text : String} (short : text.length < 4) (word : String) :
    word ++ ".xml" ≠ text := by
  rintro rfl
  have size : ".xml".length = 4 := rfl
  rw [String.length_append, size] at short
  omega

theorem xml_busy (word : String) : Path.isIdle (word ++ ".xml") = false := by
  have notEmpty := xml_ne_short (by decide : "".length < 4) word
  have notDot := xml_ne_short (by decide : ".".length < 4) word
  simp [Path.isIdle, notEmpty, notDot]

theorem xml_straight (word : String) : word ++ ".xml" ≠ ".." := xml_ne_short (by decide) word

/-- Below a settled root all paths of descriptors are settled. -/
theorem pathFor_settled (settled : fs.Settled root) (name : QualName) :
    fs.Settled (pathFor root name) := by
  have directory : fs.Settled (name.packageSegments.foldl Path.join root) :=
    settled.package fun segment member =>
      QualName.not_mem_segment (QualName.packageSegments_subset member)
  refine directory.join fun up => ?_
  obtain ⟨before, word, cut, cutFile⟩ := Text.pieces_append_plain
    (by decide : '/' ∉ ".xml".toList) name.simple
  rw [cutFile] at up
  rcases List.mem_append.mp up with earlier | last
  · have member : ".." ∈ Text.pieces '/' name.simple := by simp [cut, earlier]
    exact Text.up_not_mem_pieces name.not_mem_simple member
  · exact xml_straight word (List.mem_singleton.mp last).symm

end Source

theorem isIdentifier_no_slash {word : String} (identifier : isIdentifier word = true) :
    '/' ∉ word.toList := fun member =>
  absurd (isIdentifier_chars identifier '/' member) (by decide)

theorem isIdentifier_busy {word : String} (identifier : isIdentifier word = true) :
    Path.isIdle word = false := by
  have notDot : word ≠ "." := fun dot => isIdentifier_plain identifier (by simp [dot])
  simp [Path.isIdle, isIdentifier_ne_empty identifier, notDot]

theorem isAbsolute_of_not_mem {path : Path} (plain : '/' ∉ path.toList) :
    Path.isAbsolute path = false := by
  unfold Path.isAbsolute
  cases first : path.toList with
  | nil => rfl
  | cons c rest =>
    have other : c ≠ '/' := fun slash => plain (by simp [first, slash])
    simpa using other

namespace FileSystem

variable {fs : FileSystem} {root : Path} {place : Place}

/-- A file or directory in a directory is found behind it. -/
theorem follow_step {name : String} (plain : '/' ∉ name.toList) (busy : Path.isIdle name = false)
    (straight : name ≠ "..") (followed : fs.follow (Path.join root name) = .ok place) :
    ∃ base, fs.follow root = .ok base ∧ place = base ++ [name] := by
  rw [follow_join (isAbsolute_of_not_mem plain), Text.pieces_of_not_mem plain] at followed
  obtain ⟨base, led, followed⟩ := bind_eq_ok followed
  rw [List.foldlM_cons] at followed
  obtain ⟨_, entered, same⟩ := bind_eq_ok followed
  cases same
  obtain ⟨_, _, _, moved⟩ := visit_eq_ok.mp entered
  exact ⟨base, led, by simp [moved, advance, busy, straight]⟩

theorem follow_package {segments : List String}
    (identifiers : ∀ segment ∈ segments, isIdentifier segment = true)
    (followed : fs.follow (segments.foldl Path.join root) = .ok place) :
    ∃ base, fs.follow root = .ok base ∧ place = base ++ segments := by
  induction segments generalizing root with
  | nil => exact ⟨place, followed, by simp⟩
  | cons segment rest ih =>
    obtain ⟨identifier, later⟩ := List.forall_mem_cons.mp identifiers
    obtain ⟨between, led, ended⟩ := ih later followed
    have straight : segment ≠ ".." := fun up => isIdentifier_plain identifier (by simp [up])
    obtain ⟨base, start, moved⟩ :=
      follow_step (isIdentifier_no_slash identifier) (isIdentifier_busy identifier) straight led
    exact ⟨base, start, by rw [ended, moved, List.append_assoc, List.singleton_append]⟩

end FileSystem

namespace QualName

variable {name name' : QualName}

theorem packageSegments_of_valid (valid : name.valid = true) :
    name.packageSegments = name.segments.dropLast := by
  refine List.filter_eq_self.mpr fun segment member => ?_
  have identifier := valid_iff.mp valid segment (List.dropLast_subset _ member)
  simpa using isIdentifier_ne_empty identifier

/-- A valid name is put together from its package and its simple name. -/
theorem eq_of_parts (valid : name.valid = true) (valid' : name'.valid = true)
    (package : name.packageSegments = name'.packageSegments) (simple : name.simple = name'.simple) :
    name = name' := by
  have parts {name : QualName} (valid : name.valid = true) :
      name.text = ".".intercalate (name.packageSegments ++ [name.simple]) := by
    have nonempty : name.segments ≠ [] := Text.pieces_ne_nil '.' name.text
    rw [packageSegments_of_valid valid, QualName.simple, List.getLast?_eq_some_getLast nonempty,
      Option.getD_some, List.dropLast_append_getLast, intercalate_segments]
  have sameText : name.text = name'.text := by rw [parts valid, parts valid', package, simple]
  cases name
  cases name'
  cases sameText
  rfl

end QualName

namespace Source

variable {fs : FileSystem} {root : Path} {place : Place} {name name' : QualName}

/-- The place of a valid name's descriptor says its package and its simple name. -/
theorem pathFor_place (valid : name.valid = true) (located : fs.locate (pathFor root name) = .ok place) :
    ∃ base, fs.follow root = .ok base ∧
      place = base ++ (name.packageSegments ++ [name.simple ++ ".xml"]) := by
  have fileName : '/' ∉ (name.simple ++ ".xml").toList := by
    have simple := isIdentifier_no_slash (QualName.isIdentifier_simple valid)
    simpa [String.toList_append] using simple
  rw [FileSystem.locate_eq] at located
  obtain ⟨_, _, followed⟩ := bind_eq_ok located
  obtain ⟨directory, led, ended⟩ :=
    FileSystem.follow_step fileName (xml_busy _) (xml_straight _) followed
  have identifiers : ∀ segment ∈ name.packageSegments, isIdentifier segment = true := fun segment member =>
    QualName.valid_iff.mp valid segment (QualName.packageSegments_subset member)
  obtain ⟨base, start, package⟩ := FileSystem.follow_package identifiers led
  exact ⟨base, start, by rw [ended, package, List.append_assoc]⟩

/-- Different valid names have their descriptors at different places. -/
theorem pathFor_injective (valid : name.valid = true) (valid' : name'.valid = true)
    (located : fs.locate (pathFor root name) = .ok place)
    (located' : fs.locate (pathFor root name') = .ok place) : name = name' := by
  obtain ⟨base, start, here⟩ := pathFor_place valid located
  obtain ⟨base', start', here'⟩ := pathFor_place valid' located'
  cases start.symm.trans start'
  have sameRest := List.append_cancel_left (here.symm.trans here')
  obtain ⟨package, file⟩ := List.append_inj' sameRest rfl
  have simple : name.simple = name'.simple := by simpa using List.singleton_inj.mp file
  exact QualName.eq_of_parts valid valid' package simple

end Source

end JavaStubs
