import JavaStubs.Files.FileSystem
import JavaStubs.Proofs.Descriptor.Scoping

namespace JavaStubs

namespace Text

theorem cutBy_append {p : Char → Bool} {c : Char} (separates : p c = true) (text rest : List Char) :
    cutBy p (text ++ c :: rest) = cutBy p text ++ cutBy p rest := by
  induction text with
  | nil => simp [cutBy, separates]
  | cons first text ih =>
    by_cases separator : p first = true
    · simp [cutBy, separator, ih]
    · obtain ⟨piece, pieces, cut⟩ := List.exists_cons_of_ne_nil (cutBy_ne_nil p text)
      simp [cutBy, separator, ih, cut]

theorem cutBy_of_plain {p : Char → Bool} {text : List Char} (plain : ∀ c ∈ text, p c = false) :
    cutBy p text = [text] := by
  induction text with
  | nil => rfl
  | cons first text ih =>
    obtain ⟨here, later⟩ := List.forall_mem_cons.mp plain
    simp [cutBy, here, ih later]

/-- What is put behind a text without separators goes to its last piece. -/
theorem cutBy_append_plain {p : Char → Bool} {tail : List Char} (plain : ∀ c ∈ tail, p c = false)
    (text : List Char) : ∃ before piece,
      cutBy p text = before ++ [piece] ∧ cutBy p (text ++ tail) = before ++ [piece ++ tail] := by
  induction text with
  | nil => exact ⟨[], [], rfl, cutBy_of_plain plain⟩
  | cons first text ih =>
    obtain ⟨before, piece, cut, cutMore⟩ := ih
    by_cases separator : p first = true
    · exact ⟨[] :: before, piece, by simp [cutBy, separator, cut],
        by simp [cutBy, separator, cutMore]⟩
    · cases before with
      | nil => exact ⟨[], first :: piece, by simp [cutBy, separator, cut],
          by simp [cutBy, separator, cutMore]⟩
      | cons head before => exact ⟨(first :: head) :: before, piece, by simp [cutBy, separator, cut],
          by simp [cutBy, separator, cutMore]⟩

/-- Cutting at a mark of one character takes texts apart that it joins. -/
theorem pieces_append {c : Char} {mark : String} (single : mark.toList = [c]) (text rest : String) :
    pieces c (text ++ mark ++ rest) = pieces c text ++ pieces c rest := by
  simp only [pieces, String.toList_append, single, List.append_assoc, List.singleton_append]
  rw [cutBy_append (by simp), List.map_append]

theorem pieces_join (text rest : String) :
    pieces '/' (text ++ "/" ++ rest) = pieces '/' text ++ pieces '/' rest :=
  pieces_append rfl text rest

theorem pieces_of_not_mem {c : Char} {text : String} (plain : c ∉ text.toList) :
    pieces c text = [text] := by
  have alone : cutBy (· == c) text.toList = [text.toList] :=
    cutBy_of_plain fun other inside => beq_false_of_ne fun same => plain (same ▸ inside)
  simp [pieces, alone]

theorem pieces_append_plain {separator : Char} {tail : String} (plain : separator ∉ tail.toList)
    (text : String) : ∃ before piece, pieces separator text = before ++ [piece] ∧
      pieces separator (text ++ tail) = before ++ [piece ++ tail] := by
  have inside : ∀ c ∈ tail.toList, (c == separator) = false := fun c member =>
    beq_false_of_ne fun same => plain (same ▸ member)
  obtain ⟨before, piece, cut, cutMore⟩ := cutBy_append_plain inside text.toList
  refine ⟨before.map String.ofList, String.ofList piece, by simp [pieces, cut], ?_⟩
  simp [pieces, String.toList_append, cutMore, String.ofList_append]

theorem mem_of_mem_cutBy {p : Char → Bool} {text piece : List Char} (member : piece ∈ cutBy p text)
    {c : Char} (inside : c ∈ piece) : c ∈ text ∧ p c = false := by
  induction text generalizing piece with
  | nil =>
    rw [cutBy, List.mem_singleton] at member
    simp [member] at inside
  | cons first text ih =>
    have further (later : c ∈ text ∧ p c = false) : c ∈ first :: text ∧ p c = false :=
      ⟨List.mem_cons_of_mem _ later.1, later.2⟩
    rw [cutBy] at member
    split at member
    · rcases List.mem_cons.mp member with rfl | later
      · simp at inside
      · exact further (ih later inside)
    · rename_i kept
      obtain ⟨head, pieces, cut⟩ := List.exists_cons_of_ne_nil (cutBy_ne_nil p text)
      rw [cut] at member ih
      rcases List.mem_cons.mp member with rfl | later
      · rcases List.mem_cons.mp inside with rfl | inHead
        · exact ⟨List.mem_cons_self .., by simpa using kept⟩
        · exact further (ih (List.mem_cons_self ..) inHead)
      · exact further (ih (List.mem_cons_of_mem _ later) inside)

/-- A piece has no characters but those of the text, and no separator. -/
theorem mem_of_mem_pieces {separator : Char} {text piece : String}
    (member : piece ∈ pieces separator text) {c : Char} (inside : c ∈ piece.toList) :
    c ∈ text.toList ∧ c ≠ separator := by
  obtain ⟨chars, cut, rfl⟩ := List.mem_map.mp member
  obtain ⟨ofText, apart⟩ := mem_of_mem_cutBy cut (by simpa using inside)
  exact ⟨ofText, by simpa using apart⟩

end Text

/-- Joining puts the pieces of a relative path behind those of the other, which may lose an empty one
at its end. -/
theorem Path.join_relative {next : Path} (relative : isAbsolute next = false) (path : Path) :
    ∃ base, Text.pieces '/' (join path next) = base ++ Text.pieces '/' next ∧
      (Text.pieces '/' path = base ∨ Text.pieces '/' path = base ++ [""]) ∧
      isAbsolute (join path next) = isAbsolute path := by
  have first (rest : String) (nonempty : path ≠ "") : isAbsolute (path ++ rest) = isAbsolute path := by
    have chars : path.toList ≠ [] := by simpa using nonempty
    simp [isAbsolute, String.toList_append, List.head?_append_of_ne_nil _ chars]
  unfold join
  rw [if_neg (by simp [relative])]
  by_cases empty : path = ""
  · rw [if_pos (by simp [empty]), empty, String.empty_append]
    exact ⟨[], rfl, .inr rfl, relative⟩
  · by_cases slash : path.toList.getLast? = some '/'
    · -- The slash at the end of the first path is the one that joins the two.
      obtain ⟨before, ends⟩ := List.getLast?_eq_some_iff.mp slash
      have written : path = String.ofList before ++ "/" := by
        rw [← String.toList_inj, ends, String.toList_append]
        simp
      have cut : Text.pieces '/' path = Text.pieces '/' (String.ofList before) ++ [""] := by
        have joined := Text.pieces_join (String.ofList before) ""
        rw [String.append_empty, ← written] at joined
        exact joined
      have cutJoined : Text.pieces '/' (path ++ next) =
          Text.pieces '/' (String.ofList before) ++ Text.pieces '/' next := by
        rw [written]
        exact Text.pieces_join ..
      rw [if_pos (by simp [slash])]
      exact ⟨_, cutJoined, .inr cut, first next empty⟩
    · rw [if_neg (by simp [empty, slash])]
      refine ⟨_, Text.pieces_join path next, .inl rfl, ?_⟩
      rw [String.append_assoc, first _ empty]

theorem Path.join_absolute {next : Path} (absolute : isAbsolute next = true) (path : Path) :
    join path next = next := if_pos absolute

namespace FileSystem

variable {fs fs' fs'' : FileSystem} {place next : Place} {path : Path} {node : FileNode}

theorem isDirectory_iff : fs.isDirectory place = true ↔ fs.node? place = some .directory := by
  unfold isDirectory
  split
  · simp_all
  · rename_i other
    simp only [Bool.false_eq_true, false_iff]
    exact other

@[simp] theorem node?_nil (fs : FileSystem) : fs.node? [] = some .directory := by simp [node?]

theorem node?_put_self (named : place ≠ []) : (fs.put place node).node? place = some node := by
  simp [node?, put, named]

theorem node?_put_other {other : Place} (apart : other ≠ place) :
    (fs.put place node).node? other = fs.node? other := by
  have listed : (fs.nodes.filter (·.1 != place)).lookup other = fs.nodes.lookup other := by
    generalize fs.nodes = nodes
    induction nodes with
    | nil => rfl
    | cons entry nodes ih =>
      obtain ⟨key, value⟩ := entry
      by_cases here : key = place
      · have different : other ≠ key := fun same => apart (same.trans here)
        rw [List.filter_cons_of_neg (by simp [here]), ih, List.lookup_cons, beq_false_of_ne different]
      · rw [List.filter_cons_of_pos (by simp [here]), List.lookup_cons, List.lookup_cons, ih]
  simp only [node?, put, List.lookup_cons, beq_false_of_ne apart, listed]

/-- What it takes to follow one piece of a path. -/
theorem visit_eq_ok {piece : String} : fs.visit place piece = .ok next ↔
    fs.node? place = some .directory ∧ piece.utf8ByteSize ≤ nameLimit ∧ fs.node? next ≠ none ∧
      next = advance place piece := by
  unfold visit
  rw [← isDirectory_iff]
  cases fs.isDirectory place with
  | false => simp
  | true =>
    by_cases long : nameLimit < piece.utf8ByteSize
    · have tooLong : ¬ piece.utf8ByteSize ≤ nameLimit := by omega
      simp [long, tooLong]
    · cases there : fs.node? (advance place piece) with
      | none =>
        simp only [Bool.not_true, Bool.false_eq_true, if_false, long, Option.isNone_none, if_true,
          reduceCtorEq, true_and, false_iff]
        rintro ⟨_, found, rfl⟩
        exact found there
      | some node =>
        simp only [Bool.not_true, Bool.false_eq_true, if_false, long, Option.isNone_some, true_and,
          Except.ok.injEq]
        constructor
        · rintro rfl
          exact ⟨Nat.not_lt.mp long, by simp [there], rfl⟩
        · rintro ⟨_, _, rfl⟩
          rfl

/-- Where a path leads, however long it is. -/
def follow (fs : FileSystem) (path : Path) : Except FileFault Place :=
  (Text.pieces '/' path).foldlM fs.visit (fs.start path)

theorem locate_eq : fs.locate path = (do checkPath path; fs.follow path) := rfl

/-- An empty piece in front only asks for a directory, as the next piece does. -/
theorem visit_empty_first {pieces : List String} (some : pieces ≠ []) (place : Place) :
    (fs.visit place "" >>= fun place => pieces.foldlM fs.visit place) =
      pieces.foldlM fs.visit place := by
  obtain ⟨first, rest, rfl⟩ := List.exists_cons_of_ne_nil some
  by_cases directory : fs.isDirectory place = true
  · have stays : fs.visit place "" = .ok place := by
      rw [visit_eq_ok, ← isDirectory_iff]
      refine ⟨directory, by decide, ?_, by simp [advance, Path.isIdle]⟩
      simp [isDirectory_iff.mp directory]
    rw [stays, ok_bind]
  · have refused (piece : String) : fs.visit place piece = .error .notDirectory := by
      simp [visit, directory]
    rw [List.foldlM_cons, refused, refused]
    rfl

/-- A relative path behind another one is followed from where that one leads. -/
theorem follow_join {next : Path} (relative : Path.isAbsolute next = false) (path : Path) :
    fs.follow (Path.join path next) =
      fs.follow path >>= fun place => (Text.pieces '/' next).foldlM fs.visit place := by
  obtain ⟨base, joined, cut, sameStart⟩ := Path.join_relative relative path
  have first : fs.start (Path.join path next) = fs.start path := by rw [start, start, sameStart]
  rw [follow, joined, first, List.foldlM_append, follow]
  rcases cut with cut | cut
  · rw [cut]
  · rw [cut, List.foldlM_append, bind_assoc]
    refine congrArg _ (funext fun place => ?_)
    simp only [List.foldlM_cons, List.foldlM_nil, bind_pure]
    exact (visit_empty_first (Text.pieces_ne_nil '/' next) place).symm

/-- Whatever a path leads to lies in directories, all the way. -/
theorem locate_directories (located : fs.locate path = .ok place) {before after : List String}
    {piece : String} (cut : Text.pieces '/' path = before ++ piece :: after) :
    ∃ directory, before.foldlM fs.visit (fs.start path) = .ok directory ∧
      fs.node? directory = some .directory := by
  rw [locate_eq] at located
  obtain ⟨_, _, followed⟩ := bind_eq_ok located
  rw [follow, cut, List.foldlM_append] at followed
  obtain ⟨directory, led, followed⟩ := bind_eq_ok followed
  rw [List.foldlM_cons] at followed
  obtain ⟨_, entered, _⟩ := bind_eq_ok followed
  exact ⟨directory, led, (visit_eq_ok.mp entered).1⟩

/-- The place is as it was, or where nothing was there is a directory now. -/
def Keeps (fs fs' : FileSystem) (place : Place) : Prop :=
  fs'.node? place = fs.node? place ∨ fs.node? place = none ∧ fs'.node? place = some .directory

/-- Directories may be added, and files may be written where `Written` allows it; all else stays. -/
structure Evolves (fs fs' : FileSystem) (Written : Place → Prop) : Prop where
  workDir : fs'.workDir = fs.workDir
  capacity : fs'.capacity = fs.capacity
  places : ∀ place, fs.Keeps fs' place ∨
    Written place ∧ fs.node? place ≠ some .directory ∧ ∃ content, fs'.node? place = some (.file content)

namespace Evolves

variable {Written : Place → Prop}

theorem refl (fs : FileSystem) (Written : Place → Prop) : fs.Evolves fs Written where
  workDir := rfl
  capacity := rfl
  places := fun _ => .inl (.inl rfl)

theorem mono {Written' : Place → Prop} (evolves : fs.Evolves fs' Written)
    (more : ∀ place, Written place → Written' place) : fs.Evolves fs' Written' where
  workDir := evolves.workDir
  capacity := evolves.capacity
  places := by
    intro place
    rcases evolves.places place with kept | ⟨written, replaced⟩
    · exact .inl kept
    · exact .inr ⟨more place written, replaced⟩

theorem directory (evolves : fs.Evolves fs' Written) (there : fs.node? place = some .directory) :
    fs'.node? place = some .directory := by
  rcases evolves.places place with (same | ⟨absent, _⟩) | ⟨_, other, _⟩
  · exact same.trans there
  · simp [there] at absent
  · exact absurd there other

theorem present (evolves : fs.Evolves fs' Written) (there : fs.node? place ≠ none) :
    fs'.node? place ≠ none := by
  rcases evolves.places place with (same | ⟨_, added⟩) | ⟨_, _, content, written⟩
  · exact same ▸ there
  · simp [added]
  · simp [written]

theorem trans (first : fs.Evolves fs' Written) (second : fs'.Evolves fs'' Written) :
    fs.Evolves fs'' Written where
  workDir := second.workDir.trans first.workDir
  capacity := second.capacity.trans first.capacity
  places := by
    intro place
    rcases second.places place with (same | ⟨absent, added⟩) | ⟨written, other, content, replaced⟩
    · rw [Keeps, same]
      exact first.places place
    · rcases first.places place with (same' | ⟨_, added'⟩) | ⟨_, _, content, replaced⟩
      · exact .inl (.inr ⟨same' ▸ absent, added⟩)
      · simp [absent] at added'
      · simp [absent] at replaced
    · exact .inr ⟨written, fun there => other (first.directory there), content, replaced⟩

theorem keeps (evolves : fs.Evolves fs' Written) (unwritten : ¬ Written place) :
    fs.Keeps fs' place :=
  (evolves.places place).resolve_right fun changed => unwritten changed.1

theorem start (evolves : fs.Evolves fs' Written) (path : Path) : fs'.start path = fs.start path := by
  rw [FileSystem.start, FileSystem.start, evolves.workDir]

theorem visit (evolves : fs.Evolves fs' Written) {piece : String}
    (visited : fs.visit place piece = .ok next) : fs'.visit place piece = .ok next := by
  obtain ⟨directory, short, there, moved⟩ := visit_eq_ok.mp visited
  exact visit_eq_ok.mpr ⟨evolves.directory directory, short, evolves.present there, moved⟩

theorem visits (evolves : fs.Evolves fs' Written) {pieces : List String}
    (visited : pieces.foldlM fs.visit place = .ok next) :
    pieces.foldlM fs'.visit place = .ok next := by
  induction pieces generalizing place with
  | nil => exact visited
  | cons piece pieces ih =>
    rw [List.foldlM_cons] at visited ⊢
    obtain ⟨between, first, rest⟩ := bind_eq_ok visited
    rw [evolves.visit first, ok_bind]
    exact ih rest

/-- Paths go on leading where they led. -/
theorem locate (evolves : fs.Evolves fs' Written) (located : fs.locate path = .ok place) :
    fs'.locate path = .ok place := by
  rw [locate_eq] at located ⊢
  obtain ⟨_, checked, followed⟩ := bind_eq_ok located
  rw [checked, ok_bind, follow, evolves.start]
  exact evolves.visits followed

end Evolves

end FileSystem

end JavaStubs
