import JavaStubs.Compiler
import JavaStubs.Proofs.Files.Following
import JavaStubs.Proofs.Resolver.Location
import JavaStubs.Proofs.Types.Naming
import Mathlib.Data.List.DropRight

namespace JavaStubs

namespace Path

/-- How the path starts: at the root, at an explicit `.`, or plainly. -/
def start (path : Path) : String := (splitStart path).1

/-- The pieces that mean something. -/
def components (path : Path) : List String := (Text.pieces '/' path).filter (!isIdle ·)

/-- The same path, though perhaps written with other slashes and idle pieces. -/
structure Same (a b : Path) : Prop where
  start : a.start = b.start
  components : a.components = b.components

variable {path : Path} {word last : String} {pieces before : List String}

theorem isAbsolute_cons (rest : String) : isAbsolute ("/" ++ rest) = true := by
  simp [isAbsolute, String.toList_append]

theorem isAbsolute_front {text rest : String} (relative : isAbsolute (text ++ rest) = false) :
    isAbsolute text = false := by
  unfold isAbsolute at relative ⊢
  rw [String.toList_append] at relative
  cases chars : text.toList with
  | nil => rfl
  | cons c others => simpa [chars] using relative

/-- The ways in which a path is taken apart. -/
theorem splitStart_cases (path : Path) :
    (∃ rest, path = "/" ++ rest ∧ splitStart path = ("/", rest)) ∨
    (path = "." ∧ splitStart path = (".", "")) ∨
    (∃ rest, path = "./" ++ rest ∧ splitStart path = (".", "/" ++ rest)) ∨
    (splitStart path = ("", path) ∧ isAbsolute path = false ∧ path ≠ "." ∧
      ∀ rest, path ≠ "./" ++ rest) := by
  unfold splitStart
  split
  · rename_i rest chars
    exact .inl ⟨_, by simp [← String.toList_inj, chars], rfl⟩
  · rename_i chars
    exact .inr (.inl ⟨by simp [← String.toList_inj, chars], rfl⟩)
  · rename_i rest chars
    exact .inr (.inr (.inl ⟨String.ofList rest, by simp [← String.toList_inj, chars], by simp⟩))
  · rename_i slash dot dotSlash
    refine .inr (.inr (.inr ⟨rfl, ?_, ?_, ?_⟩))
    · cases chars : path.toList with
      | nil => simp [isAbsolute, chars]
      | cons c rest =>
        have other : c ≠ '/' := by
          rintro rfl
          exact slash _ chars
        simpa [isAbsolute, chars] using other
    · rintro rfl
      exact dot rfl
    · rintro rest rfl
      exact dotSlash rest.toList (by simp)

theorem pieces_slash (rest : String) : Text.pieces '/' ("/" ++ rest) = "" :: Text.pieces '/' rest := by
  have cut := Text.pieces_join "" rest
  rwa [String.empty_append] at cut

theorem pieces_dot (rest : String) : Text.pieces '/' ("./" ++ rest) = "." :: Text.pieces '/' rest :=
  Text.pieces_join "." rest

theorem start_slash (rest : String) : start ("/" ++ rest) = "/" := by
  simp [start, splitStart, String.toList_append]

theorem start_dotSlash (rest : String) : start ("./" ++ rest) = "." := by
  simp [start, splitStart, String.toList_append]

theorem components_slash (rest : String) :
    components ("/" ++ rest) = (Text.pieces '/' rest).filter (!isIdle ·) := by
  rw [components, pieces_slash, List.filter_cons_of_neg (by decide)]

theorem components_dotSlash (rest : String) :
    components ("./" ++ rest) = (Text.pieces '/' rest).filter (!isIdle ·) := by
  rw [components, pieces_dot, List.filter_cons_of_neg (by decide)]

/-- The first piece and a slash in front say how a path starts. -/
theorem start_eq (path : Path) : path.start =
    if isAbsolute path then "/" else if (Text.pieces '/' path).head? = some "." then "." else "" := by
  rcases splitStart_cases path with ⟨rest, rfl, _⟩ | ⟨rfl, _⟩ | ⟨rest, rfl, _⟩ |
    ⟨split, relative, notDot, notDotSlash⟩
  · rw [start_slash, if_pos (isAbsolute_cons rest)]
  · decide
  · have relative : isAbsolute ("./" ++ rest) = false := by simp [isAbsolute, String.toList_append]
    rw [start_dotSlash, relative, pieces_dot]
    simp
  · rw [start, split, relative, if_neg (by simp), if_neg]
    intro first
    obtain ⟨others, cut⟩ := List.head?_eq_some_iff.mp first
    have whole : "/".intercalate ("." :: others) = path := cut ▸ Text.intercalate_pieces rfl path
    cases others with
    | nil => exact notDot (by simpa using whole.symm)
    | cons next others =>
      rw [String.intercalate_cons_of_ne_nil (by simp)] at whole
      exact notDotSlash _ whole.symm

/-- What means something still does with more behind it. -/
theorem isIdle_append (busy : isIdle word = false) (tail : String) : isIdle (word ++ tail) = false := by
  simp only [isIdle, Bool.or_eq_false_iff, decide_eq_false_iff_not] at busy ⊢
  obtain ⟨nonempty, notDot⟩ := busy
  refine ⟨fun empty => nonempty (String.append_eq_empty_iff.mp empty).1, fun dot => ?_⟩
  rw [← String.toList_inj, String.toList_append] at dot
  rcases List.append_eq_singleton_iff.mp dot with ⟨empty, _⟩ | ⟨same, _⟩
  · exact nonempty (String.toList_eq_nil_iff.mp empty)
  · exact notDot (String.toList_inj.mp same)

variable (plain : '/' ∉ word.toList) (busy : isIdle word = false)
include plain busy

theorem start_join (path : Path) : (join path word).start = path.start := by
  obtain ⟨base, joined, cut, absolute⟩ := join_relative (isAbsolute_of_not_mem plain) path
  have first : (Text.pieces '/' (join path word)).head? = some "." ↔
      (Text.pieces '/' path).head? = some "." := by
    rw [joined, Text.pieces_of_not_mem plain]
    cases base with
    | nil =>
      have notDot : word ≠ "." := fun dot => by simp [isIdle, dot] at busy
      have empty : Text.pieces '/' path = [""] := cut.resolve_left (Text.pieces_ne_nil '/' path)
      simp [empty, notDot]
    | cons head base => rcases cut with cut | cut <;> simp [cut]
  simp only [start_eq, absolute, first]

theorem components_join (path : Path) : (join path word).components = path.components ++ [word] := by
  obtain ⟨base, joined, cut, _⟩ := join_relative (isAbsolute_of_not_mem plain) path
  have idle : isIdle "" = true := by decide
  rw [components, components, joined, Text.pieces_of_not_mem plain]
  rcases cut with cut | cut <;> simp [cut, busy, idle]

omit plain busy

/-- Joining components one after the other. -/
theorem foldl_join {words : List String} (plain : ∀ word ∈ words, '/' ∉ word.toList)
    (busy : ∀ word ∈ words, isIdle word = false) (path : Path) :
    (words.foldl join path).start = path.start ∧
      (words.foldl join path).components = path.components ++ words := by
  induction words generalizing path with
  | nil => simp
  | cons word words ih =>
    obtain ⟨unslashed, plain⟩ := List.forall_mem_cons.mp plain
    obtain ⟨filled, busy⟩ := List.forall_mem_cons.mp busy
    obtain ⟨starts, components⟩ := ih plain busy (join path word)
    rw [start_join unslashed filled] at starts
    rw [components_join unslashed filled, List.append_assoc] at components
    exact ⟨starts, components⟩

theorem dropIdle_eq (pieces : List String) : dropIdle pieces = pieces.rdropWhile isIdle := rfl

theorem dropIdle_front (pieces : List String) : dropIdle pieces <+: pieces := by
  rw [dropIdle_eq]
  exact List.rdropWhile_prefix isIdle pieces

theorem filter_dropIdle (pieces : List String) :
    (dropIdle pieces).filter (!isIdle ·) = pieces.filter (!isIdle ·) := by
  induction pieces using List.reverseRecOn with
  | nil => rfl
  | append_singleton pieces piece ih =>
    rw [dropIdle_eq] at ih ⊢
    by_cases idle : isIdle piece = true
    · rw [List.rdropWhile_concat_pos _ _ _ idle, ih]
      simp [idle]
    · rw [List.rdropWhile_concat_neg _ _ _ idle]

/-- Behind the last piece that means something there are only idle ones. -/
theorem dropIdle_concat (busy : pieces.filter (!isIdle ·) = before ++ [last]) :
    ∃ front, dropIdle pieces = front ++ [last] ∧ front.filter (!isIdle ·) = before := by
  induction pieces using List.reverseRecOn with
  | nil => simp at busy
  | append_singleton pieces piece ih =>
    rw [dropIdle_eq] at ih ⊢
    by_cases idle : isIdle piece = true
    · rw [List.rdropWhile_concat_pos _ _ _ idle]
      exact ih (by simpa [idle] using busy)
    · rw [List.rdropWhile_concat_neg _ _ _ idle]
      have ends : pieces.filter (!isIdle ·) ++ [piece] = before ++ [last] := by
        simpa [idle] using busy
      obtain ⟨front, same⟩ := List.append_inj' ends rfl
      exact ⟨pieces, by rw [same], front⟩

theorem filter_pieces_intercalate (plain : ∀ piece ∈ pieces, '/' ∉ piece.toList) :
    (Text.pieces '/' ("/".intercalate pieces)).filter (!isIdle ·) = pieces.filter (!isIdle ·) := by
  cases pieces with
  | nil => decide
  | cons piece pieces => rw [Text.pieces_intercalate rfl (by simp) plain]

theorem components_splitStart (path : Path) :
    (Text.pieces '/' (splitStart path).2).filter (!isIdle ·) = path.components := by
  rcases splitStart_cases path with ⟨rest, rfl, split⟩ | ⟨rfl, _⟩ | ⟨rest, rfl, split⟩ | ⟨split, _⟩
  · rw [split, components_slash]
  · decide
  · rw [split, components_dotSlash]
    exact components_slash rest
  · rw [split, components]

/-- What is put together from front pieces of a text is the front of it. -/
theorem exists_append_of_front {text : String} (front : pieces <+: Text.pieces '/' text) :
    ∃ rest, text = "/".intercalate pieces ++ rest := by
  obtain ⟨behind, cut⟩ := front
  have whole := @Text.intercalate_pieces '/' "/" rfl text
  rw [← cut] at whole
  by_cases none : pieces = []
  · exact ⟨text, by simp [none]⟩
  by_cases complete : behind = []
  · exact ⟨"", by simpa [complete] using whole.symm⟩
  · rw [String.intercalate_append_of_ne_nil none complete] at whole
    exact ⟨_, by rw [← whole, String.append_assoc]⟩

/-- A path keeps its start when pieces are left away at its end. -/
theorem rebuild (front : pieces <+: Text.pieces '/' (splitStart path).2) :
    start (path.start ++ "/".intercalate pieces) = path.start ∧
      components (path.start ++ "/".intercalate pieces) = pieces.filter (!isIdle ·) := by
  have plain : ∀ piece ∈ pieces, '/' ∉ piece.toList := fun piece member slash =>
    (Text.mem_of_mem_pieces (front.subset member) slash).2 rfl
  have kept := filter_pieces_intercalate plain
  rcases splitStart_cases path with ⟨rest, rfl, split⟩ | ⟨rfl, split⟩ | ⟨rest, rfl, split⟩ |
    ⟨split, relative, _⟩
  · rw [start_slash, start_slash, components_slash, kept]
    exact ⟨rfl, rfl⟩
  · have alone : pieces <+: [""] := by rwa [split] at front
    rcases List.prefix_cons_iff.mp alone with rfl | ⟨others, rfl, nothing⟩
    · decide
    · rw [List.prefix_nil.mp nothing]
      decide
  · rw [split, pieces_slash] at front
    rw [start_dotSlash]
    rcases List.prefix_cons_iff.mp front with rfl | ⟨others, rfl, front⟩
    · decide
    · cases others with
      | nil => decide
      | cons next others =>
        have text : "." ++ "/".intercalate ("" :: next :: others) =
            "./" ++ "/".intercalate (next :: others) := by
          rw [String.intercalate_cons_of_ne_nil (by simp), ← String.toList_inj]
          simp
        have kept := filter_pieces_intercalate (List.forall_mem_cons.mp plain).2
        rw [text, start_dotSlash, components_dotSlash, kept]
        exact ⟨rfl, rfl⟩
  · have plainly : path.start = "" := by rw [start, split]
    have notDot : (Text.pieces '/' path).head? ≠ some "." := by
      intro dot
      rw [start_eq, relative, dot] at plainly
      simp at plainly
    have front : pieces <+: Text.pieces '/' path := by rwa [split] at front
    obtain ⟨rest, text⟩ := exists_append_of_front front
    have shorter : isAbsolute ("/".intercalate pieces) = false := isAbsolute_front (text ▸ relative)
    rw [plainly, String.empty_append]
    refine ⟨?_, kept⟩
    rw [start_eq, shorter, if_neg (by simp), if_neg]
    cases pieces with
    | nil => decide
    | cons piece pieces =>
      obtain ⟨behind, cut⟩ := front
      rw [Text.pieces_intercalate rfl (by simp) plain]
      simpa [← cut] using notDot

/-- The parent of a path is the path without its last component. -/
theorem exists_parent (components : path.components = before ++ [last]) :
    ∃ parent, parent? path = some parent ∧ parent.start = path.start ∧ parent.components = before := by
  rw [← components_splitStart] at components
  obtain ⟨front, kept, busy⟩ := dropIdle_concat components
  have inside : dropIdle front <+: Text.pieces '/' (splitStart path).2 := by
    refine (dropIdle_front front).trans (List.IsPrefix.trans ?_ (dropIdle_front _))
    exact ⟨[last], kept.symm⟩
  obtain ⟨starts, rebuilt⟩ := rebuild inside
  refine ⟨_, ?_, starts, rebuilt.trans ((filter_dropIdle front).trans busy)⟩
  unfold parent?
  dsimp only
  have shorter : (front ++ [last]).dropLast = front := List.dropLast_concat
  rw [kept]
  split
  · rename_i none
    simp at none
  · rw [shorter]
    rfl

end Path

namespace Compiler

/-- Going up takes away as many components. -/
theorem ascend_components {before after : List String} {path : Path}
    (components : path.components = before ++ after) :
    (ascend after.length path).start = path.start ∧
      (ascend after.length path).components = before := by
  induction after using List.reverseRecOn generalizing path with
  | nil => exact ⟨rfl, by simpa [ascend] using components⟩
  | append_singleton after last ih =>
    rw [← List.append_assoc] at components
    obtain ⟨parent, found, starts, above⟩ := Path.exists_parent components
    obtain ⟨same, rest⟩ := ih above
    rw [List.length_append, List.length_singleton, ascend, found]
    exact ⟨same.trans starts, rest⟩

/-- Above the package of a source stands the directory that the package was put into. -/
theorem sourceRoot_inPackage {package file : String} {segments : List String}
    (packaged : (Text.pieces '.' package).filter (· != "") = segments)
    (plain : ∀ word ∈ segments ++ [file], '/' ∉ word.toList)
    (busy : ∀ word ∈ segments ++ [file], Path.isIdle word = false) (output : Path) :
    (sourceRoot (Path.inPackage output segments file) package).Same output := by
  have whole : Path.inPackage output segments file = (segments ++ [file]).foldl Path.join output := by
    rw [List.foldl_append]
    rfl
  obtain ⟨start, components⟩ := Path.foldl_join plain busy output
  rw [← List.append_assoc] at components
  obtain ⟨directory, found, startAbove, above⟩ := Path.exists_parent components
  obtain ⟨startRoot, root⟩ := ascend_components above
  rw [sourceRoot, whole, packaged, found]
  exact ⟨startRoot.trans (startAbove.trans start), root⟩

end Compiler

end JavaStubs
