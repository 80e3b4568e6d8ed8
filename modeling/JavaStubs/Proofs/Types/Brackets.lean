import JavaStubs.Proofs.Files.Following
import JavaStubs.Proofs.Types.Reading

namespace JavaStubs

namespace Text

/-- What holds of nothing, of a mark and of some lists, and of any two lists in a row, holds of these
lists with the mark between them. -/
theorem intercalate_induct {α : Type} {P : List α → Prop} {mark : List α} {lists : List (List α)}
    (nil : P []) (append : ∀ {front back : List α}, P front → P back → P (front ++ back))
    (joint : P mark) (each : ∀ list ∈ lists, P list) : P (mark.intercalate lists) := by
  induction lists with
  | nil => exact nil
  | cons list lists ih =>
    obtain ⟨own, others⟩ := List.forall_mem_cons.mp each
    cases lists with
    | nil => simpa using own
    | cons next lists =>
      rw [List.intercalate_cons_of_ne_nil (by simp)]
      exact append (append own joint) (ih others)

/-- The number of open brackets behind a character. -/
def depthBehind (depth : Nat) (c : Char) : Nat :=
  if c = '<' then depth + 1 else if c = '>' then depth - 1 else depth

/-- The pieces between the separators outside angle brackets. -/
def cutOutside (separator : Char) : Nat → List Char → List (List Char)
  | _, [] => [[]]
  | depth, c :: rest =>
    if c = separator ∧ depth = 0 then [] :: cutOutside separator 0 rest
    else (cutOutside separator (depthBehind depth c) rest).modifyHead (c :: ·)

/-- A text that leads from one number of open brackets to another and has no separator outside. -/
inductive Unbroken (separator : Char) : Nat → List Char → Nat → Prop
  | nil {depth : Nat} : Unbroken separator depth [] depth
  | opening {depth final : Nat} {text : List Char} (rest : Unbroken separator (depth + 1) text final) :
      Unbroken separator depth ('<' :: text) final
  | closing {depth final : Nat} {text : List Char} (rest : Unbroken separator depth text final) :
      Unbroken separator (depth + 1) ('>' :: text) final
  | plain {depth final : Nat} {text : List Char} {c : Char} (other : c ≠ '<' ∧ c ≠ '>')
      (inside : c = separator → 0 < depth) (rest : Unbroken separator depth text final) :
      Unbroken separator depth (c :: text) final

namespace Unbroken

variable {separator : Char} {depth middle final : Nat} {text later mark : List Char}

theorem append (first : Unbroken separator depth text middle)
    (second : Unbroken separator middle later final) : Unbroken separator depth (text ++ later) final := by
  induction first with
  | nil => exact second
  | opening _ ih => exact .opening (ih second)
  | closing _ ih => exact .closing (ih second)
  | plain other inside _ ih => exact .plain other inside (ih second)

theorem of_plain (plain : ∀ c ∈ text, c ≠ '<' ∧ c ≠ '>' ∧ (c = separator → 0 < depth)) :
    Unbroken separator depth text depth := by
  induction text with
  | nil => exact .nil
  | cons c text ih =>
    obtain ⟨⟨left, right, inside⟩, others⟩ := List.forall_mem_cons.mp plain
    exact .plain ⟨left, right⟩ inside (ih others)

theorem bracketed (inside : Unbroken separator (depth + 1) text (depth + 1)) :
    Unbroken separator depth ('<' :: (text ++ ['>'])) depth :=
  .opening (inside.append (.closing .nil))

theorem intercalate {texts : List (List Char)} (joint : Unbroken separator depth mark depth)
    (each : ∀ text ∈ texts, Unbroken separator depth text depth) :
    Unbroken separator depth (mark.intercalate texts) depth :=
  intercalate_induct .nil append joint each

/-- An unbroken text stays in one piece, the first of what is cut behind it. -/
theorem cutOutside_append (separates : separator ≠ '<' ∧ separator ≠ '>')
    (unbroken : Unbroken separator depth text final) (rest : List Char) :
    cutOutside separator depth (text ++ rest) =
      (cutOutside separator final rest).modifyHead (text ++ ·) := by
  induction unbroken with
  | nil => exact (congrFun List.modifyHead_id _).symm
  | opening _ ih =>
    rw [List.cons_append, cutOutside, if_neg fun both => separates.1 both.1.symm]
    simp [depthBehind, ih, List.modifyHead_modifyHead, Function.comp_def]
  | closing _ ih =>
    rw [List.cons_append, cutOutside, if_neg fun both => separates.2 both.1.symm]
    simp [depthBehind, ih, List.modifyHead_modifyHead, Function.comp_def]
  | @plain depth _ _ c other inside _ ih =>
    have within : ¬ (c = separator ∧ depth = 0) := fun both => by
      have := inside both.1
      omega
    rw [List.cons_append, cutOutside, if_neg within]
    simp [depthBehind, other, ih, List.modifyHead_modifyHead, Function.comp_def]

theorem cutOutside_eq (separates : separator ≠ '<' ∧ separator ≠ '>')
    (unbroken : Unbroken separator depth text final) : cutOutside separator depth text = [text] := by
  have cut := unbroken.cutOutside_append separates []
  rw [List.append_nil] at cut
  rw [cut]
  simp [cutOutside]

/-- An unbroken text before a separator is a piece of its own. -/
theorem cutOutside_cons (separates : separator ≠ '<' ∧ separator ≠ '>')
    (unbroken : Unbroken separator depth text 0) (rest : List Char) :
    cutOutside separator depth (text ++ separator :: rest) = text :: cutOutside separator 0 rest := by
  rw [unbroken.cutOutside_append separates, cutOutside, if_pos ⟨rfl, rfl⟩]
  simp

/-- Unbroken texts with separators between them are cut into these texts. -/
theorem cutOutside_intercalate (separates : separator ≠ '<' ∧ separator ≠ '>')
    {texts : List (List Char)} (nonempty : texts ≠ [])
    (each : ∀ text ∈ texts, Unbroken separator 0 text 0) :
    cutOutside separator 0 ([separator].intercalate texts) = texts := by
  induction texts with
  | nil => exact absurd rfl nonempty
  | cons text texts ih =>
    obtain ⟨own, others⟩ := List.forall_mem_cons.mp each
    cases texts with
    | nil => simpa using own.cutOutside_eq separates
    | cons next texts =>
      rw [List.intercalate_cons_of_ne_nil (by simp), List.append_assoc, List.singleton_append,
        own.cutOutside_cons separates, ih (by simp) others]

end Unbroken

theorem cutOutside_ne_nil {separator : Char} {depth : Nat} {text : List Char} :
    cutOutside separator depth text ≠ [] := by
  induction text generalizing depth with
  | nil => simp [cutOutside]
  | cons c text ih =>
    rw [cutOutside]
    split
    · simp
    · exact List.modifyHead_eq_nil_iff.not.mpr ih

/-- Cutting takes away separators and nothing else. -/
theorem intercalate_cutOutside {separator : Char} {depth : Nat} {text : List Char} :
    [separator].intercalate (cutOutside separator depth text) = text := by
  induction text generalizing depth with
  | nil => rfl
  | cons c text ih =>
    rw [cutOutside]
    split
    · rename_i outside
      rw [List.intercalate_cons_of_ne_nil cutOutside_ne_nil, ih, outside.1]
      rfl
    · have later := @ih (depthBehind depth c)
      obtain ⟨piece, pieces, cut⟩ := List.exists_cons_of_ne_nil
        (@cutOutside_ne_nil separator (depthBehind depth c) text)
      rw [cut] at later ⊢
      rw [List.modifyHead_cons, List.intercalate_cons_cons_left, later]

/-- If no separator is left in the pieces, then all of them were outside. -/
theorem cutOutside_eq_of_not_mem {separator : Char} {depth : Nat} {text : List Char}
    (none : ∀ piece ∈ cutOutside separator depth text, separator ∉ piece) :
    cutOutside separator depth text = cutBy (· == separator) text := by
  have again := List.splitOn_intercalate separator none cutOutside_ne_nil
  rw [intercalate_cutOutside] at again
  rw [cutBy_eq_splitOn, again]

/-- If the pieces between all separators are unbroken, then all separators are outside. -/
theorem cutOutside_eq_of_unbroken {separator : Char} {text : List Char}
    (separates : separator ≠ '<' ∧ separator ≠ '>')
    (each : ∀ piece ∈ cutBy (· == separator) text, Unbroken separator 0 piece 0) :
    cutOutside separator 0 text = cutBy (· == separator) text := by
  have again := Unbroken.cutOutside_intercalate separates (cutBy_ne_nil _ text) each
  rw [cutBy_eq_splitOn, List.intercalate_splitOn] at again
  rw [cutBy_eq_splitOn, again]

/-- The characters of which a line of types is made. -/
def isLineChar (c : Char) : Bool :=
  isWordChar c || ['.', ',', ' ', '&', '<', '>', '?', '[', ']'].contains c

theorem isLineChar_of_isWordChar {c : Char} (word : isWordChar c = true) : isLineChar c = true := by
  simp [isLineChar, word]

/-- Words, dots and square brackets are neither angle brackets nor separators. -/
theorem apart_of_plain {c separator : Char} (divides : separator = ' ' ∨ separator = ',')
    (plain : isWordChar c = true ∨ c ∈ ['.', '[', ']']) : c ≠ '<' ∧ c ≠ '>' ∧ c ≠ separator := by
  have other : ∀ d ∈ ['<', '>', ' ', ','], c ≠ d := by
    rintro d member rfl
    have none : ['<', '>', ' ', ','].all (fun d => !isWordChar d && d ∉ ['.', '[', ']']) = true := by decide
    have strange := List.all_eq_true.mp none c member
    rcases plain with word | mark
    · simp [word] at strange
    · simp [mark] at strange
  refine ⟨other '<' (by simp), other '>' (by simp), ?_⟩
  rcases divides with rfl | rfl
  · exact other ' ' (by simp)
  · exact other ',' (by simp)

theorem Unbroken.of_word {separator : Char} (divides : separator = ' ' ∨ separator = ',')
    {text : List Char} (plain : ∀ c ∈ text, isWordChar c = true ∨ c ∈ ['.', '[', ']']) (depth : Nat) :
    Unbroken separator depth text depth := by
  refine .of_plain fun c member => ?_
  obtain ⟨left, right, other⟩ := apart_of_plain divides (plain c member)
  exact ⟨left, right, fun same => absurd same other⟩

theorem Unbroken.inside {separator : Char} {depth : Nat} {text : List Char} (deep : 0 < depth)
    (none : ∀ c ∈ text, c ≠ '<' ∧ c ≠ '>') : Unbroken separator depth text depth :=
  .of_plain fun c member => ⟨(none c member).1, (none c member).2, fun _ => deep⟩

theorem of_mem_intercalate {α : Type} {mark : List α} {lists : List (List α)} {a : α}
    (member : a ∈ mark.intercalate lists) : a ∈ mark ∨ ∃ list ∈ lists, a ∈ list := by
  induction lists with
  | nil => simp at member
  | cons list lists ih =>
    cases lists with
    | nil => exact .inr ⟨list, by simp, by simpa using member⟩
    | cons next lists =>
      rw [List.intercalate_cons_of_ne_nil (by simp), List.mem_append, List.mem_append] at member
      rcases member with (own | between) | later
      · exact .inr ⟨list, by simp, own⟩
      · exact .inl between
      · rcases ih later with between | ⟨other, listed, inside⟩
        · exact .inl between
        · exact .inr ⟨other, List.mem_cons_of_mem _ listed, inside⟩

theorem isLineChar_of_mem_intercalate {mark : String} {texts : List String}
    (joint : ∀ c ∈ mark.toList, isLineChar c = true)
    (each : ∀ text ∈ texts, ∀ c ∈ text.toList, isLineChar c = true) :
    ∀ c ∈ (mark.intercalate texts).toList, isLineChar c = true := by
  intro c member
  rw [String.toList_intercalate] at member
  rcases of_mem_intercalate member with between | ⟨list, listed, inside⟩
  · exact joint c between
  · obtain ⟨text, among, rfl⟩ := List.mem_map.mp listed
    exact each text among c inside

end Text

namespace Ty

variable {scope : TypeScope} {asArgument : Bool} {ty : Ty}

/-- A written type has a comma or a space only inside its brackets, and closes what it opens. -/
theorem unbroken_render {separator : Char} (divides : separator = ' ' ∨ separator = ',') {depth : Nat}
    (spellable : ty.Spellable scope asArgument) (deep : asArgument = true → 0 < depth) :
    Text.Unbroken separator depth ty.render.toList depth := by
  induction ty generalizing asArgument depth with
  | void => cases spellable.placed
  | prim p =>
    refine .of_word divides (fun c member => .inl ?_) depth
    exact List.all_eq_true.mp (by cases p <;> decide) c member
  | cls name args ih =>
    obtain ⟨nameable, each⟩ := spellable_cls.mp spellable
    have front : Text.Unbroken separator depth name.text.toList depth := by
      refine .of_word divides (fun c member => ?_) depth
      rcases QualName.valid_chars nameable.valid c member with rfl | word
      · exact .inr (by simp)
      · exact .inl word
    by_cases empty : args = []
    · simpa [render, empty] using front
    · have inside : Text.Unbroken separator (depth + 1) (", ".intercalate (args.map render)).toList
          (depth + 1) := by
        rw [String.toList_intercalate]
        refine .intercalate (.inside (by omega) (by simp)) fun text member => ?_
        simp only [List.map_map, List.mem_map] at member
        obtain ⟨arg, listed, rfl⟩ := member
        exact ih arg listed (each arg listed) fun _ => by omega
      rw [render, renderAll_eq_map, if_neg (by simpa using empty)]
      simpa using front.append inside.bracketed
  | var word =>
    have chars := (spellable.readable word (by simp [vars])).chars
    exact .of_word divides (fun c member => .inl (chars c member)) depth
  | array element ih =>
    rw [render, String.toList_append]
    exact (ih (spellable_array.mp spellable) (by simp)).append (.of_word divides (by simp) depth)
  | any => exact .inside (deep spellable.placed) (by simp [render])
  | upper bound ih =>
    obtain ⟨rfl, _, inner⟩ := spellable_upper.mp spellable
    rw [render, String.toList_append]
    exact (Text.Unbroken.inside (deep rfl) (by simp)).append (ih inner (by simp))
  | lower bound ih =>
    obtain ⟨rfl, _, inner⟩ := spellable_lower.mp spellable
    rw [render, String.toList_append]
    exact (Text.Unbroken.inside (deep rfl) (by simp)).append (ih inner (by simp))

/-- Variables are words and class names are valid. -/
structure Worded (ty : Ty) : Prop where
  words : ∀ v ∈ ty.vars, ∀ c ∈ v.toList, Text.isWordChar c = true
  classes : ∀ name ∈ ty.classNames, name.valid = true

theorem Spellable.worded (spellable : ty.Spellable scope asArgument) : ty.Worded where
  words v occurs := (spellable.readable v occurs).chars
  classes name occurs := (spellable.classes name occurs).valid

theorem Proper.worded {names : List String} (proper : ty.Proper names)
    (identifiers : ∀ name ∈ names, isIdentifier name = true) : ty.Worded where
  words v occurs := isIdentifier_chars (identifiers v (proper.declared v occurs))
  classes := proper.named

theorem Proper.render_chars {names : List String} (proper : ty.Proper names)
    (words : ∀ v ∈ names, ∀ c ∈ v.toList, Text.isWordChar c = true) :
    ∀ c ∈ ty.render.toList, Text.isLineChar c = true := by
  induction ty with
  | void => exact List.all_eq_true.mp (by decide)
  | prim p => exact List.all_eq_true.mp (by cases p <;> decide)
  | cls name args ih =>
    obtain ⟨valid, each⟩ := proper_cls.mp proper
    have front : ∀ c ∈ name.text.toList, Text.isLineChar c = true := by
      intro c member
      rcases QualName.valid_chars valid c member with rfl | word
      · decide
      · exact Text.isLineChar_of_isWordChar word
    have inside : ∀ c ∈ (", ".intercalate (args.map render)).toList, Text.isLineChar c = true := by
      refine Text.isLineChar_of_mem_intercalate (List.all_eq_true.mp (by decide)) fun text listed => ?_
      obtain ⟨arg, among, rfl⟩ := List.mem_map.mp listed
      exact ih arg among (each arg among)
    rw [render, renderAll_eq_map]
    split
    · exact front
    · simp only [String.toList_append, List.forall_mem_append]
      exact ⟨⟨⟨front, List.all_eq_true.mp (by decide)⟩, inside⟩, List.all_eq_true.mp (by decide)⟩
  | var word =>
    intro c member
    exact Text.isLineChar_of_isWordChar (words word (proper.declared word (by simp [vars])) c member)
  | array element ih =>
    rw [render, String.toList_append, List.forall_mem_append]
    exact ⟨ih (proper_array.mp proper), List.all_eq_true.mp (by decide)⟩
  | any => exact List.all_eq_true.mp (by decide)
  | upper bound ih =>
    rw [render, String.toList_append, List.forall_mem_append]
    exact ⟨List.all_eq_true.mp (by decide), ih (proper_upper.mp proper)⟩
  | lower bound ih =>
    rw [render, String.toList_append, List.forall_mem_append]
    exact ⟨List.all_eq_true.mp (by decide), ih (proper_lower.mp proper)⟩

/-- A type of words is written with characters of lines. -/
theorem Worded.render_chars (worded : ty.Worded) : ∀ c ∈ ty.render.toList, Text.isLineChar c = true :=
  Proper.render_chars ⟨fun _ occurs => occurs, worded.classes⟩ worded.words

end Ty

/-- A text without a blank at its ends and without a dot behind. -/
structure Text.Firm (text : List Char) : Prop extends Text.Tight text where
  closed : text.getLast? ≠ some '.'

theorem Text.Tight.of_all {text : List Char} (nonempty : text ≠ [])
    (filled : text.all (fun c => !isBlank c) = true) : Tight text :=
  .of_filled nonempty (by simpa using filled)

theorem Text.Tight.append {front back : List Char} (first : Tight front) (middle : List Char)
    (last : Tight back) :
    Tight (front ++ middle ++ back) where
  nonempty := by simp [first.nonempty]
  first c member := by
    rw [List.append_assoc, List.head?_append_of_ne_nil _ first.nonempty] at member
    exact first.first c member
  last c member := by
    rw [List.getLast?_append_of_ne_nil _ last.nonempty] at member
    exact last.last c member

theorem Text.Firm.append {front back : List Char} (first : Tight front) (middle : List Char)
    (last : Firm back) :
    Firm (front ++ middle ++ back) where
  toTight := first.append middle last.toTight
  closed := by
    rw [List.getLast?_append_of_ne_nil _ last.nonempty]
    exact last.closed

theorem Text.Firm.of_word {word : List Char} (nonempty : word ≠ [])
    (chars : ∀ c ∈ word, isWordChar c = true) : Firm word where
  toTight := .of_filled nonempty fun c member => not_isBlank_of_isWordChar (chars c member)
  closed last := by
    have dot := chars '.' (List.mem_of_getLast? last)
    exact absurd dot (by decide)

theorem QualName.firm_text {name : QualName} (valid : name.valid = true) : Text.Firm name.text.toList where
  toTight := by
    refine .of_filled (fun empty => ?_) fun c member => ?_
    · rw [String.toList_eq_nil_iff] at empty
      have none : name = ⟨""⟩ := by rw [← empty]
      rw [none] at valid
      exact absurd valid (by decide +kernel)
    · rcases valid_chars valid c member with rfl | word
      · decide
      · exact Text.not_isBlank_of_isWordChar word
  closed last := by
    -- Behind a dot at the end the last segment would be empty.
    obtain ⟨front, text⟩ := List.getLast?_eq_some_iff.mp last
    have dotted : name.text = String.ofList front ++ "." ++ "" := by
      rw [← String.toList_inj, text]
      simp
    have empty : "" ∈ name.segments := by
      rw [segments, dotted, Text.pieces_append rfl]
      exact List.mem_append_right _ (by decide)
    exact absurd (valid_iff.mp valid "" empty) (by decide +kernel)

theorem Text.trim_append {lead text : String} (blank : ∀ c ∈ lead.toList, isBlank c = true)
    (tight : Tight text.toList) : trim (lead ++ text) = text := by
  have trimmed := @Tight.trimChars_eq lead.toList text.toList [] tight blank (by simp)
  rw [trim, String.toList_append, ← List.append_nil (lead.toList ++ _), trimmed, String.ofList_toList]

theorem Text.Tight.trim_eq {text : String} (tight : Tight text.toList) : trim text = text := by
  have same := @Text.trim_append "" text (by simp) tight
  rwa [String.empty_append] at same

theorem Text.afterLead?_append (lead text : String) : afterLead? lead (lead ++ text) = some text := by
  have split : lead.toList.isPrefixOf? (lead.toList ++ text.toList) = some text.toList :=
    List.isPrefixOf?_eq_some_iff_append_eq.mpr rfl
  simp [afterLead?, split]

theorem Text.beforeTail?_append (text tail : String) : beforeTail? tail (text ++ tail) = some text := by
  have split : tail.toList.isSuffixOf? (text.toList ++ tail.toList) = some text.toList :=
    List.isSuffixOf?_eq_some_iff_append_eq.mpr rfl
  simp [beforeTail?, split]

theorem Text.Firm.beforeTail?_dots {text : String} (firm : Firm text.toList) :
    beforeTail? "..." text = none := by
  cases found : "...".toList.isSuffixOf? text.toList with
  | none => rw [beforeTail?, found, Option.map_none]
  | some front =>
    have whole := List.isSuffixOf?_eq_some_iff_append_eq.mp found
    refine absurd ?_ firm.closed
    rw [← whole]
    simp

namespace Ty

variable {scope : TypeScope} {ty : Ty} {lead : String}

theorem firm_render (spellable : ty.Spellable scope false) : Text.Firm ty.render.toList := by
  induction ty with
  | void => cases spellable.placed
  | prim p => exact .of_word (by cases p <;> decide) (List.all_eq_true.mp (by cases p <;> decide))
  | cls name args =>
    obtain ⟨nameable, _⟩ := spellable_cls.mp spellable
    have front := QualName.firm_text nameable.valid
    rw [render]
    split
    · exact front
    · have closing : Text.Firm ">".toList := ⟨.of_all (by decide) (by decide), by decide⟩
      rw [String.toList_append, String.append_assoc, String.toList_append]
      exact .append front.toTight _ closing
  | var word =>
    have readable := spellable.readable word (by simp [vars])
    exact .of_word (String.toList_eq_nil_iff.not.mpr readable.nonempty) readable.chars
  | array element ih =>
    have closing : Text.Firm "[]".toList := ⟨.of_all (by decide) (by decide), by decide⟩
    have whole := Text.Firm.append (ih (spellable_array.mp spellable)).toTight [] closing
    simpa [render] using whole
  | any => cases spellable.placed
  | upper bound => cases spellable.placed
  | lower bound => cases spellable.placed

/-- Blanks around a type change nothing. -/
theorem parse_between {before after text : String} (left : ∀ c ∈ before.toList, Text.isBlank c = true)
    (right : ∀ c ∈ after.toList, Text.isBlank c = true) :
    parse scope (before ++ text ++ after) = .ok ty ↔ parse scope text = .ok ty := by
  obtain ⟨tokens, tokenized⟩ := Tokenized.exists_tokens text.toList
  have spaced : Tokenized (before ++ text ++ after).toList tokens := by
    rw [String.toList_append, String.toList_append]
    exact tokenized.between left right
  rw [parse_ok_iff tokenized, parse_ok_iff spaced]

theorem parse_cons {c : Char} {text : String} (blank : Text.isBlank c = true) :
    parse scope (String.ofList [c] ++ text) = .ok ty ↔ parse scope text = .ok ty := by
  have between := @parse_between scope ty (String.ofList [c]) "" text (by simpa using blank) (by simp)
  rwa [String.append_empty] at between

theorem parseParameter_render (blank : ∀ c ∈ lead.toList, Text.isBlank c = true)
    (spellable : ty.Spellable scope false) : parseParameter scope (lead ++ ty.render) = .ok (ty, false) := by
  have firm := firm_render spellable
  unfold parseParameter
  simp only [Text.trim_append blank firm.toTight, firm.beforeTail?_dots, (parseValue_render spellable).1]
  rfl

theorem parseParameter_dots (blank : ∀ c ∈ lead.toList, Text.isBlank c = true)
    (spellable : ty.Spellable scope false) :
    parseParameter scope (lead ++ (ty.render ++ "...")) = .ok (.array ty, true) := by
  have dots : Text.Tight "...".toList := .of_all (by decide) (by decide)
  have tight : Text.Tight (ty.render ++ "...").toList := by
    simpa using (firm_render spellable).toTight.append [] dots
  unfold parseParameter
  simp only [Text.trim_append blank tight, Text.beforeTail?_append, (parseValue_render spellable).1]
  rfl

end Ty

end JavaStubs
