import JavaStubs.Ty.Basic
import JavaStubs.Ty.Erasure
import JavaStubs.Ty.Substitution
import JavaStubs.Proofs.Types.Substitution
import Mathlib.Tactic.Tauto

namespace JavaStubs

namespace Text

theorem cutBy_eq_splitOn (c : Char) (text : List Char) : cutBy (· == c) text = text.splitOn c := by
  induction text with
  | nil => rfl
  | cons first rest ih =>
    rw [cutBy, ih, List.splitOn_cons_eq_if_modifyHead]
    cases pieces : rest.splitOn c with
    | nil => exact absurd pieces (List.splitOn_ne_nil c rest)
    | cons piece more => rfl

/-- Words without the separator are the pieces of the text that joins them. -/
theorem pieces_intercalate {c : Char} {mark : String} (single : mark.toList = [c]) {words : List String}
    (nonempty : words ≠ []) (plain : ∀ word ∈ words, c ∉ word.toList) :
    pieces c (mark.intercalate words) = words := by
  rw [pieces, cutBy_eq_splitOn, String.toList_intercalate, single]
  rw [List.splitOn_intercalate c (by simpa using plain) (by simpa using nonempty), List.map_map]
  simp [Function.comp_def]

/-- A text is what its pieces are joined to. -/
theorem intercalate_pieces {c : Char} {mark : String} (single : mark.toList = [c]) (text : String) :
    mark.intercalate (pieces c text) = text := by
  rw [← String.toList_inj, String.toList_intercalate, pieces, cutBy_eq_splitOn, single]
  simp only [List.map_map, Function.comp_def, String.toList_ofList, List.map_id']
  exact List.intercalate_splitOn c

/-- Cutting loses the separators only. -/
theorem mem_cutBy {p : Char → Bool} {text : List Char} {c : Char} (member : c ∈ text) :
    p c = true ∨ ∃ piece ∈ cutBy p text, c ∈ piece := by
  induction text with
  | nil => simp at member
  | cons first rest ih =>
    by_cases separator : p first = true
    · rw [cutBy, if_pos separator]
      rcases List.mem_cons.mp member with rfl | later
      · exact Or.inl separator
      · rcases ih later with own | ⟨piece, inside, here⟩
        · exact Or.inl own
        · exact Or.inr ⟨piece, List.mem_cons_of_mem _ inside, here⟩
    · rw [cutBy, if_neg separator]
      cases pieces : cutBy p rest with
      | nil => exact absurd pieces (cutBy_ne_nil p rest)
      | cons piece more =>
        rcases List.mem_cons.mp member with rfl | later
        · exact Or.inr ⟨c :: piece, by simp, by simp⟩
        · rcases ih later with own | ⟨other, inside, here⟩
          · exact Or.inl own
          · rw [pieces] at inside
            rcases List.mem_cons.mp inside with rfl | behind
            · exact Or.inr ⟨first :: other, by simp, by simp [here]⟩
            · exact Or.inr ⟨other, List.mem_cons_of_mem _ behind, here⟩

end Text

theorem isIdentifier_chars {word : String} (identifier : isIdentifier word = true) :
    ∀ c ∈ word.toList, Text.isWordChar c = true := by
  unfold isIdentifier at identifier
  rw [Bool.and_eq_true] at identifier
  have chars := identifier.1
  intro c member
  cases text : word.toList with
  | nil => simp [text] at member
  | cons first rest =>
    simp only [text, isWord, Bool.and_eq_true, List.all_eq_true] at chars
    rw [text] at member
    rcases List.mem_cons.mp member with rfl | later
    · have start := chars.1
      simp only [Bool.or_eq_true] at start
      simp only [Text.isWordChar, Text.isAlphanumeric, Bool.or_eq_true]
      tauto
    · exact chars.2 c later

theorem isIdentifier_plain {word : String} (identifier : isIdentifier word = true) :
    '.' ∉ word.toList := by
  intro member
  have inWord := isIdentifier_chars identifier '.' member
  exact absurd inWord (by decide)

namespace QualName

theorem valid_iff {name : QualName} : name.valid = true ↔ ∀ word ∈ name.segments, isIdentifier word = true := by
  simp [valid]

theorem valid_intercalate {words : List String} (nonempty : words ≠ [])
    (identifiers : ∀ word ∈ words, isIdentifier word = true) :
    (⟨".".intercalate words⟩ : QualName).valid = true := by
  rw [valid_iff, segments, Text.pieces_intercalate rfl nonempty fun word member =>
    isIdentifier_plain (identifiers word member)]
  exact identifiers

theorem isIdentifier_simple {name : QualName} (valid : name.valid = true) :
    isIdentifier name.simple = true := by
  have nonempty : name.segments ≠ [] := Text.pieces_ne_nil '.' name.text
  rw [simple, List.getLast?_eq_some_getLast nonempty]
  exact valid_iff.mp valid _ (List.getLast_mem nonempty)

/-- A simple name beside another name is joined to segments of it. -/
theorem inPackage_package (name : QualName) (word : String) :
    ∃ outer, (∀ other ∈ outer, other ∈ name.segments) ∧
      inPackage name.package word = ⟨".".intercalate (outer ++ [word])⟩ := by
  unfold inPackage
  split
  · exact ⟨[], by simp, by simp⟩
  · rename_i packaged
    have nonempty : name.segments.dropLast ≠ [] := by
      intro empty
      simp [package, empty] at packaged
    refine ⟨name.segments.dropLast, fun other member => List.dropLast_subset _ member, ?_⟩
    rw [String.intercalate_append_of_ne_nil nonempty (by simp)]
    simp [package]

/-- A simple name beside a valid one is valid. -/
theorem valid_sibling {name : QualName} {word : String} (valid : name.valid = true)
    (identifier : isIdentifier word = true) : (inPackage name.package word).valid = true := by
  obtain ⟨outer, segments, joined⟩ := name.inPackage_package word
  rw [joined]
  refine valid_intercalate (by simp) fun other member => ?_
  rcases List.mem_append.mp member with early | last
  · exact valid_iff.mp valid other (segments other early)
  · simpa [List.mem_singleton.mp last] using identifier

theorem simple_sibling {name : QualName} {word : String} (valid : name.valid = true)
    (plain : '.' ∉ word.toList) : (name.sibling word).simple = word := by
  obtain ⟨outer, segments, joined⟩ := name.inPackage_package word
  have words : ∀ other ∈ outer ++ [word], '.' ∉ other.toList := by
    intro other member
    rcases List.mem_append.mp member with early | last
    · exact isIdentifier_plain (valid_iff.mp valid other (segments other early))
    · exact List.mem_singleton.mp last ▸ plain
  rw [sibling, joined, simple, QualName.segments, Text.pieces_intercalate rfl (by simp) words]
  simp

theorem valid_chars {name : QualName} (valid : name.valid = true) :
    ∀ c ∈ name.text.toList, c = '.' ∨ Text.isWordChar c = true := by
  intro c member
  rw [valid_iff, segments, Text.pieces] at valid
  rcases @Text.mem_cutBy (· == '.') _ _ member with separator | ⟨piece, inside, here⟩
  · exact Or.inl (by simpa using separator)
  · have identifier := valid (String.ofList piece) (List.mem_map_of_mem inside)
    exact Or.inr (isIdentifier_chars identifier c (by simpa using here))

theorem not_valid_primitive (p : Primitive) : (⟨p.name⟩ : QualName).valid = false := by
  cases p <;> decide +kernel

theorem not_valid_void : (⟨"void"⟩ : QualName).valid = false := by decide +kernel

end QualName

namespace Ty

/-- Types as erasure leaves them, with valid names. -/
def IsErased : Ty → Prop
  | .void | .prim _ => True
  | .cls name args => name.valid = true ∧ args = []
  | .array element => element.IsErased
  | _ => False

@[simp] theorem render_cls_nil (name : QualName) : (cls name []).render = name.text := by
  simp [render]

theorem primitive_name_injective {p q : Primitive} (same : p.name = q.name) : p = q := by
  have read := Primitive.ofName?_name p
  rw [same, Primitive.ofName?_name] at read
  exact (Option.some.inj read).symm

/-- Only arrays are written with a bracket at the end. -/
theorem render_no_bracket {ty : Ty} (erased : ty.IsErased) (simple : ∀ element, ty ≠ .array element) :
    ']' ∉ ty.render.toList := by
  cases ty with
  | void => decide
  | prim p => cases p <;> decide
  | cls name args =>
    obtain ⟨valid, rfl⟩ := erased
    intro member
    rw [render_cls_nil] at member
    rcases QualName.valid_chars valid ']' member with dot | word
    · exact absurd dot (by decide)
    · exact absurd word (by decide)
  | array element => exact absurd rfl (simple element)
  | _ => exact erased.elim

theorem render_array_ne {element ty : Ty} (erased : ty.IsErased)
    (simple : ∀ element, ty ≠ .array element) : (array element).render ≠ ty.render := by
  intro same
  have bracket : ']' ∈ (array element).render.toList := by simp [render]
  exact render_no_bracket erased simple (same ▸ bracket)

theorem render_cls_ne_prim {name : QualName} {p : Primitive} (valid : name.valid = true) :
    name.text ≠ p.name := by
  intro same
  have none := QualName.not_valid_primitive p
  rw [← same, valid] at none
  exact absurd none (by simp)

theorem render_cls_ne_void {name : QualName} (valid : name.valid = true) : name.text ≠ "void" := by
  intro same
  have none := QualName.not_valid_void
  rw [← same, valid] at none
  exact absurd none (by simp)

theorem render_prim_ne_void (p : Primitive) : p.name ≠ "void" := by
  cases p <;> decide

/-- Erased types are told apart by their written forms. -/
theorem render_injective {s t : Ty} (left : s.IsErased) (right : t.IsErased)
    (same : s.render = t.render) : s = t := by
  induction s generalizing t with
  | array element ih =>
    cases t with
    | array other =>
      simp only [render, String.append_left_inj] at same
      rw [ih (t := other) left right same]
    | _ => exact absurd same (render_array_ne right (by simp))
  | void =>
    cases t with
    | void => rfl
    | prim q => exact absurd same.symm (render_prim_ne_void q)
    | cls name args =>
      obtain ⟨valid, rfl⟩ := right
      rw [render_cls_nil] at same
      exact absurd same.symm (render_cls_ne_void valid)
    | array other => exact absurd same.symm (render_array_ne left (by simp))
    | _ => exact right.elim
  | prim p =>
    cases t with
    | void => exact absurd same (render_prim_ne_void p)
    | prim q => rw [primitive_name_injective same]
    | cls name args =>
      obtain ⟨valid, rfl⟩ := right
      rw [render_cls_nil] at same
      exact absurd same.symm (render_cls_ne_prim valid)
    | array other => exact absurd same.symm (render_array_ne left (by simp))
    | _ => exact right.elim
  | cls name args _ =>
    obtain ⟨valid, rfl⟩ := left
    cases t with
    | void => exact absurd (render_cls_nil name ▸ same) (render_cls_ne_void valid)
    | prim q => exact absurd (render_cls_nil name ▸ same) (render_cls_ne_prim valid)
    | cls other args =>
      obtain ⟨_, rfl⟩ := right
      rw [render_cls_nil, render_cls_nil] at same
      cases name
      cases other
      simpa using same
    | array other => exact absurd same.symm (render_array_ne ⟨valid, rfl⟩ (by simp))
    | _ => exact right.elim
  | _ => exact left.elim

theorem map_render_injective {left right : List Ty} (erasedLeft : ∀ ty ∈ left, ty.IsErased)
    (erasedRight : ∀ ty ∈ right, ty.IsErased) (same : left.map render = right.map render) :
    left = right := by
  induction left generalizing right with
  | nil => simpa [eq_comm] using same
  | cons s left ih =>
    cases right with
    | nil => simp at same
    | cons t right =>
      simp only [List.map_cons, List.cons.injEq] at same
      simp only [List.mem_cons, forall_eq_or_imp] at erasedLeft erasedRight
      rw [render_injective erasedLeft.1 erasedRight.1 same.1,
        ih erasedLeft.2 erasedRight.2 same.2]

end Ty

end JavaStubs
