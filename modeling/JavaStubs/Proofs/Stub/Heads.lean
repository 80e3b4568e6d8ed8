import JavaStubs.Proofs.Stub.Emission
import JavaStubs.Proofs.Types.Brackets

namespace JavaStubs

namespace Text

/-- What stands before and behind the first occurrence of a mark. -/
def cutAt (mark : Char) (text : String) : String × String :=
  (String.ofList (text.toList.takeWhile (· != mark)),
    String.ofList (text.toList.dropWhile (· != mark)).tail)

theorem cutAt_append {mark : Char} {sign front : String} (single : sign.toList = [mark])
    (plain : mark ∉ front.toList) (rest : String) : cutAt mark (front ++ sign ++ rest) = (front, rest) := by
  have before : ∀ c ∈ front.toList, (c != mark) = true := fun c member =>
    bne_iff_ne.mpr fun same => plain (same ▸ member)
  simp only [cutAt, String.toList_append, single, List.append_assoc, List.singleton_append,
    List.takeWhile_append_of_pos before, List.dropWhile_append_of_pos before]
  simp

/-- A line that is closed by a line feed alone is the first of the lines. -/
theorem lines_cons {line : String} (plain : '\n' ∉ line.toList) (closed : line.toList.getLast? ≠ some '\r')
    (rest : String) : lines (line ++ "\n" ++ rest) = line :: lines rest := by
  have alone : cutBy (· == '\n') line.toList = [line.toList] :=
    cutBy_of_plain fun c member => beq_false_of_ne fun same => plain (same ▸ member)
  have kept : dropReturn line.toList = line.toList := by
    unfold dropReturn
    split
    · rename_i front reversed
      refine absurd ?_ closed
      rw [← List.reverse_reverse line.toList, reversed]
      simp
    · rfl
  obtain ⟨next, others, cut⟩ := List.exists_cons_of_ne_nil (cutBy_ne_nil (· == '\n') rest.toList)
  have whole : cutBy (· == '\n') (line ++ "\n" ++ rest).toList = line.toList :: next :: others := by
    rw [String.toList_append, String.toList_append, List.append_assoc]
    change cutBy _ (line.toList ++ '\n' :: rest.toList) = _
    rw [cutBy_append (by decide), alone, cut, List.singleton_append]
  rw [lines, lines, whole, cut, closeLines, kept, List.map_cons, String.ofList_toList]

end Text

namespace Stub

/-- What a head says, still as text. -/
structure HeadText where
  result : String
  name : String
  parameters : List String
  throwing : List String
  deriving DecidableEq, Repr

/-- The pieces of a list at the commas outside angle brackets; an empty text has none. -/
def listPieces (text : String) : List String :=
  if text = "" then [] else (Text.cutOutside ',' 0 text.toList).map String.ofList

/-- The result type and the name, which stand behind the type parameters. -/
def readFront (text : String) : Option (String × String) :=
  match Text.cutOutside ' ' 0 text.toList with
  | [result, name] => some (String.ofList result, String.ofList name)
  | ['<' :: _, result, name] => some (String.ofList result, String.ofList name)
  | _ => none

def readThrows (text : String) : Option (List String) :=
  if text = "" then some [] else (Text.afterLead? " throws " text).map listPieces

/-- Takes a line apart that opens a method of this access. -/
def readHead (access : Access) (line : String) : Option HeadText := do
  let head ← Text.beforeTail? " \x7b" (← Text.afterLead? (indent ++ accessText access) line)
  let (front, behind) := Text.cutAt '(' head
  let (inside, after) := Text.cutAt ')' behind
  let (result, name) ← readFront front
  let throwing ← readThrows after
  return { result, name, parameters := listPieces inside, throwing }

/-- Pieces of a list with the spaces that stand behind its commas. -/
def spaced : List String → List String
  | [] => []
  | first :: rest => first :: rest.map (" " ++ ·)

theorem length_spaced (texts : List String) : (spaced texts).length = texts.length := by
  cases texts <;> simp [spaced]

theorem getElem?_spaced (texts : List String) (i : Nat) :
    (spaced texts)[i]? = texts[i]?.map ((if i = 0 then "" else " ") ++ ·) := by
  cases texts with
  | nil => rfl
  | cons first rest =>
    cases i with
    | zero => simp [spaced]
    | succ i => simp [spaced]

/-- The space behind a comma is the first character of the next piece. -/
theorem intercalate_spaced (texts : List String) :
    ", ".intercalate texts = ",".intercalate (spaced texts) := by
  cases texts with
  | nil => rfl
  | cons first rest =>
    rw [spaced]
    induction rest generalizing first with
    | nil => simp
    | cons next rest ih =>
      have lead : " " ++ ",".intercalate (next :: rest.map (" " ++ ·)) =
          ",".intercalate ((" " ++ next) :: rest.map (" " ++ ·)) := by simp
      calc ", ".intercalate (first :: next :: rest)
          = first ++ ", " ++ ", ".intercalate (next :: rest) := String.intercalate_cons_of_ne_nil (by simp)
        _ = first ++ "," ++ (" " ++ ",".intercalate (next :: rest.map (" " ++ ·))) := by
          rw [ih next]
          simp [← String.toList_inj]
        _ = ",".intercalate (first :: (" " ++ next) :: rest.map (" " ++ ·)) := by
          rw [lead]
          exact (String.intercalate_cons_of_ne_nil (by simp)).symm

theorem listPieces_intercalate {texts : List String} (nonempty : ∀ text ∈ texts, text ≠ "")
    (unbroken : ∀ text ∈ texts, Text.Unbroken ',' 0 text.toList 0) :
    listPieces (", ".intercalate texts) = spaced texts := by
  cases texts with
  | nil => rfl
  | cons first rest =>
    obtain ⟨own, others⟩ := List.forall_mem_cons.mp unbroken
    have each : ∀ piece ∈ (spaced (first :: rest)).map String.toList, Text.Unbroken ',' 0 piece 0 := by
      simp only [spaced, List.map_cons, List.map_map, List.forall_mem_cons, List.forall_mem_map]
      refine ⟨own, fun text listed => ?_⟩
      have space : Text.Unbroken ',' 0 [' '] 0 := .plain (by decide) (by decide) .nil
      simpa using space.append (others text listed)
    have some : ", ".intercalate (first :: rest) ≠ "" := by
      cases rest with
      | nil => simpa using nonempty first (by simp)
      | cons next rest => simp [String.intercalate_cons_of_ne_nil]
    rw [listPieces, if_neg some, intercalate_spaced, String.toList_intercalate]
    change (Text.cutOutside ',' 0 ([','].intercalate _)).map String.ofList = _
    rw [Text.Unbroken.cutOutside_intercalate (by decide) (by simp [spaced]) each]
    simp [Function.comp_def]

/-- How a parameter is written that may be the last of variable arity. -/
def parameterTypeText (varying : Bool) (ty : Ty) : String :=
  if varying then variableArityText ty else ty.render

theorem getElem?_parameterTypeTexts (types : List Ty) (varargs : Bool) (i : Nat) :
    (parameterTypeTexts types varargs)[i]? =
      types[i]?.map (parameterTypeText (varargs && i + 1 == types.length)) := by
  cases varargs with
  | false =>
    have plain : parameterTypeText false = Ty.render := rfl
    simp [parameterTypeTexts, plain]
  | true =>
    rcases List.eq_nil_or_concat' types with rfl | ⟨front, last, rfl⟩
    · rfl
    · have texts : parameterTypeTexts (front ++ [last]) true =
          front.map Ty.render ++ [variableArityText last] := by simp [parameterTypeTexts]
      rw [texts]
      rcases Nat.lt_trichotomy i front.length with early | rfl | late
      · have inner : i ≠ front.length := by omega
        simp [List.getElem?_append_left, early, inner, parameterTypeText]
      · simp [parameterTypeText]
      · rw [List.getElem?_eq_none (by simpa using late), List.getElem?_eq_none (by simpa using late),
          Option.map_none]

theorem getElem?_parameterTexts (types : List Ty) (varargs : Bool) (i : Nat) :
    ((parameterTypeTexts types varargs).zipIdx.map parameterText)[i]? = types[i]?.map fun ty =>
      parameterTypeText (varargs && i + 1 == types.length) ty ++ " " ++ argumentName i := by
  rw [List.getElem?_map, List.getElem?_zipIdx, getElem?_parameterTypeTexts, Option.map_map, Option.map_map]
  simp [Function.comp_def, parameterText]

variable {scope : TypeScope} {o : MethodObligation}

/-- The names that types below `root` are read with in the head of a method. -/
def memberScope (root : TypeModel) (m : Method) : TypeScope :=
  ((TypeScope.ofType root.name).withVariables (root.typeParameters.map TypeParameter.name)).withVariables
    m.declaredNames

/-- A head whose types can be written in a scope; only the result may be `void`. -/
structure Writable (scope : TypeScope) (o : MethodObligation) : Prop where
  result : o.result.Expressible scope
  bounds : ∀ p ∈ o.method.typeParameters, ∀ bound ∈ p.bounds, bound.Spellable scope false
  parameters : ∀ ty ∈ o.method.parameters, ty.Spellable scope false
  throwing : ∀ ty ∈ o.throwing, ty.Spellable scope false

/-- A head of types that are made of words. -/
structure Worded (o : MethodObligation) : Prop where
  result : o.result.Worded
  bounds : ∀ p ∈ o.method.typeParameters, ∀ bound ∈ p.bounds, bound.Worded
  parameters : ∀ ty ∈ o.method.parameters, ty.Worded
  throwing : ∀ ty ∈ o.throwing, ty.Worded

theorem Writable.worded (writable : Writable scope o) : Worded o where
  result := by
    rcases writable.result with void | spellable
    · rw [void]
      exact ⟨by simp [Ty.vars], by simp [Ty.classNames]⟩
    · exact spellable.worded
  bounds p listed bound among := (writable.bounds p listed bound among).worded
  parameters ty listed := (writable.parameters ty listed).worded
  throwing ty listed := (writable.throwing ty listed).worded

/-- A text that stays in one piece. -/
def Piece (separator : Char) (depth : Nat) (text : String) : Prop :=
  Text.Unbroken separator depth text.toList depth

namespace Piece

variable {separator : Char} {depth : Nat} {text later : String}

theorem append (first : Piece separator depth text) (second : Piece separator depth later) :
    Piece separator depth (text ++ later) := by
  rw [Piece, String.toList_append]
  exact Text.Unbroken.append first second

theorem intercalate {texts : List String} (joint : Piece separator depth text)
    (each : ∀ piece ∈ texts, Piece separator depth piece) :
    Piece separator depth (text.intercalate texts) := by
  rw [Piece, String.toList_intercalate]
  refine .intercalate joint fun list member => ?_
  obtain ⟨piece, listed, rfl⟩ := List.mem_map.mp member
  exact each piece listed

theorem of_word (divides : separator = ' ' ∨ separator = ',')
    (chars : ∀ c ∈ text.toList, Text.isWordChar c = true) (depth : Nat) : Piece separator depth text :=
  Text.Unbroken.of_word divides (fun c member => .inl (chars c member)) depth

theorem of_type {ty : Ty} (divides : separator = ' ' ∨ separator = ',')
    (spellable : ty.Spellable scope false) (depth : Nat) : Piece separator depth ty.render :=
  Ty.unbroken_render divides spellable (by simp)

/-- Without brackets the separator alone may not stand outside them. -/
theorem of_plain (plain : (text.toList.all fun c => c != '<' && c != '>' && c != separator) = true) :
    Piece separator depth text := by
  simp only [List.all_eq_true, Bool.and_eq_true, bne_iff_ne] at plain
  refine Text.Unbroken.of_plain fun c member => ?_
  obtain ⟨⟨left, right⟩, other⟩ := plain c member
  exact ⟨left, right, fun same => absurd same other⟩

/-- Inside brackets anything may stand that is no bracket. -/
theorem inside (deep : 0 < depth) (plain : (text.toList.all fun c => c != '<' && c != '>') = true) :
    Piece separator depth text := by
  simp only [List.all_eq_true, Bool.and_eq_true, bne_iff_ne] at plain
  exact Text.Unbroken.inside deep plain

end Piece

theorem piece_typeParameters {parameters : List TypeParameter}
    (identifiers : ∀ p ∈ parameters, isIdentifier p.name = true)
    (bounds : ∀ p ∈ parameters, ∀ bound ∈ p.bounds, bound.Spellable scope false) :
    Piece ' ' 1 (", ".intercalate (parameters.map TypeParameter.render)) := by
  refine .intercalate (.inside (by decide) (by decide)) fun text member => ?_
  obtain ⟨p, listed, rfl⟩ := List.mem_map.mp member
  have name : Piece ' ' 1 p.name := .of_word (.inl rfl) (isIdentifier_chars (identifiers p listed)) 1
  have clause : Piece ' ' 1 (" & ".intercalate (p.bounds.map Ty.render)) := by
    refine .intercalate (.inside (by decide) (by decide)) fun text inner => ?_
    obtain ⟨bound, among, rfl⟩ := List.mem_map.mp inner
    exact .of_type (.inl rfl) (bounds p listed bound among) 1
  unfold TypeParameter.render
  split
  · exact name
  · exact (name.append (.inside (by decide) (by decide))).append clause

theorem piece_result (result : o.result.Expressible scope) : Piece ' ' 0 o.result.render := by
  rcases result with void | spellable
  · rw [void]
    exact .of_plain (by decide)
  · exact .of_type (.inl rfl) spellable 0

/-- The part of a head behind its access modifier and before its parameters. -/
def frontText (o : MethodObligation) : String :=
  methodParametersText o.method.typeParameters ++ o.result.render ++ " " ++ o.method.name

/-- The front is read as the result type and the name. -/
theorem readFront_frontText (checked : Checked o.method) (writable : Writable scope o) :
    readFront (frontText o) = some (o.result.render, o.method.name) := by
  have result : Text.Unbroken ' ' 0 _ 0 := piece_result writable.result
  have name : Text.Unbroken ' ' 0 o.method.name.toList 0 :=
    Piece.of_word (.inl rfl) (isIdentifier_chars checked.named) 0
  have words : Text.cutOutside ' ' 0 (o.result.render.toList ++ ' ' :: o.method.name.toList) =
      [o.result.render.toList, o.method.name.toList] := by
    rw [result.cutOutside_cons (by decide), name.cutOutside_eq (by decide)]
  by_cases empty : o.method.typeParameters.isEmpty = true
  · have text : (frontText o).toList = o.result.render.toList ++ ' ' :: o.method.name.toList := by
      simp [frontText, methodParametersText, empty]
    rw [readFront, text, words]
    simp
  · have list := Text.Unbroken.bracketed (piece_typeParameters checked.declared writable.bounds)
    have text : (frontText o).toList =
        '<' :: ((", ".intercalate (o.method.typeParameters.map TypeParameter.render)).toList ++ ['>']) ++
          ' ' :: (o.result.render.toList ++ ' ' :: o.method.name.toList) := by
      simp [frontText, methodParametersText, typeParametersText, empty]
    rw [readFront, text, list.cutOutside_cons (by decide), words]
    simp

theorem isWordChar_of_mem_argumentName (i : Nat) :
    ∀ c ∈ (argumentName i).toList, Text.isWordChar c = true := by
  rw [argumentName, String.toList_append, List.forall_mem_append]
  exact ⟨List.all_eq_true.mp (by decide), fun c digit =>
    isWordChar_of_isDigit (isDigit_of_mem_toString digit)⟩

theorem piece_parameter {varying : Bool} {ty : Ty} (spellable : ty.Spellable scope false)
    (fits : varying = true → ty.isArray = true) (i : Nat) :
    Piece ',' 0 (parameterTypeText varying ty ++ " " ++ argumentName i) := by
  have argument : Piece ',' 0 (argumentName i) :=
    .of_word (.inr rfl) (isWordChar_of_mem_argumentName i) 0
  have type : Piece ',' 0 (parameterTypeText varying ty) := by
    cases varying with
    | false => exact .of_type (.inr rfl) spellable 0
    | true =>
      cases ty with
      | array element =>
        exact (Piece.of_type (.inr rfl) (Ty.spellable_array.mp spellable) 0).append (.of_plain (by decide))
      | _ => cases fits rfl
  exact (type.append (.of_plain (by decide))).append argument

/-- What stands before the name of a parameter is read as its type, with the mark of variable arity. -/
theorem parseParameter_text {varying : Bool} {ty : Ty} {lead : String}
    (blank : ∀ c ∈ lead.toList, Text.isBlank c = true) (spellable : ty.Spellable scope false)
    (fits : varying = true → ty.isArray = true) :
    Ty.parseParameter scope (lead ++ parameterTypeText varying ty) = .ok (ty, varying) := by
  cases varying with
  | false => exact Ty.parseParameter_render blank spellable
  | true =>
    cases ty with
    | array element => exact Ty.parseParameter_dots blank (Ty.spellable_array.mp spellable)
    | _ => cases fits rfl

/-- Only the last parameter can be of variable arity, and then it is an array. -/
theorem isArray_of_last {m : Method} (checked : Checked m) {i : Nat} {ty : Ty}
    (here : m.parameters[i]? = some ty) (varying : (m.varargs && i + 1 == m.arity) = true) :
    ty.isArray = true := by
  simp only [Bool.and_eq_true, beq_iff_eq, Method.arity] at varying
  refine checked.arity varying.1 ty ?_
  rw [List.getLast?_eq_getElem?, ← varying.2]
  exact here

/-- The texts of all parameters. -/
def parameterTexts (o : MethodObligation) : List String :=
  (parameterTypeTexts o.method.parameters o.method.varargs).zipIdx.map parameterText

theorem pieces_parameters (checked : Checked o.method) (writable : Writable scope o) :
    ∀ text ∈ parameterTexts o, Piece ',' 0 text ∧ text ≠ "" := by
  intro text member
  obtain ⟨i, here⟩ := List.mem_iff_getElem?.mp member
  rw [parameterTexts, getElem?_parameterTexts, Option.map_eq_some_iff] at here
  obtain ⟨ty, there, rfl⟩ := here
  have spellable := writable.parameters ty (List.mem_of_getElem? there)
  refine ⟨piece_parameter spellable (isArray_of_last checked there) i, ?_⟩
  intro none
  simpa [argumentName] using congrArg String.length none

theorem readThrows_eq {types : List Ty} (spellable : ∀ ty ∈ types, ty.Spellable scope false) :
    readThrows (throwsText types) = some (spaced (types.map Ty.render)) := by
  have nonempty : ∀ text ∈ types.map Ty.render, text ≠ "" := by
    intro text member
    obtain ⟨ty, listed, rfl⟩ := List.mem_map.mp member
    exact String.toList_eq_nil_iff.not.mp (Ty.firm_render (spellable ty listed)).nonempty
  have unbroken : ∀ text ∈ types.map Ty.render, Text.Unbroken ',' 0 text.toList 0 := by
    intro text member
    obtain ⟨ty, listed, rfl⟩ := List.mem_map.mp member
    exact Ty.unbroken_render (.inr rfl) (spellable ty listed) (by simp)
  unfold readThrows throwsText
  by_cases empty : types.isEmpty = true
  · rw [List.isEmpty_iff] at empty
    subst empty
    rfl
  · have some : " throws " ++ Ty.renderList types ≠ "" := by simp [← String.toList_inj]
    rw [if_neg empty, if_neg some, Text.afterLead?_append, Ty.renderList, Option.map_some,
      listPieces_intercalate nonempty unbroken]

theorem isLineChar_throwsText {types : List Ty} (worded : ∀ ty ∈ types, ty.Worded) :
    ∀ c ∈ (throwsText types).toList, Text.isLineChar c = true := by
  have list : ∀ c ∈ (Ty.renderList types).toList, Text.isLineChar c = true := by
    refine Text.isLineChar_of_mem_intercalate (List.all_eq_true.mp (by decide)) fun text member => ?_
    obtain ⟨ty, listed, rfl⟩ := List.mem_map.mp member
    exact (worded ty listed).render_chars
  unfold throwsText
  split
  · simp
  · rw [String.toList_append, List.forall_mem_append]
    exact ⟨List.all_eq_true.mp (by decide), list⟩

theorem isLineChar_typeParametersText {parameters : List TypeParameter}
    (identifiers : ∀ p ∈ parameters, isIdentifier p.name = true)
    (worded : ∀ p ∈ parameters, ∀ bound ∈ p.bounds, bound.Worded) :
    ∀ c ∈ (typeParametersText parameters).toList, Text.isLineChar c = true := by
  have list : ∀ c ∈ (", ".intercalate (parameters.map TypeParameter.render)).toList,
      Text.isLineChar c = true := by
    refine Text.isLineChar_of_mem_intercalate (List.all_eq_true.mp (by decide)) fun text member => ?_
    obtain ⟨p, listed, rfl⟩ := List.mem_map.mp member
    have name : ∀ c ∈ p.name.toList, Text.isLineChar c = true := fun c inside =>
      Text.isLineChar_of_isWordChar (isIdentifier_chars (identifiers p listed) c inside)
    have clause : ∀ c ∈ (" & ".intercalate (p.bounds.map Ty.render)).toList, Text.isLineChar c = true := by
      refine Text.isLineChar_of_mem_intercalate (List.all_eq_true.mp (by decide)) fun text inner => ?_
      obtain ⟨bound, among, rfl⟩ := List.mem_map.mp inner
      exact (worded p listed bound among).render_chars
    unfold TypeParameter.render
    split
    · exact name
    · simp only [String.toList_append, List.forall_mem_append]
      exact ⟨⟨name, List.all_eq_true.mp (by decide)⟩, clause⟩
  unfold typeParametersText
  split
  · simp
  · simp only [String.toList_append, List.forall_mem_append]
    exact ⟨⟨List.all_eq_true.mp (by decide), list⟩, List.all_eq_true.mp (by decide)⟩

theorem isLineChar_parametersText {types : List Ty} (worded : ∀ ty ∈ types, ty.Worded) (varargs : Bool) :
    ∀ c ∈ (parametersText types varargs).toList, Text.isLineChar c = true := by
  have written : ∀ varying, ∀ ty ∈ types, ∀ c ∈ (parameterTypeText varying ty).toList,
      Text.isLineChar c = true := by
    intro varying ty listed
    have own := (worded ty listed).render_chars
    cases varying with
    | false => exact own
    | true =>
      cases ty with
      | array element =>
        -- The dots stand where the brackets of the array would.
        rw [Ty.render, String.toList_append, List.forall_mem_append] at own
        simp only [parameterTypeText, variableArityText, if_true, String.toList_append,
          List.forall_mem_append]
        exact ⟨own.1, List.all_eq_true.mp (by decide)⟩
      | _ => exact own
  refine Text.isLineChar_of_mem_intercalate (List.all_eq_true.mp (by decide)) fun text member => ?_
  obtain ⟨i, here⟩ := List.mem_iff_getElem?.mp member
  rw [getElem?_parameterTexts, Option.map_eq_some_iff] at here
  obtain ⟨ty, there, rfl⟩ := here
  simp only [String.toList_append, List.forall_mem_append]
  exact ⟨⟨written _ ty (List.mem_of_getElem? there), List.all_eq_true.mp (by decide)⟩, fun c inside =>
    Text.isLineChar_of_isWordChar (isWordChar_of_mem_argumentName i c inside)⟩

theorem isLineChar_frontText (checked : Checked o.method) (worded : Worded o) :
    ∀ c ∈ (frontText o).toList, Text.isLineChar c = true := by
  have space : ∀ c ∈ " ".toList, Text.isLineChar c = true := by simp [Text.isLineChar]
  have parameters : ∀ c ∈ (methodParametersText o.method.typeParameters).toList,
      Text.isLineChar c = true := by
    have list := isLineChar_typeParametersText checked.declared worded.bounds
    unfold methodParametersText
    split
    · simp
    · simp only [String.toList_append, List.forall_mem_append]
      exact ⟨list, space⟩
  have name : ∀ c ∈ o.method.name.toList, Text.isLineChar c = true := fun c member =>
    Text.isLineChar_of_isWordChar (isIdentifier_chars checked.named c member)
  simp only [frontText, String.toList_append, List.forall_mem_append]
  exact ⟨⟨⟨parameters, worded.result.render_chars⟩, space⟩, name⟩

/-- The line that opens a method, without its line end. -/
def headLine (o : MethodObligation) : String := indent ++ methodHead o ++ " \x7b"

theorem headLine_eq (o : MethodObligation) : headLine o = indent ++ accessText o.access ++
    (frontText o ++ "(" ++
      (parametersText o.method.parameters o.method.varargs ++ ")" ++ throwsText o.throwing) ++ " \x7b") := by
  simp only [headLine, methodHead, frontText, String.append_assoc]

theorem not_mem_of_isLineChar {text : String} {mark : Char} (foreign : Text.isLineChar mark = false)
    (chars : ∀ c ∈ text.toList, Text.isLineChar c = true) : mark ∉ text.toList := by
  intro member
  rw [chars mark member] at foreign
  cases foreign

theorem plain_headLine (checked : Checked o.method) (worded : Worded o) : '\n' ∉ (headLine o).toList := by
  have foreign : Text.isLineChar '\n' = false := by decide
  have access : '\n' ∉ (accessText o.access).toList := by cases o.access <;> decide
  have front := not_mem_of_isLineChar foreign (isLineChar_frontText checked worded)
  have inside := not_mem_of_isLineChar foreign
    (isLineChar_parametersText worded.parameters o.method.varargs)
  have throws := not_mem_of_isLineChar foreign (isLineChar_throwsText worded.throwing)
  simp only [headLine_eq, String.toList_append, List.mem_append, not_or]
  refine ⟨⟨?_, access⟩, ⟨⟨front, ?_⟩, ⟨inside, ?_⟩, throws⟩, ?_⟩ <;> decide

/-- The parts in which a head is read. -/
theorem readHead_headLine (checked : Checked o.method) (writable : Writable scope o) :
    readHead o.access (headLine o) = some {
      result := o.result.render
      name := o.method.name
      parameters := spaced (parameterTexts o)
      throwing := spaced (o.throwing.map Ty.render) } := by
  have pieces := pieces_parameters checked writable
  have front := isLineChar_frontText checked writable.worded
  have inside := isLineChar_parametersText writable.worded.parameters o.method.varargs
  have opened := @Text.cutAt_append '(' "(" _ rfl (not_mem_of_isLineChar (by decide) front)
  have closed := @Text.cutAt_append ')' ")" _ rfl (not_mem_of_isLineChar (by decide) inside)
  have parameters : listPieces (parametersText o.method.parameters o.method.varargs) =
      spaced (parameterTexts o) :=
    listPieces_intercalate (fun text member => (pieces text member).2) fun text member =>
      (pieces text member).1
  rw [readHead, headLine_eq, Text.afterLead?_append]
  simp only [Option.bind_eq_bind, Option.bind_some, Text.beforeTail?_append, opened, closed,
    readFront_frontText checked writable, readThrows_eq writable.throwing, parameters]
  rfl

/-- The head stands on the second line of its member, behind the annotation. -/
theorem lines_memberText (checked : Checked o.method) (writable : Writable scope o) (simple : String)
    (body : Body) :
    (Text.lines (memberText simple (.method o, body)))[1]? = some (headLine o) := by
  have text : memberText simple (.method o, body) = (indent ++ "@Override") ++ "\n" ++
      (headLine o ++ "\n" ++ (bodyText body ++ indent ++ "\x7d\n")) := by
    simp [memberText, block, headLine, ← String.toList_inj]
  have plain := plain_headLine checked writable.worded
  have closed : (headLine o).toList.getLast? ≠ some '\r' := by
    simp [headLine]
  rw [text, Text.lines_cons (by decide) (by decide), Text.lines_cons plain closed]
  rfl

/-- The texts of a head are read as what the obligation asks for. -/
structure Denotes (scope : TypeScope) (head : HeadText) (o : MethodObligation) : Prop where
  result : Ty.parse scope head.result = .ok o.result
  name : head.name = o.method.name
  arity : head.parameters.length = o.method.arity
  /-- Before its name each parameter has its type, the last with the mark of variable arity. -/
  parameter : ∀ i ty, o.method.parameters[i]? = some ty → ∃ text,
    head.parameters[i]? = some (text ++ " " ++ argumentName i) ∧
      Ty.parseParameter scope text = .ok (ty, o.method.varargs && i + 1 == o.method.arity)
  throwing : head.throwing.mapM (Ty.parse scope) = .ok o.throwing

theorem parse_spaced {types : List Ty} (spellable : ∀ ty ∈ types, ty.Spellable scope false) :
    (spaced (types.map Ty.render)).mapM (Ty.parse scope) = .ok types := by
  have reads : ∀ ty ∈ types, Ty.parse scope ty.render = .ok ty := fun ty listed =>
    Ty.parse_of_expressible (.inr (spellable ty listed))
  rw [mapM_eq_ok_iff]
  cases types with
  | nil => exact .nil
  | cons first rest =>
    obtain ⟨own, others⟩ := List.forall_mem_cons.mp reads
    refine .cons own ?_
    rw [List.forall₂_map_left_iff, List.forall₂_map_left_iff, List.forall₂_same]
    exact fun ty listed => (Ty.parse_cons (by decide)).mpr (others ty listed)

theorem denotes_parts (checked : Checked o.method) (writable : Writable scope o) : Denotes scope {
      result := o.result.render
      name := o.method.name
      parameters := spaced (parameterTexts o)
      throwing := spaced (o.throwing.map Ty.render) } o where
  result := Ty.parse_of_expressible writable.result
  name := rfl
  arity := by
    have length : ∀ i, (parameterTexts o)[i]? = none ↔ o.method.parameters[i]? = none := fun i => by
      rw [parameterTexts, getElem?_parameterTexts, Option.map_eq_none_iff]
    simp only [List.getElem?_eq_none_iff] at length
    have least := (length (parameterTexts o).length).mp (Nat.le_refl _)
    have most := (length o.method.parameters.length).mpr (Nat.le_refl _)
    rw [length_spaced, Method.arity]
    omega
  parameter i ty here := by
    have blank : ∀ c ∈ (if i = 0 then "" else " ").toList, Text.isBlank c = true := by
      split
      · simp
      · exact List.all_eq_true.mp (by decide)
    refine ⟨_, ?_, parseParameter_text blank (writable.parameters ty (List.mem_of_getElem? here))
      (isArray_of_last checked here)⟩
    simp only [getElem?_spaced, parameterTexts, getElem?_parameterTexts, here, Option.map_some,
      String.append_assoc, Method.arity]
  throwing := parse_spaced writable.throwing

/-- What a method's head says, taken apart at its brackets, commas and spaces, is read as the
obligation that it was written for: the result type, the types of the parameters in order, of which the
last is marked if the method is of variable arity, and the exceptions. -/
theorem memberText_denotes {root : TypeModel} {o : MethodObligation} {body : Body}
    (checked : checkMethod o body = .ok ()) (writable : Writable (memberScope root o.method) o)
    (simple : String) :
    ∃ line head, (Text.lines (memberText simple (.method o, body)))[1]? = some line ∧
      readHead o.access line = some head ∧ Denotes (memberScope root o.method) head o := by
  have promised := checked_of_checkMethod checked
  exact ⟨_, _, lines_memberText promised writable simple body, readHead_headLine promised writable,
    denotes_parts promised writable⟩

namespace Crowded

def root : TypeModel where
  name := ⟨"p.Box"⟩
  kind := .abstractClass
  typeParameters := [{ name := "T" }]

def bound : Ty := .cls ⟨"java.lang.Comparable"⟩ [.lower (.var "S")]

def table : Ty := .cls ⟨"java.util.Map"⟩ [.var "T", .upper (.array (.cls ⟨"p.Box"⟩ [.any]))]

def obligation : MethodObligation where
  method := {
    name := "put"
    owner := ⟨"p.Box"⟩
    typeParameters := [{ name := "S", bounds := [bound] }]
    parameters := [table, .array (.array (.prim .int))]
    varargs := true }
  result := .array (.var "S")
  throwing := [.cls ⟨"java.io.IOException"⟩ [], .cls ⟨"p.Broken"⟩ []]
  access := .protectedAccess
  depth := 0

def body : Body := (Obligation.method obligation).body

def names : TypeScope := memberScope root obligation.method

theorem checked : checkMethod obligation body = .ok () := by decide +kernel

theorem spellable {ty : Ty} (read : Ty.parseValue names ty.render = .ok ty) : ty.Spellable names false :=
  Ty.parseValue_spellable (.inr (by decide +kernel)) read

theorem writable : Writable names obligation where
  result := .inr (spellable (by decide +kernel))
  bounds := by
    simp only [obligation, List.mem_singleton, forall_eq]
    exact spellable (by decide +kernel)
  parameters := by
    simp only [obligation, List.forall_mem_cons, List.not_mem_nil, false_imp_iff, implies_true, and_true]
    exact ⟨spellable (by decide +kernel), spellable (by decide +kernel)⟩
  throwing := by
    simp only [obligation, List.forall_mem_cons, List.not_mem_nil, false_imp_iff, implies_true, and_true]
    exact ⟨spellable (by decide +kernel), spellable (by decide +kernel)⟩

end Crowded

theorem crowded_denotes : checkMethod Crowded.obligation Crowded.body = .ok () ∧
    Writable (memberScope Crowded.root Crowded.obligation.method) Crowded.obligation ∧
    ∃ line head,
      (Text.lines (memberText "BoxImpl" (.method Crowded.obligation, Crowded.body)))[1]? = some line ∧
      readHead .protectedAccess line = some head ∧
      Denotes (memberScope Crowded.root Crowded.obligation.method) head Crowded.obligation :=
  ⟨Crowded.checked, Crowded.writable, memberText_denotes Crowded.checked Crowded.writable "BoxImpl"⟩

end Stub

end JavaStubs
