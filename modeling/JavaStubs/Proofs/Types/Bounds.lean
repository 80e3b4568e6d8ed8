import JavaStubs.Proofs.Types.Brackets

namespace JavaStubs

/-- The symbols among tokens, without the words between them. -/
def Token.symbols (tokens : List Token) : List Char :=
  tokens.filterMap fun
    | .symbol c => some c
    | .word .. => none

namespace Token

variable {tokens later : List Token} {c : Char} {cs : List Char}

@[simp] theorem symbols_nil : symbols [] = [] := rfl

@[simp] theorem symbols_word : symbols (.word c cs :: tokens) = symbols tokens := rfl

@[simp] theorem symbols_symbol : symbols (.symbol c :: tokens) = c :: symbols tokens := rfl

@[simp] theorem symbols_append : symbols (tokens ++ later) = symbols tokens ++ symbols later :=
  List.filterMap_append

end Token

namespace Text

/-- Blanks and words have no bracket in them and no separator of bounds. -/
theorem ne_of_silent {c : Char} (silent : isBlank c = true ∨ isWordChar c = true) :
    c ≠ '<' ∧ c ≠ '>' ∧ c ≠ '&' := by
  refine ⟨?_, ?_, ?_⟩
  all_goals
    rintro rfl
    exact absurd silent (by decide)

/-- A text without separators of bounds that has angle brackets only in pairs. -/
inductive Nested : List Char → Prop
  | nil : Nested []
  | plain {c : Char} {text : List Char} (other : c ≠ '<' ∧ c ≠ '>' ∧ c ≠ '&') (rest : Nested text) :
      Nested (c :: text)
  | angles {inner text : List Char} (inside : Nested inner) (rest : Nested text) :
      Nested ('<' :: (inner ++ '>' :: text))

namespace Nested

variable {text later : List Char}

theorem append (first : Nested text) (second : Nested later) : Nested (text ++ later) := by
  induction first with
  | nil => exact second
  | plain other _ ih => exact .plain other ih
  | angles inside _ _ ih => simpa using Nested.angles inside ih

theorem not_mem (nested : Nested text) : '&' ∉ text := by
  induction nested with
  | nil => simp
  | plain other _ ih => simp [ih, other.2.2.symm]
  | angles _ _ inner ih => simp [inner, ih]

theorem unbroken (nested : Nested text) (depth : Nat) : Unbroken '&' depth text depth := by
  induction nested generalizing depth with
  | nil => exact .nil
  | plain other _ ih => exact .plain ⟨other.1, other.2.1⟩ (fun same => absurd same other.2.2) (ih depth)
  | angles _ _ inner ih => exact .opening ((inner (depth + 1)).append (.closing (ih depth)))

end Nested

/-- Pieces of a bound list with the separators behind them. -/
def passed (pieces : List (List Char)) : List Char :=
  pieces.flatMap (· ++ ['&'])

theorem passed_starts (read : List (List Char)) (piece : List Char) (later : List (List Char)) :
    passed read ++ piece <+: ['&'].intercalate (read ++ piece :: later) := by
  induction read with
  | nil => cases later <;> simp [passed]
  | cons first read ih =>
    rw [List.cons_append, List.intercalate_cons_of_ne_nil (by simp)]
    simpa [passed] using ih

end Text

theorem Dotted.nested {tokens : List Token} {words : List String} (dotted : Dotted tokens words) :
    Text.Nested (Token.symbols tokens) := by
  induction dotted with
  | last => exact .nil
  | more _ _ _ ih => exact .plain (by decide) ih

theorem Spells.nested {scope : TypeScope} {asArgument : Bool} {tokens : List Token} {ty : Ty}
    (spells : Spells scope asArgument tokens ty) : Text.Nested (Token.symbols tokens) := by
  induction spells with
  | prim => exact .nil
  | var => exact .nil
  | raw dotted => exact dotted.nested
  | @generic _ _ _ _ args dotted _ _ _ ih =>
    have inside : Text.Nested (Token.symbols ([.symbol ','].intercalate (args.map Prod.fst))) := by
      have joins : ∀ {front back : List Token}, Text.Nested (Token.symbols front) →
          Text.Nested (Token.symbols back) → Text.Nested (Token.symbols (front ++ back)) := by
        intro front back first second
        simpa using first.append second
      refine @Text.intercalate_induct _ (fun listed => Text.Nested (Token.symbols listed)) _ _ .nil joins
        (.plain (by decide) .nil) fun listed member => ?_
      obtain ⟨arg, among, rfl⟩ := List.mem_map.mp member
      exact ih arg among
    simpa using dotted.nested.append (.angles inside .nil)
  | array _ ih => simpa using ih.append (.plain (by decide) (.plain (by decide) .nil))
  | any => exact .plain (by decide) .nil
  | upper _ _ ih => exact .plain (by decide) ih
  | lower _ _ ih => exact .plain (by decide) ih

namespace Tokenized

variable {text : List Char} {tokens : List Token}

/-- A separator in a text is one of its symbols. -/
theorem not_mem (tokenized : Tokenized text tokens) (none : '&' ∉ Token.symbols tokens) : '&' ∉ text := by
  induction tokenized with
  | nil => simp
  | blank blank _ ih => simp [ih none, (Text.ne_of_silent (.inl blank)).2.2.symm]
  | symbol _ _ _ ih =>
    rw [Token.symbols_symbol, List.mem_cons, not_or] at none
    exact List.not_mem_cons_of_ne_of_not_mem none.1 (ih none.2)
  | word chars _ _ ih =>
    rw [List.mem_append, not_or]
    exact ⟨fun member => (Text.ne_of_silent (.inr (chars _ member))).2.2 rfl, ih none⟩

/-- The brackets of a text are those among its symbols. -/
theorem unbroken {depth final : Nat} (tokenized : Tokenized text tokens)
    (symbols : Text.Unbroken '&' depth (Token.symbols tokens) final) : Text.Unbroken '&' depth text final := by
  induction tokenized generalizing depth with
  | nil => exact symbols
  | blank blank _ ih =>
    obtain ⟨left, right, other⟩ := Text.ne_of_silent (.inl blank)
    exact .plain ⟨left, right⟩ (fun same => absurd same other) (ih symbols)
  | symbol _ _ _ ih =>
    rw [Token.symbols_symbol] at symbols
    cases symbols with
    | opening rest => exact .opening (ih rest)
    | closing rest => exact .closing (ih rest)
    | plain other inside rest => exact .plain other inside (ih rest)
  | word chars _ _ ih =>
    refine .append (.of_plain fun c member => ?_) (ih symbols)
    obtain ⟨left, right, other⟩ := Text.ne_of_silent (.inr (chars c member))
    exact ⟨left, right, fun same => absurd same other⟩

end Tokenized

namespace Ty

variable {scope : TypeScope} {ty : Ty}

/-- What is read as a type has no separator of bounds in it, and is not cut. -/
theorem parse_uncut {text : String} (read : parse scope text = .ok ty) :
    '&' ∉ text.toList ∧ Text.Unbroken '&' 0 text.toList 0 := by
  obtain ⟨tokens, tokenized⟩ := Tokenized.exists_tokens text.toList
  have nested : Text.Nested (Token.symbols tokens) := by
    rcases (parse_ok_iff tokenized).mp read with ⟨rfl, _⟩ | spells
    · exact .nil
    · exact spells.nested
  exact ⟨tokenized.not_mem nested.not_mem, tokenized.unbroken (nested.unbroken 0)⟩

theorem cutBounds_eq (depth : Nat) (text : List Char) :
    cutBounds depth text = Text.cutOutside '&' depth text := by
  induction text generalizing depth with
  | nil => rfl
  | cons c text ih =>
    rw [cutBounds, Text.cutOutside]
    split
    · rw [ih]
    · obtain ⟨piece, pieces, cut⟩ := List.exists_cons_of_ne_nil
        (@Text.cutOutside_ne_nil '&' (Text.depthBehind depth c) text)
      have own : cutBounds (if c = '<' then depth + 1 else if c = '>' then depth - 1 else depth) text =
          piece :: pieces := (ih (Text.depthBehind depth c)).trans cut
      simp only [own, cut, List.modifyHead_cons]

/-- A list is read as bounds exactly if the pieces between all its separators are read as these. -/
theorem parseBounds_ok_iff {text : String} {bounds : List Ty} :
    parseBounds scope text = .ok bounds ↔
      List.Forall₂ (ReadsBound scope) (Text.pieces '&' text) bounds := by
  rw [parseBounds, cutBounds_eq, parsePieces_ok_iff, Text.pieces]
  constructor
  · intro reads
    -- A sign that cutting has left in a piece would keep the piece from being read.
    have plain : ∀ piece ∈ Text.cutOutside '&' 0 text.toList, '&' ∉ piece := by
      intro piece member
      obtain ⟨bound, _, read, _⟩ := forall₂_left reads (List.mem_map_of_mem member)
      simpa using (parse_uncut read).1
    rwa [← Text.cutOutside_eq_of_not_mem plain]
  · intro reads
    -- The pieces close all brackets that they open, so no sign between them is inside.
    have unbroken : ∀ piece ∈ Text.cutBy (· == '&') text.toList, Text.Unbroken '&' 0 piece 0 := by
      intro piece member
      obtain ⟨bound, _, read, _⟩ := forall₂_left reads (List.mem_map_of_mem member)
      simpa using (parse_uncut read).2
    rwa [Text.cutOutside_eq_of_unbroken (by decide) unbroken]

/-- Written bounds are found again between the separators. -/
theorem readsBounds_render {lead : String} {bounds : List Ty} (nonempty : bounds ≠ [])
    (blank : ∀ c ∈ lead.toList, Text.isBlank c = true)
    (each : ∀ bound ∈ bounds, ReadsBound scope bound.render bound) :
    List.Forall₂ (ReadsBound scope)
      (Text.pieces '&' (lead ++ " & ".intercalate (bounds.map render))) bounds := by
  induction bounds generalizing lead with
  | nil => exact absurd rfl nonempty
  | cons bound bounds ih =>
    obtain ⟨⟨own, reference⟩, others⟩ := List.forall_mem_cons.mp each
    have space : ∀ c ∈ " ".toList, Text.isBlank c = true := List.all_eq_true.mp (by decide)
    have alone : ∀ {after : String}, (∀ c ∈ after.toList, Text.isBlank c = true) →
        Text.pieces '&' (lead ++ bound.render ++ after) = [lead ++ bound.render ++ after] ∧
          ReadsBound scope (lead ++ bound.render ++ after) bound := by
      intro after behind
      have read := (parse_between blank behind).mpr own
      exact ⟨Text.pieces_of_not_mem (parse_uncut read).1, read, reference⟩
    cases bounds with
    | nil =>
      obtain ⟨single, read⟩ := @alone "" (by simp)
      rw [String.append_empty] at single read
      rw [List.map_cons, List.map_nil, String.intercalate_singleton, single]
      exact .cons read .nil
    | cons next bounds =>
      obtain ⟨single, read⟩ := alone space
      have split : lead ++ " & ".intercalate ((bound :: next :: bounds).map render) =
          (lead ++ bound.render ++ " ") ++ "&" ++
            (" " ++ " & ".intercalate ((next :: bounds).map render)) := by
        rw [List.map_cons, String.intercalate_cons_of_ne_nil (by simp)]
        simp [← String.toList_inj]
      rw [split, Text.pieces_append rfl, single]
      exact .cons read (ih (by simp) space others)

/-- A written list is read as its bounds. -/
theorem parseBounds_render {bounds : List Ty} (nonempty : bounds ≠ [])
    (each : ∀ bound ∈ bounds, bound.Expressible scope ∧ bound.isReference = true) :
    parseBounds scope (" & ".intercalate (bounds.map render)) = .ok bounds := by
  have reads := @readsBounds_render scope "" bounds nonempty (by simp) fun bound listed =>
    ⟨parse_of_expressible (each bound listed).1, (each bound listed).2⟩
  rw [String.empty_append] at reads
  exact parseBounds_ok_iff.mpr reads

/-- The text is no type, or it is a type that no bound may be; then the error shows where the text
starts. -/
def RefusesBound (scope : TypeScope) (whole : String) (start : Nat) (text : String)
    (error : ExpressionError) : Prop :=
  parse scope text = .error error ∨
    ∃ ty, parse scope text = .ok ty ∧ ty.isReference = false ∧ error = ⟨whole, start, .boundNotReference⟩

/-- The first piece decides unless it is a bound; the next one starts behind it and its separator. -/
theorem parsePieces_cons_error_iff {whole : String} {offset : Nat} {piece : List Char}
    {pieces : List (List Char)} {error : ExpressionError} :
    parsePieces scope whole offset (piece :: pieces) = .error error ↔
      RefusesBound scope whole offset (String.ofList piece) error ∨
        (∃ bound, ReadsBound scope (String.ofList piece) bound) ∧
          parsePieces scope whole (offset + (String.ofList piece).utf8ByteSize + 1) pieces = .error error := by
  cases read : parse scope (String.ofList piece) with
  | error fault =>
    have same : parsePieces scope whole offset (piece :: pieces) = .error fault := by
      rw [parsePieces, read]
      rfl
    simp [same, RefusesBound, ReadsBound, read]
  | ok bound =>
    cases reference : bound.isReference with
    | false =>
      have same : parsePieces scope whole offset (piece :: pieces) =
          .error ⟨whole, offset, .boundNotReference⟩ := by
        rw [parsePieces, read, ok_bind, if_neg (by simp [reference])]
        rfl
      simpa [same, RefusesBound, ReadsBound, read, reference] using eq_comm
    | true =>
      have same : parsePieces scope whole offset (piece :: pieces) = (parsePieces scope whole
          (offset + (String.ofList piece).utf8ByteSize + 1) pieces).map (bound :: ·) := by
        rw [parsePieces, read, ok_bind, if_pos reference]
        rfl
      rw [same]
      cases parsePieces scope whole (offset + (String.ofList piece).utf8ByteSize + 1) pieces <;>
        simp [RefusesBound, ReadsBound, read, reference, Except.map]

theorem parsePieces_error_iff {whole : String} {offset : Nat} {pieces : List (List Char)}
    {error : ExpressionError} :
    parsePieces scope whole offset pieces = .error error ↔
      ∃ read piece later, pieces = read ++ piece :: later ∧
        (∀ earlier ∈ read, ∃ bound, ReadsBound scope (String.ofList earlier) bound) ∧
        RefusesBound scope whole (offset + (String.ofList (Text.passed read)).utf8ByteSize)
          (String.ofList piece) error := by
  induction pieces generalizing offset with
  | nil => simp [parsePieces]
  | cons piece pieces ih =>
    have size : ∀ read, offset + (String.ofList piece).utf8ByteSize + 1 +
        (String.ofList (Text.passed read)).utf8ByteSize =
          offset + (String.ofList (Text.passed (piece :: read))).utf8ByteSize := by
      intro read
      have mark : (String.ofList ['&']).utf8ByteSize = 1 := by decide
      simp only [Text.passed, List.flatMap_cons, String.ofList_append, String.utf8ByteSize_append, mark]
      omega
    rw [parsePieces_cons_error_iff, ih]
    constructor
    · rintro (refused | ⟨own, read, other, later, rfl, others, refused⟩)
      · exact ⟨[], piece, pieces, rfl, by simp, by simpa [Text.passed] using refused⟩
      · rw [size] at refused
        exact ⟨piece :: read, other, later, rfl, List.forall_mem_cons.mpr ⟨own, others⟩, refused⟩
    · rintro ⟨read, other, later, same, each, refused⟩
      cases read with
      | nil =>
        cases same
        exact .inl (by simpa [Text.passed] using refused)
      | cons first read =>
        cases same
        obtain ⟨own, others⟩ := List.forall_mem_cons.mp each
        rw [← size] at refused
        exact .inr ⟨own, read, other, later, rfl, others, refused⟩

/-- A list is refused at its first piece that is no bound, with the error of reading it or with one that
shows the byte at which it stands in the list. -/
theorem parseBounds_error_iff {text : String} {error : ExpressionError} :
    parseBounds scope text = .error error ↔
      ∃ read piece later, Text.cutOutside '&' 0 text.toList = read ++ piece :: later ∧
        Text.passed read ++ piece <+: text.toList ∧
        (∀ earlier ∈ read, ∃ bound, ReadsBound scope (String.ofList earlier) bound) ∧
        RefusesBound scope text (String.ofList (Text.passed read)).utf8ByteSize (String.ofList piece) error := by
  rw [parseBounds, cutBounds_eq, parsePieces_error_iff]
  constructor
  · rintro ⟨read, piece, later, cut, each, refused⟩
    have start := Text.passed_starts read piece later
    rw [← cut, Text.intercalate_cutOutside] at start
    exact ⟨read, piece, later, cut, start, each, by rwa [Nat.zero_add] at refused⟩
  · rintro ⟨read, piece, later, cut, _, each, refused⟩
    exact ⟨read, piece, later, cut, each, by rwa [Nat.zero_add]⟩

end Ty

/-- A text is read as a list of bounds exactly if the pieces between all its `&` signs, inside brackets
or not, are read in order as these classes, variables and arrays; and what is written behind `extends`
for a type parameter is read as the bounds of the parameter. -/
theorem parseBounds_iff_pieces (scope : TypeScope) :
    (∀ text bounds, Ty.parseBounds scope text = .ok bounds ↔
      List.Forall₂ (Ty.ReadsBound scope) (Text.pieces '&' text) bounds) ∧
    ∀ parameter : TypeParameter, parameter.bounds ≠ [] →
      (∀ bound ∈ parameter.bounds, bound.Expressible scope ∧ bound.isReference = true) →
      ∃ text, Text.afterLead? (parameter.name ++ " extends ") parameter.render = some text ∧
        Ty.parseBounds scope text = .ok parameter.bounds := by
  refine ⟨fun text bounds => Ty.parseBounds_ok_iff, fun parameter bounded each => ?_⟩
  refine ⟨_, ?_, Ty.parseBounds_render bounded each⟩
  rw [TypeParameter.render, if_neg (by simpa using bounded), Text.afterLead?_append]

namespace Bounded

def scope : TypeScope := { package := "p", typeVars := ["T", "E"] }

def parameter : TypeParameter where
  name := "E"
  bounds := [.cls ⟨"p.Order"⟩ [.cls ⟨"java.util.Map"⟩ [.var "T", .lower (.array (.var "E"))]], .var "T",
    .array (.prim .int)]

def text : String := "Order<java.util.Map<T,? super E[ ]>>&T & int[]"

theorem read : Ty.parseBounds scope text = .ok parameter.bounds := by decide +kernel

end Bounded

theorem bounded_pieces :
    List.Forall₂ (Ty.ReadsBound Bounded.scope) (Text.pieces '&' Bounded.text) Bounded.parameter.bounds ∧
    Bounded.parameter.bounds ≠ [] ∧
    (∀ bound ∈ Bounded.parameter.bounds, bound.Expressible Bounded.scope ∧ bound.isReference = true) ∧
    ∃ text, Text.afterLead? "E extends " Bounded.parameter.render = some text ∧
      Ty.parseBounds Bounded.scope text = .ok Bounded.parameter.bounds := by
  obtain ⟨pieces, written⟩ := parseBounds_iff_pieces Bounded.scope
  have reads := (pieces _ _).mp Bounded.read
  have each : ∀ bound ∈ Bounded.parameter.bounds,
      bound.Expressible Bounded.scope ∧ bound.isReference = true := by
    intro bound listed
    obtain ⟨piece, _, read, reference⟩ := forall₂_left reads.flip listed
    exact ⟨Ty.parse_expressible (.inr (by decide +kernel)) read, reference⟩
  exact ⟨reads, by decide, each, written Bounded.parameter (by decide) each⟩

example : (Ty.parseBounds { package := "p" } "A<B & C>").toOption = none := by decide +kernel

example : (Ty.parseBounds { package := "p" } "A > & B").toOption = none := by decide +kernel

end JavaStubs
