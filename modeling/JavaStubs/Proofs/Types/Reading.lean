import JavaStubs.Proofs.Types.Printing

namespace JavaStubs

/-- The tokens of a text: runs of word characters that nothing continues, and every other character
that is not blank by itself. -/
inductive Tokenized : List Char → List Token → Prop
  | nil : Tokenized [] []
  | blank {c : Char} {text : List Char} {tokens : List Token} (blank : Text.isBlank c = true)
      (rest : Tokenized text tokens) : Tokenized (c :: text) tokens
  | symbol {c : Char} {text : List Char} {tokens : List Token} (filled : Text.isBlank c = false)
      (symbol : Text.isWordChar c = false) (rest : Tokenized text tokens) :
      Tokenized (c :: text) (.symbol c :: tokens)
  | word {c : Char} {cs text : List Char} {tokens : List Token}
      (chars : ∀ d ∈ c :: cs, Text.isWordChar d = true) (apart : Apart text)
      (rest : Tokenized text tokens) : Tokenized (c :: cs ++ text) (.word c cs :: tokens)

namespace Tokenized

variable {text : List Char} {tokens : List Token} {c : Char} {cs : List Char}

theorem lexemes_eq (tokenized : Tokenized text tokens) (place : Nat) :
    (lexemes place text).map Lexeme.token = tokens := by
  induction tokenized generalizing place with
  | nil => rfl
  | blank blank _ ih => rw [lexemes_blank blank, ih]
  | symbol filled symbol _ ih => rw [lexemes_symbol filled symbol, List.map_cons, ih]
  | word chars apart _ ih => rw [lexemes_word chars apart, List.map_cons, ih]

/-- A letter before a text continues its first word, or is a word by itself. -/
theorem letter (tokenized : Tokenized text tokens) (own : Text.isWordChar c = true) :
    ∃ others, Tokenized (c :: text) others := by
  have alone : Apart text → ∃ others, Tokenized (c :: text) others := fun apart =>
    ⟨_, @word c [] _ _ (by simpa using own) apart tokenized⟩
  cases tokenized with
  | nil => exact alone (by simp [Apart])
  | blank blank _ => exact alone (apart_cons (Text.not_isWordChar_of_isBlank blank))
  | symbol _ symbol _ => exact alone (apart_cons symbol)
  | word chars apart rest => exact ⟨_, .word (List.forall_mem_cons.mpr ⟨own, chars⟩) apart rest⟩

theorem exists_tokens (text : List Char) : ∃ tokens, Tokenized text tokens := by
  induction text with
  | nil => exact ⟨[], .nil⟩
  | cons c text ih =>
    obtain ⟨tokens, rest⟩ := ih
    by_cases blank : Text.isBlank c = true
    · exact ⟨tokens, .blank blank rest⟩
    · by_cases own : Text.isWordChar c = true
      · exact rest.letter own
      · exact ⟨_, .symbol (by simpa using blank) (by simpa using own) rest⟩

theorem iff_lexemes (place : Nat) :
    Tokenized text tokens ↔ tokens = (lexemes place text).map Lexeme.token := by
  refine ⟨fun tokenized => (tokenized.lexemes_eq place).symm, ?_⟩
  rintro rfl
  obtain ⟨others, tokenized⟩ := exists_tokens text
  rwa [tokenized.lexemes_eq]

theorem blanks (tokenized : Tokenized text []) : ∀ c ∈ text, Text.isBlank c = true := by
  generalize same : [] = tokens at tokenized
  induction tokenized with
  | nil => simp
  | blank blank _ ih => exact List.forall_mem_cons.mpr ⟨blank, ih same⟩
  | symbol => cases same
  | word => cases same

/-- A text with one word has only blanks beside it. -/
theorem surrounded (tokenized : Tokenized text [.word c cs]) :
    ∃ before after, (∀ d ∈ before, Text.isBlank d = true) ∧ (∀ d ∈ after, Text.isBlank d = true) ∧
      text = before ++ (c :: cs) ++ after := by
  generalize same : [Token.word c cs] = tokens at tokenized
  induction tokenized with
  | nil => cases same
  | @blank d _ _ blank _ ih =>
    obtain ⟨before, after, left, right, rfl⟩ := ih same
    exact ⟨d :: before, after, List.forall_mem_cons.mpr ⟨blank, left⟩, right, rfl⟩
  | symbol => cases same
  | @word _ _ after _ _ _ rest _ =>
    cases same
    exact ⟨[], after, by simp, rest.blanks, rfl⟩

theorem of_blanks (blank : ∀ c ∈ text, Text.isBlank c = true) : Tokenized text [] := by
  induction text with
  | nil => exact .nil
  | cons c text ih =>
    obtain ⟨own, others⟩ := List.forall_mem_cons.mp blank
    exact .blank own (ih others)

theorem append {later : List Char} {others : List Token} (first : Tokenized text tokens)
    (second : Tokenized later others) (apart : Apart later) :
    Tokenized (text ++ later) (tokens ++ others) := by
  induction first with
  | nil => exact second
  | blank blank _ ih => exact .blank blank ih
  | symbol filled symbol _ ih => exact .symbol filled symbol ih
  | word chars ends _ ih =>
    rw [List.append_assoc]
    exact .word chars (ends.append apart) ih

/-- Blanks around a text are no tokens. -/
theorem between {before after : List Char} (tokenized : Tokenized text tokens)
    (left : ∀ c ∈ before, Text.isBlank c = true) (right : ∀ c ∈ after, Text.isBlank c = true) :
    Tokenized (before ++ text ++ after) tokens := by
  have apart : Apart after := fun next first =>
    Text.not_isWordChar_of_isBlank (right next (List.mem_of_mem_head? first))
  have behind := tokenized.append (of_blanks right) apart
  rw [List.append_nil] at behind
  rw [List.append_assoc]
  induction before with
  | nil => exact behind
  | cons c before ih =>
    obtain ⟨own, others⟩ := List.forall_mem_cons.mp left
    exact .blank own (ih others)

end Tokenized

/-- A text with something other than a blank at both ends. -/
structure Text.Tight (text : List Char) : Prop where
  nonempty : text ≠ []
  first : ∀ c ∈ text.head?, isBlank c = false
  last : ∀ c ∈ text.getLast?, isBlank c = false

theorem Text.Tight.of_filled {text : List Char} (nonempty : text ≠ [])
    (filled : ∀ c ∈ text, isBlank c = false) : Tight text where
  nonempty := nonempty
  first c member := filled c (List.mem_of_mem_head? member)
  last c member := filled c (List.mem_of_mem_getLast? member)

/-- Blanks around a text that has none at its ends are what trimming takes. -/
theorem Text.Tight.trimChars_eq {before core after : List Char} (tight : Tight core)
    (left : ∀ c ∈ before, isBlank c = true) (right : ∀ c ∈ after, isBlank c = true) :
    trimChars (before ++ core ++ after) = core := by
  have stays : ∀ {front rest : List Char}, front ≠ [] → (∀ c ∈ front.head?, isBlank c = false) →
      dropBlanks (front ++ rest) = front ++ rest := by
    intro front rest some filled
    obtain ⟨c, cs, rfl⟩ := List.exists_cons_of_ne_nil some
    exact List.dropWhile_cons_of_neg (by simp [filled c (by simp)])
  have early : dropBlanks (before ++ core ++ after) = core ++ after := by
    rw [List.append_assoc, dropBlanks, List.dropWhile_append_of_pos left]
    exact stays tight.nonempty tight.first
  have late : dropBlanks (core ++ after).reverse = core.reverse := by
    rw [List.reverse_append, dropBlanks,
      List.dropWhile_append_of_pos fun c member => right c (List.mem_reverse.mp member)]
    have reversed := @stays core.reverse [] (by simpa using tight.nonempty) (by simpa using tight.last)
    simpa [dropBlanks] using reversed
  rw [trimChars, early, late, List.reverse_reverse]

theorem trim_eq_void_iff {text : String} :
    Text.trim text = "void" ↔ Tokenized text.toList [.word 'v' "oid".toList] := by
  constructor
  · intro trimmed
    obtain ⟨start, stop, void⟩ := lexemes_void trimmed
    rw [Tokenized.iff_lexemes 0, void]
    rfl
  · intro tokenized
    obtain ⟨before, after, left, right, same⟩ := tokenized.surrounded
    have filled : ∀ c ∈ 'v' :: "oid".toList, Text.isBlank c = false := fun c member =>
      Text.not_isBlank_of_isWordChar (List.all_eq_true.mp (by decide) c member)
    rw [Text.trim, same, (Text.Tight.of_filled (by simp) filled).trimChars_eq left right]
    rfl

theorem Ty.parse_ok_iff {scope : TypeScope} {text : String} {tokens : List Token} {ty : Ty}
    (tokenized : Tokenized text.toList tokens) : parse scope text = .ok ty ↔
      tokens = [.word 'v' "oid".toList] ∧ ty = .void ∨ Spells scope false tokens ty := by
  have own := (Tokenized.iff_lexemes 0).mp tokenized
  have void : Text.trim text = "void" ↔ tokens = [.word 'v' "oid".toList] := by
    rw [trim_eq_void_iff, Tokenized.iff_lexemes 0, ← own, eq_comm]
  unfold parse
  split
  · rename_i trimmed
    have whole := void.mp trimmed
    constructor
    · intro read
      cases read
      exact .inl ⟨whole, rfl⟩
    · rintro (⟨_, rfl⟩ | spells)
      · rfl
      · exact absurd whole (not_spells_void spells)
  · rename_i other
    rw [parseValue_ok_iff, ← own]
    exact ⟨.inr, fun derived => derived.resolve_left fun whole => other (void.mpr whole.1)⟩

/-- Every text has one sequence of tokens, reading accepts exactly the types that this sequence
derives, `void` only as a whole, and it finds the same in every other text with these tokens. -/
theorem parse_ok_iff_derived (scope : TypeScope) (text : String) :
    ∃ tokens, (∀ others, Tokenized text.toList others ↔ others = tokens) ∧
      (∀ ty, Ty.parse scope text = .ok ty ↔
        tokens = [.word 'v' "oid".toList] ∧ ty = .void ∨ Spells scope false tokens ty) ∧
      ∀ respaced : String, Tokenized respaced.toList tokens →
        (Ty.parse scope respaced).toOption = (Ty.parse scope text).toOption := by
  obtain ⟨tokens, tokenized⟩ := Tokenized.exists_tokens text.toList
  refine ⟨tokens, fun others => ?_, fun ty => Ty.parse_ok_iff tokenized, fun respaced same => ?_⟩
  · rw [Tokenized.iff_lexemes 0, tokenized.lexemes_eq]
  · ext ty
    have either : ∀ {result : Except ExpressionError Ty}, result.toOption = some ty ↔ result = .ok ty := by
      intro result
      cases result <;> simp [Except.toOption]
    rw [either, either, Ty.parse_ok_iff same, Ty.parse_ok_iff tokenized]

example : (Ty.parse { package := "p" } "List<?extendsX>").toOption = none := by decide +kernel

example : Ty.parse { package := "p" } "List < ? extends q . X [ ] >" =
    .ok (.cls ⟨"p.List"⟩ [.upper (.array (.cls ⟨"q.X"⟩ []))]) := by decide +kernel

end JavaStubs
