import JavaStubs.Text.Cut

namespace JavaStubs

inductive Token
  | word (first : Char) (rest : List Char)
  | symbol (c : Char)
  deriving DecidableEq, Repr

/-- The character with which a token starts. -/
def Token.first : Token → Char
  | .word c _ => c
  | .symbol c => c

/-- A token that fills the places from `start` up to, not including, `stop`. -/
structure Lexeme where
  token : Token
  start : Nat
  stop : Nat
  deriving DecidableEq, Repr

/-- Puts a word character in front of what was read after it. -/
def Lexeme.prepend (place : Nat) (c : Char) : List Lexeme → List Lexeme
  | ⟨.word first rest, start, stop⟩ :: more =>
    if start = place + 1 then ⟨.word c (first :: rest), place, stop⟩ :: more
    else ⟨.word c [], place, place + 1⟩ :: ⟨.word first rest, start, stop⟩ :: more
  | more => ⟨.word c [], place, place + 1⟩ :: more

/-- The tokens of a text whose first character has the given place. -/
def lexemes (place : Nat) : List Char → List Lexeme
  | [] => []
  | c :: text =>
    if Text.isBlank c then lexemes (place + 1) text
    else if Text.isWordChar c then Lexeme.prepend place c (lexemes (place + 1) text)
    else ⟨.symbol c, place, place + 1⟩ :: lexemes (place + 1) text

end JavaStubs
