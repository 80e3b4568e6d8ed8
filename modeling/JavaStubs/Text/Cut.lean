import JavaStubs.Text.CharClass

namespace JavaStubs.Text

/-- The pieces between the characters that satisfy `p`: one more than there are such characters. -/
def cutBy (p : Char → Bool) : List Char → List (List Char)
  | [] => [[]]
  | c :: rest =>
    if p c then [] :: cutBy p rest
    else match cutBy p rest with
      | [] => [[c]]
      | piece :: pieces => (c :: piece) :: pieces

theorem cutBy_ne_nil (p : Char → Bool) (text : List Char) : cutBy p text ≠ [] := by
  cases text with
  | nil => simp [cutBy]
  | cons c rest =>
    unfold cutBy
    split
    · simp
    · split <;> simp

/-- The pieces of a text between the occurrences of one character. -/
def pieces (separator : Char) (text : String) : List String :=
  (cutBy (· == separator) text.toList).map String.ofList

theorem pieces_ne_nil (separator : Char) (text : String) : pieces separator text ≠ [] := by
  simp [pieces, cutBy_ne_nil]

def dropBlanks (text : List Char) : List Char :=
  text.dropWhile isBlank

/-- The text without its leading and trailing blanks. -/
def trimChars (text : List Char) : List Char :=
  (dropBlanks (dropBlanks text).reverse).reverse

def trim (text : String) : String :=
  String.ofList (trimChars text.toList)

/-- The part of `text` after `lead`, if it starts so. -/
def afterLead? (lead text : String) : Option String :=
  (lead.toList.isPrefixOf? text.toList).map String.ofList

/-- The part of `text` before `tail`, if it ends so. -/
def beforeTail? (tail text : String) : Option String :=
  (tail.toList.isSuffixOf? text.toList).map String.ofList

def endsWith (tail text : String) : Bool :=
  (beforeTail? tail text).isSome

def startsWith (lead text : String) : Bool :=
  (afterLead? lead text).isSome

/-- One carriage return before a line feed belongs to the line end. -/
def dropReturn (line : List Char) : List Char :=
  match line.reverse with
  | '\r' :: rest => rest.reverse
  | _ => line

/-- Drops the carriage return of every line but the last, which has no line feed after it, and
drops that last one if it is empty. -/
def closeLines : List (List Char) → List (List Char)
  | [] => []
  | [last] => if last.isEmpty then [] else [last]
  | line :: next :: rest => dropReturn line :: closeLines (next :: rest)

/-- The lines of a text, without their line ends. -/
def lines (text : String) : List String :=
  (closeLines (cutBy (· == '\n') text.toList)).map String.ofList

/-- Why a run of digits is not a number below `2 ^ 32`. -/
inductive NumberFault
  | empty
  | invalidDigit
  | tooLarge
  deriving DecidableEq, Repr

def NumberFault.message : NumberFault → String
  | .empty => "cannot parse integer from empty string"
  | .invalidDigit => "invalid digit found in string"
  | .tooLarge => "number too large to fit in target type"

/-- The value of a digit of bases up to sixteen, in either case. -/
def digitValue? (base : Nat) (c : Char) : Option Nat :=
  let value? :=
    if '0' ≤ c ∧ c ≤ '9' then some (c.toNat - '0'.toNat)
    else if 'a' ≤ c ∧ c ≤ 'f' then some (c.toNat - 'a'.toNat + 10)
    else if 'A' ≤ c ∧ c ≤ 'F' then some (c.toNat - 'A'.toNat + 10)
    else none
  value?.filter (· < base)

/-- Reads digits from the left; the first digit that is wrong or leads out of range decides. -/
def readDigits (base : Nat) : Nat → List Char → Except NumberFault Nat
  | value, [] => .ok value
  | value, c :: rest =>
    match digitValue? base c with
    | none => .error .invalidDigit
    | some digit =>
      let next := value * base + digit
      if next < 2 ^ 32 then readDigits base next rest else .error .tooLarge

/-- The number below `2 ^ 32` that a nonempty run of digits denotes. -/
def readNumber (base : Nat) : List Char → Except NumberFault Nat
  | [] => .error .empty
  | digits => readDigits base 0 digits

end JavaStubs.Text
