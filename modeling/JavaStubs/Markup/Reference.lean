import JavaStubs.Text.Cut

namespace JavaStubs.Markup

/-- Why a numeric reference denotes no character. -/
inductive CharacterFault
  | sign
  | number (fault : Text.NumberFault)
  | zero
  | noCharacter (code : Nat)
  deriving DecidableEq, Repr

def CharacterFault.message : CharacterFault → String
  | .sign => "unexpected number sign"
  | .number fault => fault.message
  | .zero => "0x0 character is not permitted in XML"
  | .noCharacter code => "`" ++ toString code ++ "` is not a valid codepoint"

/-- The fault and its cause, from the outermost inwards. -/
def CharacterFault.chain (fault : CharacterFault) : List String :=
  fault.message :: match fault with
    | .number cause => [cause.message]
    | _ => []

inductive ReferenceFault
  | unterminated (start stop : Nat)
  | character (fault : CharacterFault)
  | unknownEntity (start stop : Nat) (name : String)
  deriving DecidableEq, Repr

def ReferenceFault.message : ReferenceFault → String
  | .unterminated start stop =>
    "Error while escaping character at range " ++ toString start ++ ".." ++ toString stop
      ++ ": Cannot find ';' after '&'"
  | .character fault => "invalid character reference: " ++ fault.message
  | .unknownEntity start stop name =>
    "at " ++ toString start ++ ".." ++ toString stop ++ ": unrecognized entity `" ++ name ++ "`"

/-- The fault and its causes, from the outermost inwards. -/
def ReferenceFault.chain (fault : ReferenceFault) : List String :=
  fault.message :: match fault with
    | .character fault => fault.chain
    | _ => []

namespace Reference

/-- Digits in decimal, or in hexadecimal after an `x`, without a sign. -/
def readCode (text : List Char) : Except CharacterFault Nat :=
  let (base, digits) := match text with
    | 'x' :: digits => (16, digits)
    | digits => (10, digits)
  match digits with
  | '+' :: _ | '-' :: _ => .error .sign
  | _ => (Text.readNumber base digits).mapError .number

/-- The character that a number denotes. -/
def character (text : List Char) : Except CharacterFault Char := do
  let code ← readCode text
  if code = 0 then throw .zero
  else if code.isValidChar then return Char.ofNat code
  else throw (.noCharacter code)

/-- The five entities that every document knows. -/
def entity? : String → Option Char
  | "lt" => some '<'
  | "gt" => some '>'
  | "amp" => some '&'
  | "apos" => some '\''
  | "quot" => some '"'
  | _ => none

/-- What stands between `&` and `;`, whose first byte has the offset `start`. -/
def resolve (start : Nat) (text : List Char) : Except ReferenceFault Char :=
  match text with
  | '#' :: number => (character number).mapError .character
  | _ =>
    let name := String.ofList text
    match entity? name with
    | some c => .ok c
    | none => .error (.unknownEntity start (start + name.utf8ByteSize) name)

/-- Replaces references from left to right. `offset` counts the bytes before the next character;
inside a reference, `pending` holds the offset of its `&` and the characters since, in reverse. -/
def decodeFrom (total : Nat) :
    Nat → Option (Nat × List Char) → List Char → Except ReferenceFault (List Char)
  | _, none, [] => .ok []
  | _, some (start, _), [] => .error (.unterminated start total)
  | offset, none, c :: rest =>
    if c = '&' then decodeFrom total (offset + 1) (some (offset, [])) rest
    else do return c :: (← decodeFrom total (offset + c.utf8Size) none rest)
  | offset, some (start, seen), c :: rest =>
    if c = ';' then do
      let character ← resolve (start + 1) seen.reverse
      return character :: (← decodeFrom total (offset + 1) none rest)
    else if c = '&' then .error (.unterminated start total)
    else decodeFrom total (offset + c.utf8Size) (some (start, c :: seen)) rest

/-- An attribute value with its references replaced. -/
def decode (value : String) : Except ReferenceFault String :=
  (decodeFrom value.utf8ByteSize 0 none value.toList).map String.ofList

end Reference

end JavaStubs.Markup
