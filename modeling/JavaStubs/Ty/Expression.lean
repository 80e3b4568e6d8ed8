import JavaStubs.Ty.Basic
import JavaStubs.Ty.Token

namespace JavaStubs

/-- What a lone word may stand for. -/
structure TypeScope where
  package : String := ""
  typeVars : List String := []
  deriving DecidableEq, Repr

namespace TypeScope

/-- The scope of the types declared beside `name`. -/
def ofType (name : QualName) : TypeScope := { package := name.package }

def withVariables (scope : TypeScope) (names : List String) : TypeScope :=
  { scope with typeVars := scope.typeVars ++ names }

def isVariable (scope : TypeScope) (word : String) : Bool :=
  scope.typeVars.contains word

end TypeScope

/-- Why a text is no type expression. -/
inductive ExpressionFault
  | wildcardPlace
  | wildcardBound
  | voidPlace
  | primitiveArguments
  | variableArguments
  | noIdentifier
  | invalidIdentifier (word : String)
  | expected (c : Char)
  | unexpected (c : Char)
  | notClass (found : Ty)
  | boundNotReference
  deriving DecidableEq, Repr

def ExpressionFault.message : ExpressionFault → String
  | .wildcardPlace => "wildcards are only allowed as type arguments"
  | .wildcardBound => "wildcard bounds must be reference types"
  | .voidPlace => "'void' is only allowed as a return type"
  | .primitiveArguments => "primitive types take no type arguments"
  | .variableArguments => "type variables take no type arguments"
  | .noIdentifier => "expected an identifier"
  | .invalidIdentifier word => "'" ++ word ++ "' is not a valid identifier"
  | .expected c => "expected '" ++ String.singleton c ++ "'"
  | .unexpected c => "unexpected '" ++ String.singleton c ++ "'"
  | .notClass found => "expected a class or interface type, found '" ++ found.render ++ "'"
  | .boundNotReference => "bounds must be reference types"

structure ExpressionError where
  text : String
  position : Nat
  fault : ExpressionFault
  deriving DecidableEq, Repr

def ExpressionError.message (error : ExpressionError) : String :=
  "invalid type expression '" ++ error.text ++ "' at position " ++ toString error.position ++ ": "
    ++ error.fault.message

namespace Ty

/-- A fault and the place where it shows; no place means the end of the text. -/
structure Misread where
  place : Option Nat
  fault : ExpressionFault

/-- A fault at the next token. -/
def stopAt {α : Type} (rest : List Lexeme) (fault : ExpressionFault) : Except Misread α :=
  .error ⟨rest.head?.map Lexeme.start, fault⟩

/-- The words after the first of a dotted name. -/
def readSegments : List Lexeme → Except Misread (List String × List Lexeme)
  | ⟨.symbol '.', _, _⟩ :: ⟨.word c cs, _, _⟩ :: rest => do
    let (more, rest) ← readSegments rest
    return (String.ofList (c :: cs) :: more, rest)
  | ⟨.symbol '.', _, _⟩ :: rest => stopAt rest .noIdentifier
  | rest => .ok ([], rest)

/-- The bracket pairs after an element type. -/
def readArrays (element : Ty) : List Lexeme → Except Misread (Ty × List Lexeme)
  | ⟨.symbol '[', _, _⟩ :: ⟨.symbol ']', _, _⟩ :: rest => readArrays (.array element) rest
  | ⟨.symbol '[', _, _⟩ :: rest => stopAt rest (.expected ']')
  | rest => .ok (element, rest)

/-- What a dotted name denotes: a type that takes no arguments, with the fault of giving it some,
or a class. -/
inductive Head
  | plain (ty : Ty) (onArguments : ExpressionFault)
  | generic (name : QualName)

/-- A lone word is a primitive, then `void`, then a variable, before it is a class. -/
def headOf (scope : TypeScope) : List String → Except ExpressionFault Head
  | [word] =>
    match Primitive.ofName? word with
    | some p => .ok (.plain (.prim p) .primitiveArguments)
    | none =>
      if word = "void" then .error .voidPlace
      else if scope.isVariable word then .ok (.plain (.var word) .variableArguments)
      else if isIdentifier word then .ok (.generic (QualName.inPackage scope.package word))
      else .error (.invalidIdentifier word)
  | words =>
    match words.find? (!isIdentifier ·) with
    | some word => .error (.invalidIdentifier word)
    | none => .ok (.generic ⟨".".intercalate words⟩)

mutual

/-- Reads one type; a wildcard only as an argument. Every call spends one unit of fuel, and at
least one token lies between two calls that nest, so one unit more than there are tokens is
enough. -/
def readType (scope : TypeScope) : Nat → Bool → List Lexeme → Except Misread (Ty × List Lexeme)
  | 0, _, rest => stopAt rest .noIdentifier
  | fuel + 1, asArgument, input =>
    match input with
    | ⟨.symbol '?', _, _⟩ :: rest =>
      if asArgument then
        match rest with
        | ⟨.word c cs, _, stop⟩ :: after =>
          if String.ofList (c :: cs) = "extends" then do
            let (bound, rest) ← readType scope fuel false after
            if bound.isReference then return (.upper bound, rest)
            else throw ⟨some stop, .wildcardBound⟩
          else if String.ofList (c :: cs) = "super" then do
            let (bound, rest) ← readType scope fuel false after
            if bound.isReference then return (.lower bound, rest)
            else throw ⟨some stop, .wildcardBound⟩
          else .ok (.any, rest)
        | _ => .ok (.any, rest)
      else stopAt input .wildcardPlace
    | ⟨.word c cs, start, _⟩ :: rest => do
      let (more, rest) ← readSegments rest
      match headOf scope (String.ofList (c :: cs) :: more), rest with
      | .error fault, _ => throw ⟨some start, fault⟩
      | .ok (.plain _ fault), ⟨.symbol '<', _, _⟩ :: _ => stopAt rest fault
      | .ok (.plain ty _), _ => readArrays ty rest
      | .ok (.generic name), ⟨.symbol '<', _, _⟩ :: rest => do
        let (args, rest) ← readArguments scope fuel rest
        readArrays (.cls name args) rest
      | .ok (.generic name), _ => readArrays (.cls name []) rest
    | _ => stopAt input .noIdentifier

/-- Reads the arguments after `<` and the `>` that closes them. -/
def readArguments (scope : TypeScope) : Nat → List Lexeme → Except Misread (List Ty × List Lexeme)
  | 0, rest => stopAt rest .noIdentifier
  | fuel + 1, input => do
    let (arg, rest) ← readType scope fuel true input
    match rest with
    | ⟨.symbol ',', _, _⟩ :: rest => do
      let (args, rest) ← readArguments scope fuel rest
      return (arg :: args, rest)
    | ⟨.symbol '>', _, _⟩ :: rest => return ([arg], rest)
    | _ => stopAt rest (.expected '>')

end

/-- Reads a text that is one type and nothing else, `void` excepted. -/
def parseValue (scope : TypeScope) (text : String) : Except ExpressionError Ty :=
  let input := lexemes 0 text.toList
  match readType scope (input.length + 1) false input with
  | .error misread => .error ⟨text, misread.place.getD text.length, misread.fault⟩
  | .ok (ty, []) => .ok ty
  | .ok (_, next :: _) => .error ⟨text, next.start, .unexpected next.token.first⟩

/-- Reads a type, `void` included. -/
def parse (scope : TypeScope) (text : String) : Except ExpressionError Ty :=
  if Text.trim text = "void" then .ok .void else parseValue scope text

/-- Reads the type of a parameter; `...` behind it makes an array of variable arity. -/
def parseParameter (scope : TypeScope) (text : String) : Except ExpressionError (Ty × Bool) :=
  let trimmed := Text.trim text
  match Text.beforeTail? "..." trimmed with
  | some element => (parseValue scope element).map fun ty => (.array ty, true)
  | none => (parseValue scope trimmed).map fun ty => (ty, false)

/-- Cuts at the `&` signs outside angle brackets. -/
def cutBounds : Nat → List Char → List (List Char)
  | _, [] => [[]]
  | depth, c :: rest =>
    if c = '&' ∧ depth = 0 then [] :: cutBounds 0 rest
    else
      let depth := if c = '<' then depth + 1 else if c = '>' then depth - 1 else depth
      match cutBounds depth rest with
      | [] => [[c]]
      | piece :: pieces => (c :: piece) :: pieces

/-- Reads the pieces of a bound list; `offset` counts the bytes before the next one. -/
def parsePieces (scope : TypeScope) (text : String) :
    Nat → List (List Char) → Except ExpressionError (List Ty)
  | _, [] => .ok []
  | offset, piece :: pieces => do
    let bound ← parse scope (String.ofList piece)
    if bound.isReference then
      let next := offset + (String.ofList piece).utf8ByteSize + 1
      return bound :: (← parsePieces scope text next pieces)
    else throw ⟨text, offset, .boundNotReference⟩

/-- Reads the bounds of a type parameter, such as `java.lang.Number & java.lang.Comparable<T>`. -/
def parseBounds (scope : TypeScope) (text : String) : Except ExpressionError (List Ty) :=
  parsePieces scope text 0 (cutBounds 0 text.toList)

end Ty

/-- Reads a class or interface type. -/
def ClassRef.parse (scope : TypeScope) (text : String) : Except ExpressionError ClassRef := do
  match ← Ty.parse scope text with
  | .cls name args => return ⟨name, args⟩
  | other => throw ⟨text, 0, .notClass other⟩

end JavaStubs
