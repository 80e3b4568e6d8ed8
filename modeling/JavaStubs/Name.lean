import JavaStubs.Text.Cut

namespace JavaStubs

/-- The words that no declaration may use as its name. -/
def reservedWords : List String := [
  "_", "abstract", "assert", "boolean", "break", "byte", "case", "catch", "char", "class",
  "const", "continue", "default", "do", "double", "else", "enum", "extends", "false", "final",
  "finally", "float", "for", "goto", "if", "implements", "import", "instanceof", "int",
  "interface", "long", "native", "new", "null", "package", "private", "protected", "public",
  "return", "short", "static", "strictfp", "super", "switch", "synchronized", "this", "throw",
  "throws", "transient", "true", "try", "void", "volatile", "while"]

/-- A word whose first character is no numeral. -/
def isWord : List Char → Bool
  | [] => false
  | c :: rest => (Text.isAlphabetic c || c == '_' || c == '$') && rest.all Text.isWordChar

def isIdentifier (text : String) : Bool :=
  isWord text.toList && !reservedWords.contains text

/-- A dotted name such as `java.util.List`. -/
structure QualName where
  text : String
  deriving DecidableEq, Repr, Inhabited

/-- The name that was rejected, without the blanks around it. -/
structure InvalidName where
  name : String
  deriving DecidableEq, Repr

def InvalidName.message (fault : InvalidName) : String :=
  "invalid qualified name '" ++ fault.name ++ "'"

namespace QualName

def segments (name : QualName) : List String :=
  Text.pieces '.' name.text

/-- The last segment. -/
def simple (name : QualName) : String :=
  name.segments.getLast?.getD ""

/-- Everything before the last dot; empty for a name without one. -/
def package (name : QualName) : String :=
  ".".intercalate name.segments.dropLast

/-- The nonempty segments of the package. -/
def packageSegments (name : QualName) : List String :=
  name.segments.dropLast.filter (· != "")

/-- A simple name placed in a package. -/
def inPackage (package simple : String) : QualName :=
  if package = "" then ⟨simple⟩ else ⟨package ++ "." ++ simple⟩

/-- The name of another type in the same package. -/
def sibling (name : QualName) (simple : String) : QualName :=
  inPackage name.package simple

def valid (name : QualName) : Bool :=
  name.segments.all isIdentifier

/-- Reads exactly the valid names, with or without blanks around them. -/
def parse (text : String) : Except InvalidName QualName :=
  let name : QualName := ⟨Text.trim text⟩
  if name.valid then .ok name else .error ⟨name.text⟩

/-- The root of every class hierarchy. -/
def object : QualName := ⟨"java.lang.Object"⟩

end QualName

end JavaStubs
