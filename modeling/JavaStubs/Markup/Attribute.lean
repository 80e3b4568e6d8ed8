namespace JavaStubs.Markup

/-- The characters that separate the parts of a tag. -/
def isSpace (c : Char) : Bool :=
  c == ' ' || c == '\t' || c == '\r' || c == '\n'

def isQuote (c : Char) : Bool :=
  c == '\'' || c == '"'

namespace Attribute

/-- Where the reader stands inside a tag. Characters read so far are in reverse order. -/
inductive Mode
  | between
  | key (seen : List Char)
  | afterKey (seen : List Char)
  | beforeValue (key : String)
  | value (key : String) (quote : Char) (seen : List Char)
  | skipping
  deriving DecidableEq, Repr

/-- A broken attribute is skipped up to the next space. -/
structure Reader where
  mode : Mode := .between
  /-- Every key that an equals sign followed, also one whose value was broken. -/
  keys : List String := []
  /-- The attributes read, the last one first. -/
  found : List (String × String) := []
  deriving DecidableEq, Repr

namespace Reader

/-- After a key and its equals sign: a key met before is dropped with its value. -/
def equals (reader : Reader) (seen : List Char) : Reader :=
  let key := String.ofList seen.reverse
  if reader.keys.contains key then { reader with mode := .skipping }
  else { reader with mode := .beforeValue key, keys := key :: reader.keys }

def step (reader : Reader) (c : Char) : Reader :=
  match reader.mode with
  | .between => if isSpace c then reader else { reader with mode := .key [c] }
  | .key seen =>
    if c = '=' then reader.equals seen
    else if isSpace c then { reader with mode := .afterKey seen }
    else { reader with mode := .key (c :: seen) }
  | .afterKey seen =>
    if c = '=' then reader.equals seen
    else if isSpace c then reader
    else { reader with mode := .key [c] }
  | .beforeValue key =>
    if isSpace c then reader
    else if isQuote c then { reader with mode := .value key c [] }
    else { reader with mode := .skipping }
  | .value key quote seen =>
    if c = quote then
      { reader with mode := .between, found := (key, String.ofList seen.reverse) :: reader.found }
    else { reader with mode := .value key quote (c :: seen) }
  | .skipping => if isSpace c then { reader with mode := .between } else reader

end Reader

/-- The keys and raw values in the text that follows a tag's name. -/
def readAll (text : List Char) : List (String × String) :=
  (text.foldl Reader.step {}).found.reverse

end Attribute

end JavaStubs.Markup
