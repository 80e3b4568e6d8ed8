import JavaStubs.Markup.Attribute

namespace JavaStubs.Markup

inductive MarkupFault
  | unclosedTag
  | unclosedQuote (quote : Char)
  | unclosedInstruction
  | unclosedDeclaration
  | unclosedComment
  | unclosedDoctype
  | unclosedData
  | unknownMarkup
  | missingDoctypeName
  | unmatchedEnd (name : String)
  | mismatchedEnd (expected found : String)
  | unclosedReference
  deriving DecidableEq, Repr

namespace MarkupFault

/-- Whether markup is cut off or unknown, rather than complete and out of place. -/
def isLexical : MarkupFault → Bool
  | .missingDoctypeName | .unmatchedEnd _ | .mismatchedEnd .. | .unclosedReference => false
  | _ => true

/-- The wording common to everything that the end of the input leaves open. -/
def notClosed (what closer : String) : String :=
  what ++ " not closed: `" ++ closer ++ "` not found before end of input"

def detail : MarkupFault → String
  | .unclosedTag => notClosed "tag" ">"
  | .unclosedQuote quote => notClosed "attribute value" (String.singleton quote)
  | .unclosedInstruction => notClosed "processing instruction" "?>"
  | .unclosedDeclaration => notClosed "XML declaration" "?>"
  | .unclosedComment => notClosed "comment" "-->"
  | .unclosedDoctype => notClosed "DOCTYPE" ">"
  | .unclosedData => notClosed "CDATA" "]]>"
  | .unknownMarkup => "unknown or missed symbol in markup"
  | .missingDoctypeName => "`<!DOCTYPE>` declaration does not contain a name of a document type"
  | .unmatchedEnd name => "close tag `</" ++ name ++ ">` does not match any open tag"
  | .mismatchedEnd expected found =>
    "expected `</" ++ expected ++ ">`, but `</" ++ found ++ ">` was found"
  | .unclosedReference => notClosed "entity or character reference" ";"

def message (fault : MarkupFault) : String :=
  (if fault.isLexical then "syntax error: " else "ill-formed document: ") ++ fault.detail

/-- The fault and its cause, from the outermost inwards. -/
def chain (fault : MarkupFault) : List String := [fault.message, fault.detail]

end MarkupFault

/-- An element's name and attributes, the values as written. -/
structure Tag where
  name : String
  attributes : List (String × String)
  deriving DecidableEq, Repr

inductive Event
  | opening (tag : Tag)
  | empty (tag : Tag)
  | closing
  | fault (fault : MarkupFault)
  deriving DecidableEq, Repr

/-- Where a document type declaration stands: before, in or after the brackets of its subset, or in
markup inside them. -/
inductive DoctypeZone
  | before (quote : Option Char)
  | subset
  /-- Markup whose kind is not known yet, and its text so far. -/
  | opening (text : List Char)
  /-- A comment that just had this many dashes, counted up to two. -/
  | comment (dashes : Nat)
  /-- An instruction, and whether its last character was a question mark. -/
  | instruction (asked : Bool)
  | quoted (quote : Option Char)
  | plain
  | after
  deriving DecidableEq, Repr

/-- What the scanner is in the middle of. Characters seen so far are in reverse order. -/
inductive Mode
  | text
  | reference
  | tagStart
  | markup
  | comment (seen : List Char)
  | data (seen : List Char)
  | doctype (zone : DoctypeZone) (seen : List Char)
  | instruction (seen : List Char)
  | startTag (quote : Option Char) (seen : List Char)
  | endTag (quote : Option Char) (seen : List Char)
  | stopped
  deriving DecidableEq, Repr

/-- Reads one character at a time, so that reading two texts one after the other is reading their
concatenation. Text, comments, declarations and the like leave no event. -/
structure Scanner where
  mode : Mode := .text
  /-- The names of the open elements, the innermost first. -/
  openNames : List String := []
  /-- The events so far, the last one first. -/
  events : List Event := []
  deriving DecidableEq, Repr

/-- A quote opens, and the same one closes. -/
def nextQuote (quote : Option Char) (c : Char) : Option Char :=
  match quote with
  | some q => if c = q then none else some q
  | none => if isQuote c then some c else none

/-- Splits the inside of a tag into name and attributes. -/
def Tag.ofText (text : List Char) : Tag where
  name := String.ofList (text.takeWhile (!isSpace ·))
  attributes := Attribute.readAll (text.dropWhile (!isSpace ·))

namespace DoctypeZone

/-- The declarations in which a quoted `>` is no end. -/
def quotedKeywords : List String := ["!ENTITY", "!ATTLIST", "!NOTATION"]

/-- Markup in the subset is told apart by its first characters. -/
def ofOpening (text : List Char) : DoctypeZone :=
  if text = ['?'] then .instruction false
  else if text = "!--".toList then .comment 0
  else if quotedKeywords.any (·.toList == text) then .quoted none
  else if ("!--" :: quotedKeywords).any (text.isPrefixOf ·.toList) then .opening text
  else if text.getLast? = some '>' then .subset
  else .plain

/-- The next zone, or none where the declaration ends. -/
def step (zone : DoctypeZone) (c : Char) : Option DoctypeZone :=
  match zone with
  | .before none =>
    if c = '>' then none
    else if c = '[' then some .subset
    else some (.before (nextQuote none c))
  | .before quote => some (.before (nextQuote quote c))
  | .subset =>
    if c = ']' then some .after
    else if c = '<' then some (.opening [])
    else some .subset
  | .opening text => some (ofOpening (text ++ [c]))
  | .comment dashes =>
    if c = '>' ∧ dashes = 2 then some .subset
    else some (.comment (if c = '-' then min (dashes + 1) 2 else 0))
  | .instruction asked =>
    if c = '>' ∧ asked then some .subset else some (.instruction (c == '?'))
  | .quoted quote =>
    if c = '>' ∧ quote = none then some .subset else some (.quoted (nextQuote quote c))
  | .plain => some (if c = '>' then .subset else .plain)
  | .after => if c = '>' then none else some .after

end DoctypeZone

namespace Scanner

def stop (scanner : Scanner) (fault : MarkupFault) : Scanner :=
  { scanner with mode := .stopped, events := .fault fault :: scanner.events }

/-- Back to text, with one more event. -/
def emit (scanner : Scanner) (event : Event) : Scanner :=
  { scanner with mode := .text, events := event :: scanner.events }

def resume (scanner : Scanner) : Scanner := { scanner with mode := .text }

/-- The whole start tag, without its angle brackets, in reverse. -/
def closeStart (scanner : Scanner) (seen : List Char) : Scanner :=
  match seen with
  | '/' :: inside => scanner.emit (.empty (Tag.ofText inside.reverse))
  | inside =>
    let tag := Tag.ofText inside.reverse
    { scanner.emit (.opening tag) with openNames := tag.name :: scanner.openNames }

/-- The name in an end tag, given in reverse: space behind it is dropped, but space alone stays. -/
def endName (seen : List Char) : String :=
  String.ofList (if seen.all isSpace then seen else seen.dropWhile isSpace).reverse

/-- The whole end tag, after `</`, in reverse. -/
def closeEnd (scanner : Scanner) (seen : List Char) : Scanner :=
  let name := endName seen
  match scanner.openNames with
  | [] => scanner.stop (.unmatchedEnd name)
  | innermost :: outer =>
    if name = innermost then { scanner.emit .closing with openNames := outer }
    else scanner.stop (.mismatchedEnd innermost name)

/-- A comment ends at `-->`, and its dashes are apart from those that opened it. -/
def stepComment (scanner : Scanner) (seen : List Char) (c : Char) : Scanner :=
  if c = '>' ∧ ['-', '-'].isPrefixOf seen ∧ 3 < seen.length then
    if ['-', '-'].isPrefixOf seen.reverse then scanner.resume else scanner.stop .unclosedComment
  else { scanner with mode := .comment (c :: seen) }

def stepData (scanner : Scanner) (seen : List Char) (c : Char) : Scanner :=
  if c = '>' ∧ [']', ']'].isPrefixOf seen then
    if "[CDATA[".toList.isPrefixOf seen.reverse then scanner.resume
    else scanner.stop .unclosedData
  else { scanner with mode := .data (c :: seen) }

/-- The whole document type declaration, after `<!`, in reverse. -/
def closeDoctype (scanner : Scanner) (seen : List Char) : Scanner :=
  let text := seen.reverse
  if (text.take 7).map Char.toUpper = "DOCTYPE".toList then
    if (text.drop 7).all isSpace then scanner.stop .missingDoctypeName else scanner.resume
  else scanner.stop .unclosedDoctype

/-- An instruction ends at `?>`; the question mark that opened it does not close it. -/
def stepInstruction (scanner : Scanner) (seen : List Char) (c : Char) : Scanner :=
  match seen with
  | [] => if c = '>' then scanner.stop .unclosedInstruction
    else { scanner with mode := .instruction [c] }
  | '?' :: _ => if c = '>' then scanner.resume
    else { scanner with mode := .instruction (c :: seen) }
  | _ => { scanner with mode := .instruction (c :: seen) }

def stepStart (scanner : Scanner) (quote : Option Char) (seen : List Char) (c : Char) : Scanner :=
  if c = '>' ∧ quote = none then scanner.closeStart seen
  else { scanner with mode := .startTag (nextQuote quote c) (c :: seen) }

def stepEnd (scanner : Scanner) (quote : Option Char) (seen : List Char) (c : Char) : Scanner :=
  if c = '>' ∧ quote = none then scanner.closeEnd seen
  else { scanner with mode := .endTag (nextQuote quote c) (c :: seen) }

def step (scanner : Scanner) (c : Char) : Scanner :=
  match scanner.mode with
  | .text =>
    if c = '<' then { scanner with mode := .tagStart }
    else if c = '&' then { scanner with mode := .reference }
    else scanner
  | .reference =>
    if c = ';' then scanner.resume
    else if c = '&' ∨ c = '<' then scanner.stop .unclosedReference
    else scanner
  | .tagStart =>
    if c = '!' then { scanner with mode := .markup }
    else if c = '?' then { scanner with mode := .instruction [] }
    else if c = '/' then { scanner with mode := .endTag none [] }
    else scanner.stepStart none [] c
  | .markup =>
    if c = '[' then { scanner with mode := .data [c] }
    else if c = '-' then { scanner with mode := .comment [c] }
    else if c = 'D' ∨ c = 'd' then { scanner with mode := .doctype (.before none) [c] }
    else scanner.stop .unknownMarkup
  | .comment seen => scanner.stepComment seen c
  | .data seen => scanner.stepData seen c
  | .doctype zone seen =>
    match zone.step c with
    | none => scanner.closeDoctype seen
    | some zone => { scanner with mode := .doctype zone (c :: seen) }
  | .instruction seen => scanner.stepInstruction seen c
  | .startTag quote seen => scanner.stepStart quote seen c
  | .endTag quote seen => scanner.stepEnd quote seen c
  | .stopped => scanner

/-- Whether an unfinished instruction is a declaration of the document itself. -/
def isDeclaration (text : List Char) : Bool :=
  match "xml".toList.isPrefixOf? text with
  | none => false
  | some [] => true
  | some (c :: _) => isSpace c || c == '?'

/-- The fault of ending the input here. -/
def endFault? : Mode → Option MarkupFault
  | .text | .stopped => none
  | .reference => some .unclosedReference
  | .tagStart => some .unclosedTag
  | .markup => some .unknownMarkup
  | .comment _ => some .unclosedComment
  | .data _ => some .unclosedData
  | .doctype .. => some .unclosedDoctype
  | .instruction seen =>
    some (if isDeclaration seen.reverse then .unclosedDeclaration else .unclosedInstruction)
  | .startTag (some quote) _ | .endTag (some quote) _ => some (.unclosedQuote quote)
  | .startTag none _ | .endTag none _ => some .unclosedTag

def finish (scanner : Scanner) : List Event :=
  match endFault? scanner.mode with
  | none => scanner.events.reverse
  | some fault => (Event.fault fault :: scanner.events).reverse

end Scanner

/-- A byte order mark in front is not part of the text. -/
def dropMark : List Char → List Char
  | '\uFEFF' :: text => text
  | text => text

/-- The events of a document. -/
def events (text : String) : List Event :=
  ((dropMark text.toList).foldl Scanner.step {}).finish

end JavaStubs.Markup
