import JavaStubs.Markup.Event

namespace JavaStubs.Markup

/-- How an element ends: by its own tag, by an end tag, or because the document stops inside it, at
a fault or at the end of the input. -/
inductive Ending
  | selfClosed
  | closed
  | cut (fault : Option MarkupFault)
  deriving DecidableEq, Repr

inductive Element
  | node (tag : Tag) (children : List Element) (ending : Ending)

namespace Element

def tag : Element → Tag
  | .node tag _ _ => tag

def name (element : Element) : String := element.tag.name

def children : Element → List Element
  | .node _ children _ => children

def ending : Element → Ending
  | .node _ _ ending => ending

end Element

/-- The top-level elements, and the fault that ended the document early, if any. -/
structure Document where
  elements : List Element
  fault : Option MarkupFault

namespace Document

/-- An open element with the siblings before it, the nearest first. -/
abbrev Frame := Tag × List Element

/-- Cuts every open element; `done` are the children of the innermost, the last one first. -/
def cutOff (fault : Option MarkupFault) : List Frame → List Element → Document
  | [], done => ⟨done.reverse, fault⟩
  | (tag, before) :: frames, done =>
    cutOff fault frames (.node tag done.reverse (.cut fault) :: before)

def build : List Frame → List Element → List Event → Document
  | frames, done, [] => cutOff none frames done
  | frames, done, .fault fault :: _ => cutOff (some fault) frames done
  | frames, done, .empty tag :: rest => build frames (.node tag [] .selfClosed :: done) rest
  | frames, done, .opening tag :: rest => build ((tag, done) :: frames) [] rest
  | (tag, before) :: frames, done, .closing :: rest =>
    build frames (.node tag done.reverse .closed :: before) rest
  | [], done, .closing :: rest => build [] done rest

def parse (text : String) : Document := build [] [] (events text)

end Document

end JavaStubs.Markup
