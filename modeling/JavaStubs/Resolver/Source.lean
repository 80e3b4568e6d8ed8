import JavaStubs.Descriptor.Index
import JavaStubs.Descriptor.Reader
import JavaStubs.Resolver.Error
import JavaStubs.StandardLibrary.Index

namespace JavaStubs

inductive Source
  | inMemory (label : String) (types : DescriptorIndex)
  | directory (root : Path)

namespace Source

def describe : Source → String
  | .inMemory label _ => label
  | .directory root => "directory " ++ root

/-- The file that describes a type below a root. -/
def pathFor (root : Path) (name : QualName) : Path :=
  Path.inPackage root name.packageSegments (name.simple ++ ".xml")

/-- Reads a file that must describe the named type and no other. -/
def readFile (fs : FileSystem) (path : Path) (name : QualName) :
    Except ResolveError Descriptor := do
  let text ← (fs.readText path).mapError (.unreadable path)
  let d ← (Descriptor.parseOne text).mapError (.descriptor name.text)
  if d.name ≠ name then throw (.nameMismatch name d.name)
  d.validate.mapError .validity
  return d

/-- The descriptor of a type, if the source knows it. -/
def load (fs : FileSystem) (source : Source) (name : QualName) :
    Except ResolveError (Option Descriptor) :=
  match source with
  | .inMemory _ types => .ok (types.get? name)
  | .directory root =>
    let path := pathFor root name
    if fs.isFile path then (readFile fs path name).map some else .ok none

/-- The first source that knows a name decides. -/
def loadFirst (fs : FileSystem) : List Source → QualName → Except ResolveError Descriptor
  | [], name => .error (.notFound name)
  | source :: sources, name => do
    match ← source.load fs name with
    | some d => return d
    | none => loadFirst fs sources name

/-- A bound on the number of types that a source can describe. -/
def size (fs : FileSystem) : Source → Nat
  | .inMemory _ types => types.size
  | .directory _ => fs.nodes.length

/-- The types of a document, each valid by itself. -/
def ofDocument (label text : String) : Except ResolveError Source := do
  let descriptors ← (Descriptor.parseAll text).mapError (.descriptor label)
  descriptors.forM fun d => d.validate.mapError .validity
  let index ← (DescriptorIndex.ofList descriptors).mapError (.descriptor label)
  return .inMemory label index

def standardLibrary : Source := Source.inMemory "<standard library>" StandardLibrary.index

end Source

end JavaStubs
