import JavaStubs.Model

namespace JavaStubs

/-- What a document says about one type. Supertypes are references here, not yet linked. -/
structure Descriptor where
  name : QualName
  kind : Kind
  access : Access := .publicAccess
  isFinal : Bool := false
  typeParameters : List TypeParameter := []
  superclass : Option ClassRef := none
  interfaces : List ClassRef := []
  methods : List Method := []
  constructors : List Constructor := []
  deriving DecidableEq, Repr

namespace Descriptor

def erasureScope (d : Descriptor) : ErasureScope :=
  ErasureScope.extend [] d.typeParameters

/-- The superclass, if any, and then the interfaces. -/
def references (d : Descriptor) : List ClassRef :=
  d.superclass.toList ++ d.interfaces

end Descriptor

end JavaStubs
