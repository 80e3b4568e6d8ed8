import JavaStubs.Files.Path
import JavaStubs.Name

namespace JavaStubs

structure Naming where
  /-- Goes behind the simple name of the root. -/
  suffix : String := "Impl"
  extension : String := "java"
  deriving DecidableEq, Repr

namespace Naming

/-- The class generated for a root, in the same package. -/
def generatedName (naming : Naming) (root : QualName) : QualName :=
  root.sibling (root.simple ++ naming.suffix)

/-- The file of a generated class below an output directory. -/
def targetPath (naming : Naming) (output : Path) (generated : QualName) : Path :=
  Path.inPackage output generated.packageSegments (generated.simple ++ "." ++ naming.extension)

end Naming

end JavaStubs
