import JavaStubs.StandardLibrary.Terms

namespace JavaStubs.StandardLibrary

def guard : Descriptor where
  name := ⟨"java.security.Guard"⟩
  kind := .interface
  methods := [
    { name := "checkGuard", owner := ⟨"java.security.Guard"⟩,
      parameters := [cls "java.lang.Object"], isAbstract := true }]

def permission : Descriptor where
  name := ⟨"java.security.Permission"⟩
  kind := .abstractClass
  superclass := some ⟨⟨"java.lang.Object"⟩, []⟩
  interfaces := [⟨⟨"java.security.Guard"⟩, []⟩, ⟨⟨"java.io.Serializable"⟩, []⟩]
  methods := [
    { name := "checkGuard", owner := ⟨"java.security.Permission"⟩,
      parameters := [cls "java.lang.Object"] },
    { name := "implies", owner := ⟨"java.security.Permission"⟩,
      parameters := [cls "java.security.Permission"], result := .prim .boolean,
      isAbstract := true },
    { name := "equals", owner := ⟨"java.security.Permission"⟩,
      parameters := [cls "java.lang.Object"], result := .prim .boolean, isAbstract := true },
    { name := "hashCode", owner := ⟨"java.security.Permission"⟩, result := .prim .int,
      isAbstract := true },
    { name := "getName", owner := ⟨"java.security.Permission"⟩, result := cls "java.lang.String",
      isFinal := true },
    { name := "getActions", owner := ⟨"java.security.Permission"⟩,
      result := cls "java.lang.String", isAbstract := true },
    { name := "newPermissionCollection", owner := ⟨"java.security.Permission"⟩,
      result := cls "java.security.PermissionCollection" },
    { name := "toString", owner := ⟨"java.security.Permission"⟩,
      result := cls "java.lang.String" }]
  constructors := [
    { parameters := [cls "java.lang.String"] }]

def securityTypes : List Descriptor := [guard, permission]

end JavaStubs.StandardLibrary
