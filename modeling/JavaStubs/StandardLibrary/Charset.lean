import JavaStubs.StandardLibrary.Terms

namespace JavaStubs.StandardLibrary

def charset : Descriptor where
  name := ⟨"java.nio.charset.Charset"⟩
  kind := .abstractClass
  superclass := some ⟨⟨"java.lang.Object"⟩, []⟩
  interfaces := [⟨⟨"java.lang.Comparable"⟩, [cls "java.nio.charset.Charset"]⟩]
  methods := [
    { name := "forName", owner := ⟨"java.nio.charset.Charset"⟩,
      parameters := [cls "java.lang.String"], result := cls "java.nio.charset.Charset",
      isStatic := true },
    { name := "defaultCharset", owner := ⟨"java.nio.charset.Charset"⟩,
      result := cls "java.nio.charset.Charset", isStatic := true },
    { name := "name", owner := ⟨"java.nio.charset.Charset"⟩, result := cls "java.lang.String",
      isFinal := true },
    { name := "aliases", owner := ⟨"java.nio.charset.Charset"⟩,
      result := cls "java.util.Set" [cls "java.lang.String"], isFinal := true },
    { name := "displayName", owner := ⟨"java.nio.charset.Charset"⟩,
      result := cls "java.lang.String" },
    { name := "isRegistered", owner := ⟨"java.nio.charset.Charset"⟩, result := .prim .boolean,
      isFinal := true },
    { name := "contains", owner := ⟨"java.nio.charset.Charset"⟩,
      parameters := [cls "java.nio.charset.Charset"], result := .prim .boolean,
      isAbstract := true },
    { name := "newDecoder", owner := ⟨"java.nio.charset.Charset"⟩,
      result := cls "java.nio.charset.CharsetDecoder", isAbstract := true },
    { name := "newEncoder", owner := ⟨"java.nio.charset.Charset"⟩,
      result := cls "java.nio.charset.CharsetEncoder", isAbstract := true },
    { name := "canEncode", owner := ⟨"java.nio.charset.Charset"⟩, result := .prim .boolean },
    { name := "compareTo", owner := ⟨"java.nio.charset.Charset"⟩,
      parameters := [cls "java.nio.charset.Charset"], result := .prim .int, isFinal := true },
    { name := "hashCode", owner := ⟨"java.nio.charset.Charset"⟩, result := .prim .int,
      isFinal := true },
    { name := "equals", owner := ⟨"java.nio.charset.Charset"⟩,
      parameters := [cls "java.lang.Object"], result := .prim .boolean, isFinal := true },
    { name := "toString", owner := ⟨"java.nio.charset.Charset"⟩, result := cls "java.lang.String",
      isFinal := true }]
  constructors := [
    { parameters := [cls "java.lang.String", .array (cls "java.lang.String")],
      access := .protectedAccess }]

def charsetTypes : List Descriptor := [charset]

end JavaStubs.StandardLibrary
