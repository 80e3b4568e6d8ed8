import JavaStubs.StandardLibrary.Terms

namespace JavaStubs.StandardLibrary

def function : Descriptor where
  name := ⟨"java.util.function.Function"⟩
  kind := .interface
  typeParameters := [⟨"T", []⟩, ⟨"R", []⟩]
  methods := [
    { name := "apply", owner := ⟨"java.util.function.Function"⟩, parameters := [.var "T"],
      result := .var "R", isAbstract := true },
    { name := "compose", owner := ⟨"java.util.function.Function"⟩, typeParameters := [⟨"V", []⟩],
      parameters := [cls "java.util.function.Function" [.lower (.var "V"), .upper (.var "T")]],
      result := cls "java.util.function.Function" [.var "V", .var "R"] },
    { name := "andThen", owner := ⟨"java.util.function.Function"⟩, typeParameters := [⟨"V", []⟩],
      parameters := [cls "java.util.function.Function" [.lower (.var "R"), .upper (.var "V")]],
      result := cls "java.util.function.Function" [.var "T", .var "V"] },
    { name := "identity", owner := ⟨"java.util.function.Function"⟩, typeParameters := [⟨"U", []⟩],
      result := cls "java.util.function.Function" [.var "U", .var "U"], isStatic := true }]

def biFunction : Descriptor where
  name := ⟨"java.util.function.BiFunction"⟩
  kind := .interface
  typeParameters := [⟨"T", []⟩, ⟨"U", []⟩, ⟨"R", []⟩]
  methods := [
    { name := "apply", owner := ⟨"java.util.function.BiFunction"⟩,
      parameters := [.var "T", .var "U"], result := .var "R", isAbstract := true },
    { name := "andThen", owner := ⟨"java.util.function.BiFunction"⟩,
      typeParameters := [⟨"V", []⟩],
      parameters := [cls "java.util.function.Function" [.lower (.var "R"), .upper (.var "V")]],
      result := cls "java.util.function.BiFunction" [.var "T", .var "U", .var "V"] }]

def unaryOperator : Descriptor where
  name := ⟨"java.util.function.UnaryOperator"⟩
  kind := .interface
  typeParameters := [⟨"T", []⟩]
  interfaces := [⟨⟨"java.util.function.Function"⟩, [.var "T", .var "T"]⟩]
  methods := [
    { name := "identity", owner := ⟨"java.util.function.UnaryOperator"⟩,
      typeParameters := [⟨"U", []⟩], result := cls "java.util.function.UnaryOperator" [.var "U"],
      isStatic := true }]

def supplier : Descriptor where
  name := ⟨"java.util.function.Supplier"⟩
  kind := .interface
  typeParameters := [⟨"T", []⟩]
  methods := [
    { name := "get", owner := ⟨"java.util.function.Supplier"⟩, result := .var "T",
      isAbstract := true }]

def consumer : Descriptor where
  name := ⟨"java.util.function.Consumer"⟩
  kind := .interface
  typeParameters := [⟨"T", []⟩]
  methods := [
    { name := "accept", owner := ⟨"java.util.function.Consumer"⟩, parameters := [.var "T"],
      isAbstract := true },
    { name := "andThen", owner := ⟨"java.util.function.Consumer"⟩,
      parameters := [cls "java.util.function.Consumer" [.lower (.var "T")]],
      result := cls "java.util.function.Consumer" [.var "T"] }]

def predicate : Descriptor where
  name := ⟨"java.util.function.Predicate"⟩
  kind := .interface
  typeParameters := [⟨"T", []⟩]
  methods := [
    { name := "test", owner := ⟨"java.util.function.Predicate"⟩, parameters := [.var "T"],
      result := .prim .boolean, isAbstract := true },
    { name := "and", owner := ⟨"java.util.function.Predicate"⟩,
      parameters := [cls "java.util.function.Predicate" [.lower (.var "T")]],
      result := cls "java.util.function.Predicate" [.var "T"] },
    { name := "negate", owner := ⟨"java.util.function.Predicate"⟩,
      result := cls "java.util.function.Predicate" [.var "T"] },
    { name := "or", owner := ⟨"java.util.function.Predicate"⟩,
      parameters := [cls "java.util.function.Predicate" [.lower (.var "T")]],
      result := cls "java.util.function.Predicate" [.var "T"] }]

def intBinaryOperator : Descriptor where
  name := ⟨"java.util.function.IntBinaryOperator"⟩
  kind := .interface
  methods := [
    { name := "applyAsInt", owner := ⟨"java.util.function.IntBinaryOperator"⟩,
      parameters := [.prim .int, .prim .int], result := .prim .int, isAbstract := true }]

def functionTypes : List Descriptor := [function, biFunction, unaryOperator, supplier, consumer,
  predicate, intBinaryOperator]

end JavaStubs.StandardLibrary
