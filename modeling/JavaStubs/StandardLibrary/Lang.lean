import JavaStubs.StandardLibrary.Terms

namespace JavaStubs.StandardLibrary

def object : Descriptor where
  name := ⟨"java.lang.Object"⟩
  kind := .concreteClass
  methods := [
    { name := "equals", owner := ⟨"java.lang.Object"⟩, parameters := [cls "java.lang.Object"],
      result := .prim .boolean },
    { name := "hashCode", owner := ⟨"java.lang.Object"⟩, result := .prim .int },
    { name := "toString", owner := ⟨"java.lang.Object"⟩, result := cls "java.lang.String" },
    { name := "getClass", owner := ⟨"java.lang.Object"⟩, result := cls "java.lang.Class" [.any],
      isFinal := true },
    { name := "notify", owner := ⟨"java.lang.Object"⟩, isFinal := true },
    { name := "notifyAll", owner := ⟨"java.lang.Object"⟩, isFinal := true },
    { name := "wait", owner := ⟨"java.lang.Object"⟩,
      throwing := [cls "java.lang.InterruptedException"], isFinal := true },
    { name := "clone", owner := ⟨"java.lang.Object"⟩, result := cls "java.lang.Object",
      throwing := [cls "java.lang.CloneNotSupportedException"], access := .protectedAccess },
    { name := "finalize", owner := ⟨"java.lang.Object"⟩, throwing := [cls "java.lang.Throwable"],
      access := .protectedAccess }]
  constructors := [{}]

def runnable : Descriptor where
  name := ⟨"java.lang.Runnable"⟩
  kind := .interface
  methods := [
    { name := "run", owner := ⟨"java.lang.Runnable"⟩, isAbstract := true }]

def cloneable : Descriptor where
  name := ⟨"java.lang.Cloneable"⟩
  kind := .interface

def autoCloseable : Descriptor where
  name := ⟨"java.lang.AutoCloseable"⟩
  kind := .interface
  methods := [
    { name := "close", owner := ⟨"java.lang.AutoCloseable"⟩,
      throwing := [cls "java.lang.Exception"], isAbstract := true }]

def comparable : Descriptor where
  name := ⟨"java.lang.Comparable"⟩
  kind := .interface
  typeParameters := [⟨"T", []⟩]
  methods := [
    { name := "compareTo", owner := ⟨"java.lang.Comparable"⟩, parameters := [.var "T"],
      result := .prim .int, isAbstract := true }]

def charSequence : Descriptor where
  name := ⟨"java.lang.CharSequence"⟩
  kind := .interface
  methods := [
    { name := "length", owner := ⟨"java.lang.CharSequence"⟩, result := .prim .int,
      isAbstract := true },
    { name := "charAt", owner := ⟨"java.lang.CharSequence"⟩, parameters := [.prim .int],
      result := .prim .char, isAbstract := true },
    { name := "subSequence", owner := ⟨"java.lang.CharSequence"⟩,
      parameters := [.prim .int, .prim .int], result := cls "java.lang.CharSequence",
      isAbstract := true },
    { name := "toString", owner := ⟨"java.lang.CharSequence"⟩, result := cls "java.lang.String",
      isAbstract := true },
    { name := "isEmpty", owner := ⟨"java.lang.CharSequence"⟩, result := .prim .boolean }]

def iterable : Descriptor where
  name := ⟨"java.lang.Iterable"⟩
  kind := .interface
  typeParameters := [⟨"T", []⟩]
  methods := [
    { name := "iterator", owner := ⟨"java.lang.Iterable"⟩,
      result := cls "java.util.Iterator" [.var "T"], isAbstract := true },
    { name := "forEach", owner := ⟨"java.lang.Iterable"⟩,
      parameters := [cls "java.util.function.Consumer" [.lower (.var "T")]] }]

def appendable : Descriptor where
  name := ⟨"java.lang.Appendable"⟩
  kind := .interface
  methods := [
    { name := "append", owner := ⟨"java.lang.Appendable"⟩,
      parameters := [cls "java.lang.CharSequence"], result := cls "java.lang.Appendable",
      throwing := [cls "java.io.IOException"], isAbstract := true },
    { name := "append", owner := ⟨"java.lang.Appendable"⟩,
      parameters := [cls "java.lang.CharSequence", .prim .int, .prim .int],
      result := cls "java.lang.Appendable", throwing := [cls "java.io.IOException"],
      isAbstract := true },
    { name := "append", owner := ⟨"java.lang.Appendable"⟩, parameters := [.prim .char],
      result := cls "java.lang.Appendable", throwing := [cls "java.io.IOException"],
      isAbstract := true }]

def readable : Descriptor where
  name := ⟨"java.lang.Readable"⟩
  kind := .interface
  methods := [
    { name := "read", owner := ⟨"java.lang.Readable"⟩, parameters := [cls "java.nio.CharBuffer"],
      result := .prim .int, throwing := [cls "java.io.IOException"], isAbstract := true }]

def string : Descriptor where
  name := ⟨"java.lang.String"⟩
  kind := .concreteClass
  isFinal := true
  superclass := some ⟨⟨"java.lang.Object"⟩, []⟩
  interfaces := [⟨⟨"java.io.Serializable"⟩, []⟩,
    ⟨⟨"java.lang.Comparable"⟩, [cls "java.lang.String"]⟩, ⟨⟨"java.lang.CharSequence"⟩, []⟩]
  methods := [
    { name := "length", owner := ⟨"java.lang.String"⟩, result := .prim .int },
    { name := "isEmpty", owner := ⟨"java.lang.String"⟩, result := .prim .boolean },
    { name := "charAt", owner := ⟨"java.lang.String"⟩, parameters := [.prim .int],
      result := .prim .char },
    { name := "subSequence", owner := ⟨"java.lang.String"⟩,
      parameters := [.prim .int, .prim .int], result := cls "java.lang.CharSequence" },
    { name := "compareTo", owner := ⟨"java.lang.String"⟩, parameters := [cls "java.lang.String"],
      result := .prim .int },
    { name := "equals", owner := ⟨"java.lang.String"⟩, parameters := [cls "java.lang.Object"],
      result := .prim .boolean },
    { name := "hashCode", owner := ⟨"java.lang.String"⟩, result := .prim .int },
    { name := "toString", owner := ⟨"java.lang.String"⟩, result := cls "java.lang.String" },
    { name := "valueOf", owner := ⟨"java.lang.String"⟩, parameters := [cls "java.lang.Object"],
      result := cls "java.lang.String", isStatic := true }]
  constructors := [
    {},
    { parameters := [cls "java.lang.String"] },
    { parameters := [.array (.prim .char)] }]

def number : Descriptor where
  name := ⟨"java.lang.Number"⟩
  kind := .abstractClass
  superclass := some ⟨⟨"java.lang.Object"⟩, []⟩
  interfaces := [⟨⟨"java.io.Serializable"⟩, []⟩]
  methods := [
    { name := "intValue", owner := ⟨"java.lang.Number"⟩, result := .prim .int,
      isAbstract := true },
    { name := "longValue", owner := ⟨"java.lang.Number"⟩, result := .prim .long,
      isAbstract := true },
    { name := "floatValue", owner := ⟨"java.lang.Number"⟩, result := .prim .float,
      isAbstract := true },
    { name := "doubleValue", owner := ⟨"java.lang.Number"⟩, result := .prim .double,
      isAbstract := true },
    { name := "byteValue", owner := ⟨"java.lang.Number"⟩, result := .prim .byte },
    { name := "shortValue", owner := ⟨"java.lang.Number"⟩, result := .prim .short }]
  constructors := [{}]

def integer : Descriptor where
  name := ⟨"java.lang.Integer"⟩
  kind := .concreteClass
  isFinal := true
  superclass := some ⟨⟨"java.lang.Number"⟩, []⟩
  interfaces := [⟨⟨"java.lang.Comparable"⟩, [cls "java.lang.Integer"]⟩]
  methods := [
    { name := "intValue", owner := ⟨"java.lang.Integer"⟩, result := .prim .int },
    { name := "longValue", owner := ⟨"java.lang.Integer"⟩, result := .prim .long },
    { name := "floatValue", owner := ⟨"java.lang.Integer"⟩, result := .prim .float },
    { name := "doubleValue", owner := ⟨"java.lang.Integer"⟩, result := .prim .double },
    { name := "compareTo", owner := ⟨"java.lang.Integer"⟩,
      parameters := [cls "java.lang.Integer"], result := .prim .int },
    { name := "valueOf", owner := ⟨"java.lang.Integer"⟩, parameters := [.prim .int],
      result := cls "java.lang.Integer", isStatic := true }]
  constructors := [
    { parameters := [.prim .int] }]

def throwable : Descriptor where
  name := ⟨"java.lang.Throwable"⟩
  kind := .concreteClass
  superclass := some ⟨⟨"java.lang.Object"⟩, []⟩
  interfaces := [⟨⟨"java.io.Serializable"⟩, []⟩]
  methods := [
    { name := "getMessage", owner := ⟨"java.lang.Throwable"⟩, result := cls "java.lang.String" },
    { name := "getCause", owner := ⟨"java.lang.Throwable"⟩, result := cls "java.lang.Throwable" }]
  constructors := [
    {},
    { parameters := [cls "java.lang.String"] },
    { parameters := [cls "java.lang.String", cls "java.lang.Throwable"] },
    { parameters := [cls "java.lang.Throwable"] }]

def exception : Descriptor where
  name := ⟨"java.lang.Exception"⟩
  kind := .concreteClass
  superclass := some ⟨⟨"java.lang.Throwable"⟩, []⟩
  constructors := [
    {},
    { parameters := [cls "java.lang.String"] }]

def runtimeException : Descriptor where
  name := ⟨"java.lang.RuntimeException"⟩
  kind := .concreteClass
  superclass := some ⟨⟨"java.lang.Exception"⟩, []⟩
  constructors := [
    {},
    { parameters := [cls "java.lang.String"] }]

def illegalArgumentException : Descriptor where
  name := ⟨"java.lang.IllegalArgumentException"⟩
  kind := .concreteClass
  superclass := some ⟨⟨"java.lang.RuntimeException"⟩, []⟩
  constructors := [
    {},
    { parameters := [cls "java.lang.String"] }]

def illegalStateException : Descriptor where
  name := ⟨"java.lang.IllegalStateException"⟩
  kind := .concreteClass
  superclass := some ⟨⟨"java.lang.RuntimeException"⟩, []⟩
  constructors := [
    {},
    { parameters := [cls "java.lang.String"] }]

def unsupportedOperationException : Descriptor where
  name := ⟨"java.lang.UnsupportedOperationException"⟩
  kind := .concreteClass
  superclass := some ⟨⟨"java.lang.RuntimeException"⟩, []⟩
  constructors := [
    {},
    { parameters := [cls "java.lang.String"] }]

def error : Descriptor where
  name := ⟨"java.lang.Error"⟩
  kind := .concreteClass
  superclass := some ⟨⟨"java.lang.Throwable"⟩, []⟩
  constructors := [
    {},
    { parameters := [cls "java.lang.String"] }]

def cloneNotSupportedException : Descriptor where
  name := ⟨"java.lang.CloneNotSupportedException"⟩
  kind := .concreteClass
  superclass := some ⟨⟨"java.lang.Exception"⟩, []⟩
  constructors := [{}]

def interruptedException : Descriptor where
  name := ⟨"java.lang.InterruptedException"⟩
  kind := .concreteClass
  superclass := some ⟨⟨"java.lang.Exception"⟩, []⟩
  constructors := [{}]

def langTypes : List Descriptor := [object, runnable, cloneable, autoCloseable, comparable,
  charSequence, iterable, appendable, readable, string, number, integer, throwable, exception,
  runtimeException, illegalArgumentException, illegalStateException,
  unsupportedOperationException, error, cloneNotSupportedException, interruptedException]

end JavaStubs.StandardLibrary
