import JavaStubs.StandardLibrary.Terms

namespace JavaStubs.StandardLibrary

def serializable : Descriptor where
  name := ⟨"java.io.Serializable"⟩
  kind := .interface

def ioException : Descriptor where
  name := ⟨"java.io.IOException"⟩
  kind := .concreteClass
  superclass := some ⟨⟨"java.lang.Exception"⟩, []⟩
  constructors := [
    {},
    { parameters := [cls "java.lang.String"] }]

def closeable : Descriptor where
  name := ⟨"java.io.Closeable"⟩
  kind := .interface
  interfaces := [⟨⟨"java.lang.AutoCloseable"⟩, []⟩]
  methods := [
    { name := "close", owner := ⟨"java.io.Closeable"⟩, throwing := [cls "java.io.IOException"],
      isAbstract := true }]

def flushable : Descriptor where
  name := ⟨"java.io.Flushable"⟩
  kind := .interface
  methods := [
    { name := "flush", owner := ⟨"java.io.Flushable"⟩, throwing := [cls "java.io.IOException"],
      isAbstract := true }]

def inputStream : Descriptor where
  name := ⟨"java.io.InputStream"⟩
  kind := .abstractClass
  superclass := some ⟨⟨"java.lang.Object"⟩, []⟩
  interfaces := [⟨⟨"java.io.Closeable"⟩, []⟩]
  methods := [
    { name := "read", owner := ⟨"java.io.InputStream"⟩, result := .prim .int,
      throwing := [cls "java.io.IOException"], isAbstract := true },
    { name := "read", owner := ⟨"java.io.InputStream"⟩, parameters := [.array (.prim .byte)],
      result := .prim .int, throwing := [cls "java.io.IOException"] },
    { name := "read", owner := ⟨"java.io.InputStream"⟩,
      parameters := [.array (.prim .byte), .prim .int, .prim .int], result := .prim .int,
      throwing := [cls "java.io.IOException"] },
    { name := "skip", owner := ⟨"java.io.InputStream"⟩, parameters := [.prim .long],
      result := .prim .long, throwing := [cls "java.io.IOException"] },
    { name := "available", owner := ⟨"java.io.InputStream"⟩, result := .prim .int,
      throwing := [cls "java.io.IOException"] },
    { name := "close", owner := ⟨"java.io.InputStream"⟩, throwing := [cls "java.io.IOException"] },
    { name := "mark", owner := ⟨"java.io.InputStream"⟩, parameters := [.prim .int] },
    { name := "reset", owner := ⟨"java.io.InputStream"⟩, throwing := [cls "java.io.IOException"] },
    { name := "markSupported", owner := ⟨"java.io.InputStream"⟩, result := .prim .boolean }]
  constructors := [{}]

def outputStream : Descriptor where
  name := ⟨"java.io.OutputStream"⟩
  kind := .abstractClass
  superclass := some ⟨⟨"java.lang.Object"⟩, []⟩
  interfaces := [⟨⟨"java.io.Closeable"⟩, []⟩, ⟨⟨"java.io.Flushable"⟩, []⟩]
  methods := [
    { name := "write", owner := ⟨"java.io.OutputStream"⟩, parameters := [.prim .int],
      throwing := [cls "java.io.IOException"], isAbstract := true },
    { name := "write", owner := ⟨"java.io.OutputStream"⟩, parameters := [.array (.prim .byte)],
      throwing := [cls "java.io.IOException"] },
    { name := "write", owner := ⟨"java.io.OutputStream"⟩,
      parameters := [.array (.prim .byte), .prim .int, .prim .int],
      throwing := [cls "java.io.IOException"] },
    { name := "flush", owner := ⟨"java.io.OutputStream"⟩,
      throwing := [cls "java.io.IOException"] },
    { name := "close", owner := ⟨"java.io.OutputStream"⟩,
      throwing := [cls "java.io.IOException"] }]
  constructors := [{}]

def reader : Descriptor where
  name := ⟨"java.io.Reader"⟩
  kind := .abstractClass
  superclass := some ⟨⟨"java.lang.Object"⟩, []⟩
  interfaces := [⟨⟨"java.lang.Readable"⟩, []⟩, ⟨⟨"java.io.Closeable"⟩, []⟩]
  methods := [
    { name := "read", owner := ⟨"java.io.Reader"⟩, parameters := [cls "java.nio.CharBuffer"],
      result := .prim .int, throwing := [cls "java.io.IOException"] },
    { name := "read", owner := ⟨"java.io.Reader"⟩, result := .prim .int,
      throwing := [cls "java.io.IOException"] },
    { name := "read", owner := ⟨"java.io.Reader"⟩, parameters := [.array (.prim .char)],
      result := .prim .int, throwing := [cls "java.io.IOException"] },
    { name := "read", owner := ⟨"java.io.Reader"⟩,
      parameters := [.array (.prim .char), .prim .int, .prim .int], result := .prim .int,
      throwing := [cls "java.io.IOException"], isAbstract := true },
    { name := "skip", owner := ⟨"java.io.Reader"⟩, parameters := [.prim .long],
      result := .prim .long, throwing := [cls "java.io.IOException"] },
    { name := "ready", owner := ⟨"java.io.Reader"⟩, result := .prim .boolean,
      throwing := [cls "java.io.IOException"] },
    { name := "markSupported", owner := ⟨"java.io.Reader"⟩, result := .prim .boolean },
    { name := "mark", owner := ⟨"java.io.Reader"⟩, parameters := [.prim .int],
      throwing := [cls "java.io.IOException"] },
    { name := "reset", owner := ⟨"java.io.Reader"⟩, throwing := [cls "java.io.IOException"] },
    { name := "close", owner := ⟨"java.io.Reader"⟩, throwing := [cls "java.io.IOException"],
      isAbstract := true }]
  constructors := [
    { access := .protectedAccess },
    { parameters := [cls "java.lang.Object"], access := .protectedAccess }]

def writer : Descriptor where
  name := ⟨"java.io.Writer"⟩
  kind := .abstractClass
  superclass := some ⟨⟨"java.lang.Object"⟩, []⟩
  interfaces := [⟨⟨"java.lang.Appendable"⟩, []⟩, ⟨⟨"java.io.Closeable"⟩, []⟩,
    ⟨⟨"java.io.Flushable"⟩, []⟩]
  methods := [
    { name := "write", owner := ⟨"java.io.Writer"⟩, parameters := [.prim .int],
      throwing := [cls "java.io.IOException"] },
    { name := "write", owner := ⟨"java.io.Writer"⟩, parameters := [.array (.prim .char)],
      throwing := [cls "java.io.IOException"] },
    { name := "write", owner := ⟨"java.io.Writer"⟩,
      parameters := [.array (.prim .char), .prim .int, .prim .int],
      throwing := [cls "java.io.IOException"], isAbstract := true },
    { name := "write", owner := ⟨"java.io.Writer"⟩, parameters := [cls "java.lang.String"],
      throwing := [cls "java.io.IOException"] },
    { name := "write", owner := ⟨"java.io.Writer"⟩,
      parameters := [cls "java.lang.String", .prim .int, .prim .int],
      throwing := [cls "java.io.IOException"] },
    { name := "append", owner := ⟨"java.io.Writer"⟩, parameters := [cls "java.lang.CharSequence"],
      result := cls "java.io.Writer", throwing := [cls "java.io.IOException"] },
    { name := "append", owner := ⟨"java.io.Writer"⟩,
      parameters := [cls "java.lang.CharSequence", .prim .int, .prim .int],
      result := cls "java.io.Writer", throwing := [cls "java.io.IOException"] },
    { name := "append", owner := ⟨"java.io.Writer"⟩, parameters := [.prim .char],
      result := cls "java.io.Writer", throwing := [cls "java.io.IOException"] },
    { name := "flush", owner := ⟨"java.io.Writer"⟩, throwing := [cls "java.io.IOException"],
      isAbstract := true },
    { name := "close", owner := ⟨"java.io.Writer"⟩, throwing := [cls "java.io.IOException"],
      isAbstract := true }]
  constructors := [
    { access := .protectedAccess },
    { parameters := [cls "java.lang.Object"], access := .protectedAccess }]

def ioTypes : List Descriptor := [serializable, ioException, closeable, flushable, inputStream,
  outputStream, reader, writer]

end JavaStubs.StandardLibrary
