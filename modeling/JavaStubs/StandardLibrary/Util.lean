import JavaStubs.StandardLibrary.Terms

namespace JavaStubs.StandardLibrary

def iterator : Descriptor where
  name := ⟨"java.util.Iterator"⟩
  kind := .interface
  typeParameters := [⟨"E", []⟩]
  methods := [
    { name := "hasNext", owner := ⟨"java.util.Iterator"⟩, result := .prim .boolean,
      isAbstract := true },
    { name := "next", owner := ⟨"java.util.Iterator"⟩, result := .var "E", isAbstract := true },
    { name := "remove", owner := ⟨"java.util.Iterator"⟩ },
    { name := "forEachRemaining", owner := ⟨"java.util.Iterator"⟩,
      parameters := [cls "java.util.function.Consumer" [.lower (.var "E")]] }]

def collection : Descriptor where
  name := ⟨"java.util.Collection"⟩
  kind := .interface
  typeParameters := [⟨"E", []⟩]
  interfaces := [⟨⟨"java.lang.Iterable"⟩, [.var "E"]⟩]
  methods := [
    { name := "size", owner := ⟨"java.util.Collection"⟩, result := .prim .int,
      isAbstract := true },
    { name := "isEmpty", owner := ⟨"java.util.Collection"⟩, result := .prim .boolean,
      isAbstract := true },
    { name := "contains", owner := ⟨"java.util.Collection"⟩,
      parameters := [cls "java.lang.Object"], result := .prim .boolean, isAbstract := true },
    { name := "iterator", owner := ⟨"java.util.Collection"⟩,
      result := cls "java.util.Iterator" [.var "E"], isAbstract := true },
    { name := "toArray", owner := ⟨"java.util.Collection"⟩,
      result := .array (cls "java.lang.Object"), isAbstract := true },
    { name := "toArray", owner := ⟨"java.util.Collection"⟩, typeParameters := [⟨"T", []⟩],
      parameters := [.array (.var "T")], result := .array (.var "T"), isAbstract := true },
    { name := "add", owner := ⟨"java.util.Collection"⟩, parameters := [.var "E"],
      result := .prim .boolean, isAbstract := true },
    { name := "remove", owner := ⟨"java.util.Collection"⟩, parameters := [cls "java.lang.Object"],
      result := .prim .boolean, isAbstract := true },
    { name := "containsAll", owner := ⟨"java.util.Collection"⟩,
      parameters := [cls "java.util.Collection" [.any]], result := .prim .boolean,
      isAbstract := true },
    { name := "addAll", owner := ⟨"java.util.Collection"⟩,
      parameters := [cls "java.util.Collection" [.upper (.var "E")]], result := .prim .boolean,
      isAbstract := true },
    { name := "removeAll", owner := ⟨"java.util.Collection"⟩,
      parameters := [cls "java.util.Collection" [.any]], result := .prim .boolean,
      isAbstract := true },
    { name := "removeIf", owner := ⟨"java.util.Collection"⟩,
      parameters := [cls "java.util.function.Predicate" [.lower (.var "E")]],
      result := .prim .boolean },
    { name := "retainAll", owner := ⟨"java.util.Collection"⟩,
      parameters := [cls "java.util.Collection" [.any]], result := .prim .boolean,
      isAbstract := true },
    { name := "clear", owner := ⟨"java.util.Collection"⟩, isAbstract := true },
    { name := "equals", owner := ⟨"java.util.Collection"⟩, parameters := [cls "java.lang.Object"],
      result := .prim .boolean, isAbstract := true },
    { name := "hashCode", owner := ⟨"java.util.Collection"⟩, result := .prim .int,
      isAbstract := true }]

def list : Descriptor where
  name := ⟨"java.util.List"⟩
  kind := .interface
  typeParameters := [⟨"E", []⟩]
  interfaces := [⟨⟨"java.util.Collection"⟩, [.var "E"]⟩]
  methods := [
    { name := "size", owner := ⟨"java.util.List"⟩, result := .prim .int, isAbstract := true },
    { name := "isEmpty", owner := ⟨"java.util.List"⟩, result := .prim .boolean,
      isAbstract := true },
    { name := "contains", owner := ⟨"java.util.List"⟩, parameters := [cls "java.lang.Object"],
      result := .prim .boolean, isAbstract := true },
    { name := "iterator", owner := ⟨"java.util.List"⟩,
      result := cls "java.util.Iterator" [.var "E"], isAbstract := true },
    { name := "toArray", owner := ⟨"java.util.List"⟩, result := .array (cls "java.lang.Object"),
      isAbstract := true },
    { name := "toArray", owner := ⟨"java.util.List"⟩, typeParameters := [⟨"T", []⟩],
      parameters := [.array (.var "T")], result := .array (.var "T"), isAbstract := true },
    { name := "add", owner := ⟨"java.util.List"⟩, parameters := [.var "E"],
      result := .prim .boolean, isAbstract := true },
    { name := "remove", owner := ⟨"java.util.List"⟩, parameters := [cls "java.lang.Object"],
      result := .prim .boolean, isAbstract := true },
    { name := "containsAll", owner := ⟨"java.util.List"⟩,
      parameters := [cls "java.util.Collection" [.any]], result := .prim .boolean,
      isAbstract := true },
    { name := "addAll", owner := ⟨"java.util.List"⟩,
      parameters := [cls "java.util.Collection" [.upper (.var "E")]], result := .prim .boolean,
      isAbstract := true },
    { name := "addAll", owner := ⟨"java.util.List"⟩,
      parameters := [.prim .int, cls "java.util.Collection" [.upper (.var "E")]],
      result := .prim .boolean, isAbstract := true },
    { name := "removeAll", owner := ⟨"java.util.List"⟩,
      parameters := [cls "java.util.Collection" [.any]], result := .prim .boolean,
      isAbstract := true },
    { name := "retainAll", owner := ⟨"java.util.List"⟩,
      parameters := [cls "java.util.Collection" [.any]], result := .prim .boolean,
      isAbstract := true },
    { name := "replaceAll", owner := ⟨"java.util.List"⟩,
      parameters := [cls "java.util.function.UnaryOperator" [.var "E"]] },
    { name := "sort", owner := ⟨"java.util.List"⟩,
      parameters := [cls "java.util.Comparator" [.lower (.var "E")]] },
    { name := "clear", owner := ⟨"java.util.List"⟩, isAbstract := true },
    { name := "equals", owner := ⟨"java.util.List"⟩, parameters := [cls "java.lang.Object"],
      result := .prim .boolean, isAbstract := true },
    { name := "hashCode", owner := ⟨"java.util.List"⟩, result := .prim .int, isAbstract := true },
    { name := "get", owner := ⟨"java.util.List"⟩, parameters := [.prim .int], result := .var "E",
      isAbstract := true },
    { name := "set", owner := ⟨"java.util.List"⟩, parameters := [.prim .int, .var "E"],
      result := .var "E", isAbstract := true },
    { name := "add", owner := ⟨"java.util.List"⟩, parameters := [.prim .int, .var "E"],
      isAbstract := true },
    { name := "remove", owner := ⟨"java.util.List"⟩, parameters := [.prim .int],
      result := .var "E", isAbstract := true },
    { name := "indexOf", owner := ⟨"java.util.List"⟩, parameters := [cls "java.lang.Object"],
      result := .prim .int, isAbstract := true },
    { name := "lastIndexOf", owner := ⟨"java.util.List"⟩, parameters := [cls "java.lang.Object"],
      result := .prim .int, isAbstract := true },
    { name := "listIterator", owner := ⟨"java.util.List"⟩,
      result := cls "java.util.ListIterator" [.var "E"], isAbstract := true },
    { name := "listIterator", owner := ⟨"java.util.List"⟩, parameters := [.prim .int],
      result := cls "java.util.ListIterator" [.var "E"], isAbstract := true },
    { name := "subList", owner := ⟨"java.util.List"⟩, parameters := [.prim .int, .prim .int],
      result := cls "java.util.List" [.var "E"], isAbstract := true }]

def comparator : Descriptor where
  name := ⟨"java.util.Comparator"⟩
  kind := .interface
  typeParameters := [⟨"T", []⟩]
  methods := [
    { name := "compare", owner := ⟨"java.util.Comparator"⟩, parameters := [.var "T", .var "T"],
      result := .prim .int, isAbstract := true },
    { name := "equals", owner := ⟨"java.util.Comparator"⟩, parameters := [cls "java.lang.Object"],
      result := .prim .boolean, isAbstract := true },
    { name := "reversed", owner := ⟨"java.util.Comparator"⟩,
      result := cls "java.util.Comparator" [.var "T"] },
    { name := "naturalOrder", owner := ⟨"java.util.Comparator"⟩,
      typeParameters := [⟨"U", [cls "java.lang.Comparable" [.lower (.var "U")]]⟩],
      result := cls "java.util.Comparator" [.var "U"], isStatic := true }]

def abstractCollection : Descriptor where
  name := ⟨"java.util.AbstractCollection"⟩
  kind := .abstractClass
  typeParameters := [⟨"E", []⟩]
  superclass := some ⟨⟨"java.lang.Object"⟩, []⟩
  interfaces := [⟨⟨"java.util.Collection"⟩, [.var "E"]⟩]
  methods := [
    { name := "iterator", owner := ⟨"java.util.AbstractCollection"⟩,
      result := cls "java.util.Iterator" [.var "E"], isAbstract := true },
    { name := "size", owner := ⟨"java.util.AbstractCollection"⟩, result := .prim .int,
      isAbstract := true },
    { name := "isEmpty", owner := ⟨"java.util.AbstractCollection"⟩, result := .prim .boolean },
    { name := "contains", owner := ⟨"java.util.AbstractCollection"⟩,
      parameters := [cls "java.lang.Object"], result := .prim .boolean },
    { name := "toArray", owner := ⟨"java.util.AbstractCollection"⟩,
      result := .array (cls "java.lang.Object") },
    { name := "toArray", owner := ⟨"java.util.AbstractCollection"⟩, typeParameters := [⟨"T", []⟩],
      parameters := [.array (.var "T")], result := .array (.var "T") },
    { name := "add", owner := ⟨"java.util.AbstractCollection"⟩, parameters := [.var "E"],
      result := .prim .boolean },
    { name := "remove", owner := ⟨"java.util.AbstractCollection"⟩,
      parameters := [cls "java.lang.Object"], result := .prim .boolean },
    { name := "containsAll", owner := ⟨"java.util.AbstractCollection"⟩,
      parameters := [cls "java.util.Collection" [.any]], result := .prim .boolean },
    { name := "addAll", owner := ⟨"java.util.AbstractCollection"⟩,
      parameters := [cls "java.util.Collection" [.upper (.var "E")]], result := .prim .boolean },
    { name := "removeAll", owner := ⟨"java.util.AbstractCollection"⟩,
      parameters := [cls "java.util.Collection" [.any]], result := .prim .boolean },
    { name := "retainAll", owner := ⟨"java.util.AbstractCollection"⟩,
      parameters := [cls "java.util.Collection" [.any]], result := .prim .boolean },
    { name := "clear", owner := ⟨"java.util.AbstractCollection"⟩ },
    { name := "toString", owner := ⟨"java.util.AbstractCollection"⟩,
      result := cls "java.lang.String" }]
  constructors := [
    { access := .protectedAccess }]

def abstractList : Descriptor where
  name := ⟨"java.util.AbstractList"⟩
  kind := .abstractClass
  typeParameters := [⟨"E", []⟩]
  superclass := some ⟨⟨"java.util.AbstractCollection"⟩, [.var "E"]⟩
  interfaces := [⟨⟨"java.util.List"⟩, [.var "E"]⟩]
  methods := [
    { name := "add", owner := ⟨"java.util.AbstractList"⟩, parameters := [.var "E"],
      result := .prim .boolean },
    { name := "get", owner := ⟨"java.util.AbstractList"⟩, parameters := [.prim .int],
      result := .var "E", isAbstract := true },
    { name := "set", owner := ⟨"java.util.AbstractList"⟩, parameters := [.prim .int, .var "E"],
      result := .var "E" },
    { name := "add", owner := ⟨"java.util.AbstractList"⟩, parameters := [.prim .int, .var "E"] },
    { name := "remove", owner := ⟨"java.util.AbstractList"⟩, parameters := [.prim .int],
      result := .var "E" },
    { name := "indexOf", owner := ⟨"java.util.AbstractList"⟩,
      parameters := [cls "java.lang.Object"], result := .prim .int },
    { name := "lastIndexOf", owner := ⟨"java.util.AbstractList"⟩,
      parameters := [cls "java.lang.Object"], result := .prim .int },
    { name := "clear", owner := ⟨"java.util.AbstractList"⟩ },
    { name := "addAll", owner := ⟨"java.util.AbstractList"⟩,
      parameters := [.prim .int, cls "java.util.Collection" [.upper (.var "E")]],
      result := .prim .boolean },
    { name := "iterator", owner := ⟨"java.util.AbstractList"⟩,
      result := cls "java.util.Iterator" [.var "E"] },
    { name := "listIterator", owner := ⟨"java.util.AbstractList"⟩,
      result := cls "java.util.ListIterator" [.var "E"] },
    { name := "listIterator", owner := ⟨"java.util.AbstractList"⟩, parameters := [.prim .int],
      result := cls "java.util.ListIterator" [.var "E"] },
    { name := "subList", owner := ⟨"java.util.AbstractList"⟩,
      parameters := [.prim .int, .prim .int], result := cls "java.util.List" [.var "E"] },
    { name := "equals", owner := ⟨"java.util.AbstractList"⟩,
      parameters := [cls "java.lang.Object"], result := .prim .boolean },
    { name := "hashCode", owner := ⟨"java.util.AbstractList"⟩, result := .prim .int },
    { name := "removeRange", owner := ⟨"java.util.AbstractList"⟩,
      parameters := [.prim .int, .prim .int], access := .protectedAccess }]
  constructors := [
    { access := .protectedAccess }]

def timerTask : Descriptor where
  name := ⟨"java.util.TimerTask"⟩
  kind := .abstractClass
  superclass := some ⟨⟨"java.lang.Object"⟩, []⟩
  interfaces := [⟨⟨"java.lang.Runnable"⟩, []⟩]
  methods := [
    { name := "run", owner := ⟨"java.util.TimerTask"⟩, isAbstract := true },
    { name := "cancel", owner := ⟨"java.util.TimerTask"⟩, result := .prim .boolean },
    { name := "scheduledExecutionTime", owner := ⟨"java.util.TimerTask"⟩, result := .prim .long }]
  constructors := [
    { access := .protectedAccess }]

def callable : Descriptor where
  name := ⟨"java.util.concurrent.Callable"⟩
  kind := .interface
  typeParameters := [⟨"V", []⟩]
  methods := [
    { name := "call", owner := ⟨"java.util.concurrent.Callable"⟩, result := .var "V",
      throwing := [cls "java.lang.Exception"], isAbstract := true }]

def utilTypes : List Descriptor := [iterator, collection, list, comparator, abstractCollection,
  abstractList, timerTask, callable]

end JavaStubs.StandardLibrary
