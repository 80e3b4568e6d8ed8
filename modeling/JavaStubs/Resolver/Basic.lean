import JavaStubs.Inquiry
import JavaStubs.Resolver.Source

namespace JavaStubs

abbrev Cache := List (QualName × TypeModel)

namespace Linking

/-- Supertype arguments are absent, or as many as the target's parameters, and neither wildcards
nor primitives. -/
def checkArguments (reference : ClassRef) (target : TypeModel) : Except HierarchyFault Unit :=
  if reference.args.isEmpty then .ok ()
  else if reference.args.length ≠ target.typeParameters.length then
    .error (.argumentCount target.name target.typeParameters.length reference.args.length)
  else if reference.args.any fun arg => arg.isWildcard || arg matches .prim _ then
    .error (.invalidArguments reference)
  else .ok ()

def checkSuperclass (reference : ClassRef) (target : TypeModel) : Except HierarchyFault Unit :=
  if target.isInterface then .error (.extendsInterface reference.name)
  else if target.isFinal then .error (.extendsFinal reference.name)
  else checkArguments reference target

def checkInterface (reference : ClassRef) (target : TypeModel) : Except HierarchyFault Unit :=
  if target.isInterface then checkArguments reference target
  else .error (.notInterface reference.name target.kind)

/-- Links references one after the other, each admitted by `check`. -/
def linkAll (link : QualName → Cache → Except ResolveError TypeModel × Cache) (owner : QualName)
    (check : ClassRef → TypeModel → Except HierarchyFault Unit) :
    List ClassRef → Cache → Except ResolveError (List (Supertype TypeModel)) × Cache
  | [], cache => (.ok [], cache)
  | reference :: rest, cache =>
    match link reference.name cache with
    | (.error error, cache) => (.error error, cache)
    | (.ok target, cache) =>
      match check reference target with
      | .error fault => (.error (.hierarchy owner fault), cache)
      | .ok _ =>
        match linkAll link owner check rest cache with
        | (.error error, cache) => (.error error, cache)
        | (.ok links, cache) => (.ok (⟨reference, target⟩ :: links), cache)

/-- A declaration with its supertypes linked; an interface named twice counts once. -/
def modelOf (d : Descriptor) (superclass : Option (Supertype TypeModel))
    (interfaces : List (Supertype TypeModel)) : TypeModel where
  name := d.name
  kind := d.kind
  access := d.access
  isFinal := d.isFinal
  typeParameters := d.typeParameters
  superclass := superclass
  interfaces := distinctLinks interfaces
  methods := d.methods
  constructors := d.constructors

def linkDescriptor (link : QualName → Cache → Except ResolveError TypeModel × Cache)
    (d : Descriptor) (cache : Cache) : Except ResolveError TypeModel × Cache :=
  match linkAll link d.name checkSuperclass d.superclass.toList cache with
  | (.error error, cache) => (.error error, cache)
  | (.ok superclass, cache) =>
    match linkAll link d.name checkInterface d.interfaces cache with
    | (.error error, cache) => (.error error, cache)
    | (.ok interfaces, cache) => (.ok (modelOf d superclass.head? interfaces), cache)

/-- Links a name below the names in progress, of which the outermost is first. The names in
progress are distinct and all described, so fuel for one more than there are descriptions is
enough. -/
def link (load : QualName → Except ResolveError Descriptor) :
    Nat → List QualName → QualName → Cache → Except ResolveError TypeModel × Cache
  | fuel, progress, name, cache =>
    match cache.lookup name with
    | some model => (.ok model, cache)
    | none =>
      if name ∈ progress then (.error (.circular (progress ++ [name])), cache)
      else match fuel with
        | 0 => (.error (.circular (progress ++ [name])), cache)
        | fuel + 1 =>
          match load name with
          | .error error => (.error error, cache)
          | .ok d =>
            match linkDescriptor (link load fuel (progress ++ [name])) d cache with
            | (.error error, cache) => (.error error, cache)
            | (.ok model, cache) => (.ok model, (name, model) :: cache)

end Linking

/-- What has been linked stays in the cache, also when the type that asked for it fails. -/
structure Resolver where
  /-- In the order in which they are asked. -/
  sources : List Source
  cache : Cache := []

namespace Resolver

def ofStandardLibrary : Resolver := { sources := [.standardLibrary] }

/-- A descriptor directory, with the standard library behind it. -/
def ofDirectory (root : Path) : Resolver := { sources := [.directory root, .standardLibrary] }

/-- A descriptor document, with the standard library behind it. -/
def ofDocument (text : String) : Except ResolveError Resolver := do
  return { sources := [← Source.ofDocument "<inline descriptors>" text, .standardLibrary] }

/-- More than the number of types that the sources describe. -/
def fuel (fs : FileSystem) (resolver : Resolver) : Nat :=
  resolver.sources.foldr (fun source total => source.size fs + total) 1

def resolve (fs : FileSystem) (resolver : Resolver) (name : QualName) :
    Except ResolveError TypeModel × Resolver :=
  let (result, cache) :=
    Linking.link (Source.loadFirst fs resolver.sources) (resolver.fuel fs) [] name resolver.cache
  (result, { resolver with cache })

/-- Resolves a name given as text, which has to be valid. -/
def resolveText (fs : FileSystem) (resolver : Resolver) (text : String) :
    Except ResolveError TypeModel × Resolver :=
  match QualName.parse text with
  | .error _ => (.error (.invalidName text), resolver)
  | .ok name => resolver.resolve fs name

def lookup (fs : FileSystem) (resolver : Resolver) (name : QualName) : Option TypeModel :=
  (resolver.resolve fs name).1.toOption

/-- The resolver after looking up names, whether or not they were found. -/
def consult (fs : FileSystem) (resolver : Resolver) (names : List QualName) : Resolver :=
  names.foldl (fun resolver name => (resolver.resolve fs name).2) resolver

/-- The answer to an inquiry that used this resolver, and the resolver after it. -/
def settle {α : Type} (fs : FileSystem) (resolver : Resolver) (inquiry : Inquiry α) :
    α × Resolver :=
  (inquiry.value, resolver.consult fs inquiry.asked)

end Resolver

end JavaStubs
