import JavaStubs.Descriptor.Error
import JavaStubs.Markup.Element
import JavaStubs.Member

namespace JavaStubs

open Markup (Element Tag)

/-- A type parameter and the text of its bounds. -/
structure ParameterText where
  name : String
  bounds : Option String := none
  deriving DecidableEq, Repr

/-- What stands inside a method or constructor. -/
structure MemberText where
  typeParameters : List ParameterText := []
  parameters : List String := []
  throwing : List String := []
  deriving DecidableEq, Repr

structure MethodText where
  name : String := ""
  result : Option String := none
  /-- Unset, it depends on where the method is declared. -/
  isAbstract : Option Bool := none
  isDefault : Bool := false
  isStatic : Bool := false
  isFinal : Bool := false
  access : Access := .publicAccess
  inside : MemberText := {}
  deriving DecidableEq, Repr

structure ConstructorText where
  access : Access := .publicAccess
  inside : MemberText := {}
  deriving DecidableEq, Repr

/-- What stands inside an interface or class. -/
structure TypeBodyText where
  typeParameters : List ParameterText := []
  superclauses : List String := []
  implemented : List String := []
  methods : List MethodText := []
  constructors : List ConstructorText := []
  deriving DecidableEq, Repr

/-- The attributes of an interface or class element. -/
structure TypeHeadText where
  name : Option String := none
  isAbstract : Bool := false
  isFinal : Bool := false
  access : Access := .publicAccess
  deriving DecidableEq, Repr

namespace Declaration

/-- The attributes of a tag with references replaced; one bad value spoils them all. -/
def attributes (tag : Tag) : Except DescriptorError (List (String × String)) :=
  tag.attributes.mapM fun (key, value) =>
    match Markup.Reference.decode value with
    | .ok value => .ok (key, value)
    | .error fault => .error (.reference fault)

def readBool (element key value : String) : Except DescriptorError Bool :=
  match value with
  | "true" => .ok true
  | "false" => .ok false
  | _ => .error (.invalidAttribute element key value)

def readAccess (element value : String) : Except DescriptorError Access :=
  match Access.ofWord? value with
  | some access => .ok access
  | none => .error (.invalidAttribute element "access" value)

/-- An element's end, once its children are read. -/
def checkEnding (element : Element) : Except DescriptorError Unit :=
  match element.ending with
  | .selfClosed | .closed => .ok ()
  | .cut none => .error (.layout (.endInside element.name))
  | .cut (some fault) => .error (.markup fault)

/-- An element that may hold no other. -/
def checkLeaf (element : Element) : Except DescriptorError Unit :=
  match element.children with
  | child :: _ => .error (.unknownElement child.name element.name)
  | [] => checkEnding element

def readParameter (element : Element) : Except DescriptorError ParameterText := do
  let attributes ← attributes element.tag
  let name := (attributes.lookup "name").getD ""
  if name = "" then throw (.missingAttribute "typeParameter" "name")
  if !isIdentifier name then throw (.invalidAttribute "typeParameter" "name" name)
  return { name, bounds := attributes.lookup "extends" }

/-- The `type` attribute of an element that is about one type. -/
def readTypeAttribute (element : Element) : Except DescriptorError String := do
  match (← attributes element.tag).lookup "type" with
  | some text => return text
  | none => throw (.missingAttribute element.name "type")

/-- One element inside a member; only methods have type parameters. -/
def readMemberChild (context : String) (inside : MemberText) (child : Element) :
    Except DescriptorError MemberText := do
  let inside ←
    if child.name = "typeParameter" ∧ context = "method" then
      let parameter ← readParameter child
      pure { inside with typeParameters := inside.typeParameters ++ [parameter] }
    else if child.name = "param" then
      let text ← readTypeAttribute child
      pure { inside with parameters := inside.parameters ++ [text] }
    else if child.name = "throws" then
      let text ← readTypeAttribute child
      pure { inside with throwing := inside.throwing ++ [text] }
    else throw (.unknownElement child.name context)
  checkLeaf child
  return inside

def readMember (element : Element) : Except DescriptorError MemberText := do
  let inside ← element.children.foldlM (readMemberChild element.name) {}
  checkEnding element
  return inside

/-- One attribute of a method; unknown ones mean nothing. -/
def readMethodAttribute (method : MethodText) (entry : String × String) :
    Except DescriptorError MethodText := do
  let (key, value) := entry
  match key with
  | "name" => return { method with name := value }
  | "returns" => return { method with result := some value }
  | "abstract" => return { method with isAbstract := some (← readBool "method" key value) }
  | "default" => return { method with isDefault := ← readBool "method" key value }
  | "static" => return { method with isStatic := ← readBool "method" key value }
  | "final" => return { method with isFinal := ← readBool "method" key value }
  | "access" => return { method with access := ← readAccess "method" value }
  | _ => return method

def readMethod (element : Element) : Except DescriptorError MethodText := do
  let method ← (← attributes element.tag).foldlM readMethodAttribute {}
  if method.name = "" then throw (.missingAttribute "method" "name")
  if !isIdentifier method.name then throw (.invalidAttribute "method" "name" method.name)
  if method.isDefault ∧ method.isAbstract = some true then
    throw (.invalidAttribute "method" "abstract" "true")
  return { method with inside := ← readMember element }

def readConstructor (element : Element) : Except DescriptorError ConstructorText := do
  let access ← match (← attributes element.tag).lookup "access" with
    | some value => readAccess "constructor" value
    | none => pure .publicAccess
  return { access, inside := ← readMember element }

/-- One element inside an interface or class. -/
def readTypeChild (context : String) (body : TypeBodyText) (child : Element) :
    Except DescriptorError TypeBodyText := do
  match child.name with
  | "typeParameter" =>
    let parameter ← readParameter child
    checkLeaf child
    return { body with typeParameters := body.typeParameters ++ [parameter] }
  | "extends" =>
    let text ← readTypeAttribute child
    checkLeaf child
    return { body with superclauses := body.superclauses ++ [text] }
  | "implements" =>
    let text ← readTypeAttribute child
    checkLeaf child
    return { body with implemented := body.implemented ++ [text] }
  | "method" => return { body with methods := body.methods ++ [← readMethod child] }
  | "constructor" =>
    return { body with constructors := body.constructors ++ [← readConstructor child] }
  | name => throw (.unknownElement name context)

def readBody (element : Element) : Except DescriptorError TypeBodyText := do
  let body ← element.children.foldlM (readTypeChild element.name) {}
  checkEnding element
  return body

def readHeadAttribute (element : String) (head : TypeHeadText) (entry : String × String) :
    Except DescriptorError TypeHeadText := do
  let (key, value) := entry
  match key with
  | "name" => return { head with name := some value }
  | "abstract" => return { head with isAbstract := ← readBool element key value }
  | "final" => return { head with isFinal := ← readBool element key value }
  | "access" => return { head with access := ← readAccess element value }
  | _ => return head

def readHead (element : Element) : Except DescriptorError TypeHeadText := do
  (← attributes element.tag).foldlM (readHeadAttribute element.name) {}

end Declaration

end JavaStubs
