import JavaStubs.Model
import JavaStubs.Obligation.Basic

namespace JavaStubs.Stub

def indent : String := "    "

/-- The name of the parameter at a position. -/
def argumentName (position : Nat) : String := "arg" ++ toString position

def argumentNames (arity : Nat) : List String :=
  (List.range arity).map argumentName

/-- Declared type parameters in angle brackets, or nothing. -/
def typeParametersText (parameters : List TypeParameter) : String :=
  if parameters.isEmpty then ""
  else "<" ++ ", ".intercalate (parameters.map TypeParameter.render) ++ ">"

/-- An array type as a parameter of variable arity. -/
def variableArityText : Ty → String
  | .array element => element.render ++ "..."
  | ty => ty.render

/-- The types of parameters as they are written; only the last can have variable arity. -/
def parameterTypeTexts (types : List Ty) (varargs : Bool) : List String :=
  if varargs then types.dropLast.map Ty.render ++ types.getLast?.toList.map variableArityText
  else types.map Ty.render

def parameterText (type : String × Nat) : String :=
  type.1 ++ " " ++ argumentName type.2

def parametersText (types : List Ty) (varargs : Bool) : String :=
  ", ".intercalate ((parameterTypeTexts types varargs).zipIdx.map parameterText)

/-- A throws clause with a space in front, or nothing. -/
def throwsText (types : List Ty) : String :=
  if types.isEmpty then "" else " throws " ++ Ty.renderList types

/-- The statement of a body, on a line of its own. -/
def bodyText : Body → String
  | .empty => ""
  | .result value => indent ++ indent ++ "return " ++ value.literal ++ ";\n"
  | .forward arity =>
    indent ++ indent ++ "super(" ++ ", ".intercalate (argumentNames arity) ++ ");\n"

/-- The head of a constructor, from its modifier to its throws clause. -/
def constructorHead (simple : String) (c : Constructor) : String :=
  "public " ++ simple ++ "(" ++ parametersText c.parameters c.varargs ++ ")"
    ++ throwsText c.throwing

/-- The access modifier with a space behind it, or nothing. -/
def accessText (access : Access) : String :=
  match access.keyword? with
  | some keyword => keyword ++ " "
  | none => ""

/-- The type parameters of a method with a space behind them, or nothing. -/
def methodParametersText (parameters : List TypeParameter) : String :=
  if parameters.isEmpty then "" else typeParametersText parameters ++ " "

/-- The head of a method, from its modifiers to its throws clause. -/
def methodHead (o : MethodObligation) : String :=
  accessText o.access ++ methodParametersText o.method.typeParameters ++ o.result.render ++ " "
    ++ o.method.name ++ "(" ++ parametersText o.method.parameters o.method.varargs ++ ")"
    ++ throwsText o.throwing

/-- A head and a body in braces, indented once. -/
def block (head : String) (body : Body) : String :=
  indent ++ head ++ " \x7b\n" ++ bodyText body ++ indent ++ "\x7d\n"

/-- A member of the class called `simple`. -/
def memberText (simple : String) : Obligation × Body → String
  | (.constructor c, body) => block (constructorHead simple c) body
  | (.method o, body) => indent ++ "@Override\n" ++ block (methodHead o) body

def packageText (package : String) : String :=
  if package = "" then "" else "package " ++ package ++ ";\n\n"

/-- The line that opens a class below `root`. -/
def classHead (simple : String) (root : TypeModel) : String :=
  "public class " ++ simple ++ typeParametersText root.typeParameters
    ++ (if root.isInterface then " implements " else " extends ")
    ++ root.selfReference.render ++ " \x7b\n"

/-- The whole source of the class called `generated`, with an empty line between members. -/
def sourceText (generated : QualName) (root : TypeModel) (members : List (Obligation × Body)) :
    String :=
  packageText generated.package ++ "// Generated by implgen from " ++ root.name.text ++ ".\n"
    ++ classHead generated.simple root
    ++ "\n".intercalate (members.map (memberText generated.simple)) ++ "\x7d\n"

end JavaStubs.Stub
