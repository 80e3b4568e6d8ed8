import JavaStubs.Descriptor.Validity
import JavaStubs.Stub.Body

namespace JavaStubs

/-- A method's name and erased parameter types: the identity of an override. -/
structure SignatureKey where
  name : String
  parameters : List Ty
  deriving DecidableEq, Repr

def SignatureKey.render (key : SignatureKey) : String := renderMember key.name key.parameters

structure MethodObligation where
  /-- The declaration that stands for all, with supertype arguments replaced. -/
  method : Method
  /-- A result type that every inherited declaration accepts. -/
  result : Ty
  /-- Checked exceptions that every inherited declaration allows. -/
  throwing : List Ty
  /-- The widest access among the inherited declarations. -/
  access : Access
  /-- How far above the root the method is declared. -/
  depth : Nat
  deriving DecidableEq, Repr

inductive Obligation
  | constructor (signature : Constructor)
  | method (obligation : MethodObligation)
  deriving DecidableEq, Repr

/-- Constructors forward their arguments; methods return a default value. -/
def Obligation.body : Obligation → Body
  | .constructor signature => .forward signature.arity
  | .method obligation =>
    match DefaultValue.ofType? obligation.result with
    | some value => .result value
    | none => .empty

/-- Why a target is turned down. -/
inductive RefusalReason
  | primitive
  | array
  | notTypeName
  | concrete
  | final
  | hidden
  | packagePrivate (method : String) (owner : QualName) (package : String)
  deriving DecidableEq, Repr

def RefusalReason.message : RefusalReason → String
  | .primitive => "it is a primitive type"
  | .array => "it is an array type"
  | .notTypeName => "it is not a qualified type name"
  | .concrete => "it is a concrete class"
  | .final => "it is final"
  | .hidden => "it is private"
  | .packagePrivate method owner package =>
    "package-private abstract method '" ++ method ++ "' of '" ++ owner.text
      ++ "' cannot be overridden from package '" ++ package ++ "'"

structure Refusal where
  name : String
  reason : RefusalReason
  deriving DecidableEq, Repr

def Refusal.message (refusal : Refusal) : String :=
  "cannot generate an implementation of '" ++ refusal.name ++ "': " ++ refusal.reason.message

/-- What the inherited declarations of one method cannot agree on. -/
inductive ConflictReason
  | results (types : List Ty)
  | throwsClauses (left right : List Ty)
  | noCommonThrows
  deriving DecidableEq, Repr

def ConflictReason.message : ConflictReason → String
  | .results types => "incompatible return types " ++ Ty.renderList types
  | .throwsClauses left right =>
    "incompatible throws clauses [" ++ Ty.renderList left ++ "] and [" ++ Ty.renderList right ++ "]"
  | .noCommonThrows => "no common throws clause"

inductive ObligationError
  | refused (refusal : Refusal)
  | conflict (key : SignatureKey) (reason : ConflictReason)
  | noConstructor (name : QualName)
  deriving DecidableEq, Repr

def ObligationError.message : ObligationError → String
  | .refused refusal => refusal.message
  | .conflict key reason => "conflicting declarations of '" ++ key.render ++ "': " ++ reason.message
  | .noConstructor name =>
    "abstract class '" ++ name.text ++ "' has no constructor accessible to a subclass"

end JavaStubs
