import JavaStubs.Ty.Basic

namespace JavaStubs

/-- A value to return where any would do. -/
inductive DefaultValue
  | zero (p : Primitive)
  | no
  | null
  deriving DecidableEq, Repr

namespace DefaultValue

/-- The default value of a type; `void` has none. -/
def ofType? : Ty → Option DefaultValue
  | .void => none
  | .prim .boolean => some .no
  | .prim p => some (.zero p)
  | _ => some .null

def literal : DefaultValue → String
  | .zero .byte => "(byte) 0"
  | .zero .short => "(short) 0"
  | .zero .char => "'\\u0000'"
  | .zero .int => "0"
  | .zero .long => "0L"
  | .zero .float => "0.0f"
  | .zero .double => "0.0d"
  | .zero .boolean | .no => "false"
  | .null => "null"

def describe : DefaultValue → String
  | .zero p => "Zero(" ++ p.name.capitalize ++ ")"
  | .no => "False"
  | .null => "Null"

end DefaultValue

inductive Body
  | empty
  | result (value : DefaultValue)
  | forward (arity : Nat)
  deriving DecidableEq, Repr

/-- The name of a body in messages. -/
def Body.describe : Body → String
  | .empty => "Empty"
  | .result value => "Return(" ++ value.describe ++ ")"
  | .forward arity => "ForwardToSuper \x7b arity: " ++ toString arity ++ " \x7d"

end JavaStubs
