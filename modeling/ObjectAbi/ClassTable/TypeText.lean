import ObjectAbi.ClassTable.Basic

/-!
# Types as text

The text of a type in messages: type arguments in angle brackets, `[]` after the element type of an
array, and a type parameter by its name alone. The names of classes come from the table.
-/

namespace ObjectAbi.ClassTable

mutual

/-- The text of a type. Type arguments are written before the class is looked up. -/
def display (t : ClassTable) : Ty → Except Fault String
  | .void => .ok "void"
  | .null => .ok "null"
  | .primitive p => .ok p.name
  | .classType c args => do
    let args ← t.displayAll args
    let name := (← t.classDecl c).name
    return if args.isEmpty then name else name ++ "<" ++ ", ".intercalate args ++ ">"
  | .parameter name _ => .ok name
  | .array element => do return (← t.display element) ++ "[]"

def displayAll (t : ClassTable) : List Ty → Except Fault (List String)
  | [] => .ok []
  | ty :: tys => do return (← t.display ty) :: (← t.displayAll tys)

end

end ObjectAbi.ClassTable
