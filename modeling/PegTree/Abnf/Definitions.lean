import PegTree.Abnf.Error
import PegTree.Expr.Equality

/-!
# Definitions

The rules that an ABNF text defines, in the order of their first definitions. Names in them are
placeholders until the definitions are registered with a grammar.
-/

namespace PegTree.Abnf

structure Definitions where
  rules : List (String × Expr) := []
deriving DecidableEq

namespace Definitions

def get? (d : Definitions) (name : String) : Option Expr := d.rules.lookup name

def names (d : Definitions) : List String := d.rules.map (·.1)

def extend (d : Definitions) (name : String) (rhs : Expr) : Definitions :=
  ⟨d.rules.map fun (n, e) => if n == name then (n, e.orElse rhs) else (n, e)⟩

/-- Defines a rule by `=`, or adds alternatives to a rule by `=/`. -/
def define (d : Definitions) (name operator : String) (rhs : Expr) : Except Error Definitions :=
  if operator = "=" then
    if (d.get? name).isSome then .error (.ofGrammar (.duplicateRule name))
    else .ok ⟨d.rules ++ [(name, rhs)]⟩
  else if operator = "=/" then
    if (d.get? name).isSome then .ok (d.extend name rhs) else .error (.undefinedIncrement name)
  else .error (.invalidOperator name operator)

end Definitions

end PegTree.Abnf
