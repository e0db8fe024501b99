import PegTree.Expr.Basic

/-!
# Placeholders

A placeholder is a name that something else is put in place of before evaluation.
-/

namespace PegTree.Expr

mutual
/-- Puts `f name` in place of each placeholder; an asserted placeholder asserts what it becomes. -/
def mapPlaceholders (f : String → Expr) : Expr → Expr
  | .placeholder a name => (f name).setAsserted ((f name).asserted || a)
  | .sequence a items => .sequence a (mapPlaceholdersList f items)
  | .choice a items => .choice a (mapPlaceholdersList f items)
  | .repetition a low high item => .repetition a low high (mapPlaceholders f item)
  | .optional a item => .optional a (mapPlaceholders f item)
  | e => e
def mapPlaceholdersList (f : String → Expr) : List Expr → List Expr
  | [] => []
  | e :: es => mapPlaceholders f e :: mapPlaceholdersList f es
end

mutual
def placeholders : Expr → List String
  | .placeholder _ name => [name]
  | .sequence _ items | .choice _ items => placeholdersList items
  | .repetition _ _ _ item | .optional _ item => placeholders item
  | _ => []
def placeholdersList : List Expr → List String
  | [] => []
  | e :: es => placeholders e ++ placeholdersList es
end

end PegTree.Expr
