import PegTree.Expr.Basic

/-!
# Equality of expressions

Expressions are compared part by part. Patterns are equal if they are written alike.
-/

namespace PegTree.Expr

mutual
def same : Expr → Expr → Bool
  | .literal a m c, .literal a' m' c' => a == a' && m == m' && c == c'
  | .sequence a es, .sequence a' es' => a == a' && sameAll es es'
  | .choice a es, .choice a' es' => a == a' && sameAll es es'
  | .repetition a l h e, .repetition a' l' h' e' => a == a' && l == l' && h == h' && same e e'
  | .optional a e, .optional a' e' => a == a' && same e e'
  | .endOfLine a, .endOfLine a' => a == a'
  | .endOfInput a, .endOfInput a' => a == a'
  | .rule a n, .rule a' n' => a == a' && n == n'
  | .placeholder a n, .placeholder a' n' => a == a' && n == n'
  | _, _ => false
def sameAll : List Expr → List Expr → Bool
  | [], [] => true
  | e :: es, e' :: es' => same e e' && sameAll es es'
  | _, _ => false
end

mutual
theorem same_iff (e f : Expr) : same e f = true ↔ e = f := by
  cases e with
  | sequence a es => cases f <;> simp [same, sameAll_iff es]
  | choice a es => cases f <;> simp [same, sameAll_iff es]
  | repetition a l h e => cases f <;> simp [same, same_iff e, and_assoc]
  | optional a e => cases f <;> simp [same, same_iff e]
  | _ => cases f <;> simp [same, and_assoc]
theorem sameAll_iff (es fs : List Expr) : sameAll es fs = true ↔ es = fs := by
  cases es with
  | nil => cases fs <;> simp [sameAll]
  | cons e es => cases fs <;> simp [sameAll, same_iff e, sameAll_iff es]
end

instance : DecidableEq Expr := fun e f => decidable_of_iff _ (same_iff e f)

end PegTree.Expr
