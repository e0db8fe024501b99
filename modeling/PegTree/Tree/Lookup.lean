import PegTree.Tree.Basic

/-!
# Finding nodes

Children by rule name, and descendants by a path of positions.
-/

namespace PegTree

/-- The children of one name: exactly one, or several. -/
inductive Found where
  | one (n : Node)
  | many (first second : Node) (rest : List Node)

def Found.toList : Found → List Node
  | .one n => [n]
  | .many a b rest => a :: b :: rest

def Found.first : Found → Node
  | .one n => n
  | .many a _ _ => a

namespace Node

def childrenNamed (n : Node) (name : String) : List Node :=
  n.children.filter (·.name? == some name)

def hasChild (n : Node) (name : String) : Bool := n.children.any (·.name? == some name)

def child? (n : Node) (name : String) : Option Found :=
  match n.childrenNamed name with
  | [] => none
  | [c] => some (.one c)
  | a :: b :: rest => some (.many a b rest)

def descendant? (n : Node) : List Nat → Option Node
  | [] => some n
  | i :: path => n.children[i]?.bind (·.descendant? path)

end Node

end PegTree
