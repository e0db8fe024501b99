import PegTree.Tree.Basic

/-!
# Deleting nodes

All nodes of a tag go, with everything below them; the root stays.
-/

namespace PegTree.Node

mutual
/-- Deletes at every level below the root. -/
def deleteAll (tag : Tag) : Node → Node
  | ⟨t, text, offset, stop, children⟩ => ⟨t, text, offset, stop, deleteAllList tag children⟩
def deleteAllList (tag : Tag) : List Node → List Node
  | [] => []
  | n :: ns => if n.tag = tag then deleteAllList tag ns else deleteAll tag n :: deleteAllList tag ns
end

/-- Deletes among the children of the root, or at every level below it. -/
def delete (n : Node) (tag : Tag) (deep : Bool) : Node :=
  if deep then n.deleteAll tag else { n with children := n.children.filter (·.tag != tag) }

end PegTree.Node
