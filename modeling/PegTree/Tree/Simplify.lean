import PegTree.Tree.Basic

/-!
# Simplification

Structural nodes give way to their children, one level after the other, until only nodes of rules
and leaves are left. A node that is left with a single literal takes the text of that literal.
-/

namespace PegTree.Node

theorem sizeList_append (a b : List Node) : sizeList (a ++ b) = sizeList a + sizeList b := by
  induction a with
  | nil => simp [sizeList]
  | cons n ns ih => simp [sizeList, ih]; omega

theorem sizeList_children (n : Node) : sizeList n.children + 1 = n.size := by
  cases n; simp [size]

theorem size_le_of_mem {n : Node} {ns : List Node} (h : n ∈ ns) : n.size ≤ sizeList ns := by
  induction ns with
  | nil => simp at h
  | cons m ms ih =>
    rcases List.mem_cons.1 h with rfl | h
    · simp [sizeList]
    · have := ih h
      simp [sizeList]; omega

def splice (n : Node) : List Node := if n.tag.isStructural then n.children else [n]

theorem sizeList_splice_le (n : Node) : sizeList n.splice ≤ n.size := by
  have := sizeList_children n
  unfold splice
  split
  · omega
  · simp [sizeList]

def spliceLevel (ns : List Node) : List Node := ns.flatMap splice

theorem sizeList_spliceLevel_le (ns : List Node) : sizeList (spliceLevel ns) ≤ sizeList ns := by
  induction ns with
  | nil => simp [spliceLevel]
  | cons n ns ih =>
    have := sizeList_splice_le n
    simp only [spliceLevel, List.flatMap_cons, sizeList, sizeList_append] at ih ⊢
    omega

theorem sizeList_spliceLevel_lt {ns : List Node} (h : ns.any (·.tag.isStructural) = true) :
    sizeList (spliceLevel ns) < sizeList ns := by
  induction ns with
  | nil => simp at h
  | cons n ns ih =>
    have hle := sizeList_spliceLevel_le ns
    simp only [spliceLevel, List.flatMap_cons, sizeList_append, sizeList] at ih hle ⊢
    by_cases hn : n.tag.isStructural = true
    · have := sizeList_children n
      simp only [splice, hn, if_true]
      omega
    · have := sizeList_splice_le n
      have := ih (by simpa [hn] using h)
      omega

def spliceAll (ns : List Node) : List Node :=
  if _ : ns.any (·.tag.isStructural) then spliceAll (spliceLevel ns) else ns
termination_by sizeList ns
decreasing_by exact sizeList_spliceLevel_lt ‹_›

theorem sizeList_spliceAll_le (ns : List Node) : sizeList (spliceAll ns) ≤ sizeList ns := by
  fun_induction spliceAll ns with
  | case1 ns h ih => exact Nat.le_trans ih (sizeList_spliceLevel_le ns)
  | case2 => exact Nat.le_refl _

def soleText (text : Text) : List Node → Text
  | [only] => if only.tag = .literal then only.text else text
  | _ => text

def simplify (n : Node) : Node :=
  let children := (spliceAll n.children).attach.map fun ⟨c, _⟩ => c.simplify
  { n with text := soleText n.text children, children }
termination_by n.size
decreasing_by
  have := size_le_of_mem ‹_›
  have := sizeList_spliceAll_le n.children
  have := sizeList_children n
  omega

end PegTree.Node
