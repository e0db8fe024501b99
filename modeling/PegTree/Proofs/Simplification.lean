import PegTree.Proofs.Splicing

/-!
# Simplifying any tree

What simplification does to a tree does not depend on how the tree came about: the loop over the levels
ends, what is left below the root are the nodes that are not structural, and a second run changes nothing.
-/

namespace PegTree.Node

/-! ## Level by level -/

mutual
def layers : Node → Nat
  | ⟨tag, _, _, _, children⟩ => if tag.isStructural then layersList children + 1 else 0
def layersList : List Node → Nat
  | [] => 0
  | n :: ns => max n.layers (layersList ns)
end

def spliceWithin : Nat → List Node → Option (List Node)
  | 0, _ => none
  | fuel + 1, ns => if ns.any (·.tag.isStructural) then spliceWithin fuel (spliceLevel ns) else some ns

/-- Simplification with at most `fuel` rounds in a loop and at most `fuel` calls one inside the other. -/
def simplifyWithin : Nat → Node → Option Node
  | 0, _ => none
  | fuel + 1, n => do
    let level ← spliceWithin (fuel + 1) n.children
    let children ← level.mapM (simplifyWithin fuel)
    return { n with text := soleText n.text children, children }

theorem layersList_append (ns ms : List Node) : layersList (ns ++ ms) = max (layersList ns) (layersList ms) := by
  induction ns with
  | nil => simp [layersList]
  | cons n ns ih => rw [List.cons_append, layersList, layersList, ih, Nat.max_assoc]

theorem layersList_splice (n : Node) : layersList n.splice = n.layers - 1 := by
  obtain ⟨tag, text, offset, stop, children⟩ := n
  unfold splice
  cases ht : tag.isStructural <;> simp [ht, layers, layersList]

theorem layersList_spliceLevel (ns : List Node) : layersList (spliceLevel ns) = layersList ns - 1 := by
  induction ns with
  | nil => rfl
  | cons n ns ih =>
    unfold spliceLevel at ih ⊢
    rw [List.flatMap_cons, layersList_append, layersList_splice, ih, layersList]
    omega

theorem layers_eq_zero_iff (n : Node) : n.layers = 0 ↔ n.tag.isStructural = false := by
  obtain ⟨tag, text, offset, stop, children⟩ := n
  cases ht : tag.isStructural <;> simp [ht, layers]

theorem layersList_eq_zero_iff (ns : List Node) : layersList ns = 0 ↔ ns.any (·.tag.isStructural) = false := by
  induction ns with
  | nil => simp [layersList]
  | cons n ns ih =>
    rw [layersList, Nat.max_eq_zero_iff, layers_eq_zero_iff, ih, List.any_cons, Bool.or_eq_false_iff]

/-- The loop comes to an end just if it may go through all layers and once more. -/
theorem spliceWithin_eq (fuel : Nat) (ns : List Node) :
    spliceWithin fuel ns = if layersList ns < fuel then some (flatList ns) else none := by
  induction fuel generalizing ns with
  | zero => simp [spliceWithin]
  | succ fuel ih =>
    -- a round takes one layer away, and the last one finds none
    rw [spliceWithin]
    by_cases hany : ns.any (·.tag.isStructural) = true
    · have hlayers : layersList ns ≠ 0 := by simp [layersList_eq_zero_iff, hany]
      have hround : layersList ns - 1 < fuel ↔ layersList ns < fuel + 1 := by omega
      simp only [hany, if_true, ih, layersList_spliceLevel, flatList_spliceLevel, hround]
    · have hnone : ns.any (·.tag.isStructural) = false := by simpa using hany
      have hflat : flatList ns = ns := flatList_of_not_structural (by simpa using hnone)
      simp [hnone, hflat, (layersList_eq_zero_iff ns).2 hnone]

mutual
theorem layers_le_height (n : Node) : n.layers ≤ n.height := by
  obtain ⟨tag, text, offset, stop, children⟩ := n
  have hchildren := layersList_le_height children
  rw [layers, height]
  split <;> omega
theorem layersList_le_height (ns : List Node) : layersList ns ≤ heightList ns := by
  match ns with
  | [] => exact Nat.le_refl _
  | n :: ns =>
    have hn := layers_le_height n
    have hns := layersList_le_height ns
    rw [layersList, heightList]
    omega
end

mutual
theorem height_of_flat (n : Node) : ∀ c ∈ n.flat, c.height ≤ n.height := by
  obtain ⟨tag, text, offset, stop, children⟩ := n
  intro c hc
  rw [flat] at hc
  split at hc
  · have hle := height_of_flatList children c hc
    rw [height]
    omega
  · rw [List.mem_singleton.1 hc]
theorem height_of_flatList (ns : List Node) : ∀ c ∈ flatList ns, c.height ≤ heightList ns := by
  match ns with
  | [] => exact List.forall_mem_nil _
  | n :: ns =>
    intro c hc
    rw [heightList]
    rcases List.mem_append.1 hc with hc | hc
    · exact Nat.le_trans (height_of_flat n c hc) (Nat.le_max_left _ _)
    · exact Nat.le_trans (height_of_flatList ns c hc) (Nat.le_max_right _ _)
end

theorem mapM_eq_some {f : Node → Option Node} {g : Node → Node} {ns : List Node} (h : ∀ n ∈ ns, f n = some (g n)) :
    ns.mapM f = some (ns.map g) := by
  induction ns with
  | nil => rfl
  | cons n ns ih =>
    obtain ⟨hn, hns⟩ := List.forall_mem_cons.1 h
    rw [List.mapM_cons, hn, ih hns]
    rfl

theorem simplifyWithin_eq {fuel : Nat} {n : Node} (h : n.height ≤ fuel) :
    simplifyWithin fuel n = some n.simplify := by
  induction fuel generalizing n with
  | zero =>
    obtain ⟨tag, text, offset, stop, children⟩ := n
    rw [height] at h
    omega
  | succ fuel ih =>
    have hheight : heightList n.children ≤ fuel := by
      obtain ⟨tag, text, offset, stop, children⟩ := n
      rw [height] at h
      show heightList children ≤ fuel
      omega
    have hloop : spliceWithin (fuel + 1) n.children = some (flatList n.children) := by
      have hlayers := layersList_le_height n.children
      rw [spliceWithin_eq, if_pos (by omega)]
    have hcalls : (flatList n.children).mapM (simplifyWithin fuel) = some ((flatList n.children).map simplify) :=
      mapM_eq_some fun c hc => ih (Nat.le_trans (height_of_flatList n.children c hc) hheight)
    rw [simplifyWithin, hloop, simplify_eq_flat]
    simp [hcalls]

/-! ## What is left -/

mutual
/-- The nodes below a node, each of them before those below it. -/
def descendants : Node → List Node
  | ⟨_, _, _, _, children⟩ => listing children
def listing : List Node → List Node
  | [] => []
  | n :: ns => n :: (n.descendants ++ listing ns)
end

theorem descendants_eq (n : Node) : n.descendants = listing n.children := by
  cases n
  rfl

theorem listing_append (ns ms : List Node) : listing (ns ++ ms) = listing ns ++ listing ms := by
  induction ns with
  | nil => rfl
  | cons n ns ih => simp [listing, ih]

def mark (n : Node) : Tag × Nat × Option Nat := (n.tag, n.offset, n.stop)

theorem simplify_mark (n : Node) : n.simplify.mark = n.mark := by
  rw [simplify_eq_flat]
  rfl

theorem simplify_text (n : Node) : n.simplify.text = soleText n.text n.simplify.children := by
  rw [simplify_children, simplify_eq_flat]

mutual
theorem flat_not_structural (n : Node) : ∀ c ∈ n.flat, c.tag.isStructural = false := by
  obtain ⟨tag, text, offset, stop, children⟩ := n
  rw [flat]
  cases ht : tag.isStructural with
  | true => exact flatList_not_structural children
  | false => exact List.forall_mem_singleton.2 ht
theorem flatList_not_structural (ns : List Node) : ∀ c ∈ flatList ns, c.tag.isStructural = false := by
  match ns with
  | [] => exact List.forall_mem_nil _
  | n :: ns => exact List.forall_mem_append.2 ⟨flat_not_structural n, flatList_not_structural ns⟩
end

mutual
theorem listing_flat (n : Node) : (listing (n.flat.map simplify)).map mark =
    ((n :: n.descendants).filter (!·.tag.isStructural)).map mark := by
  obtain ⟨tag, text, offset, stop, children⟩ := n
  have hchildren := listing_flatList children
  rw [flat, descendants]
  cases ht : tag.isStructural with
  | true => simpa [ht] using hchildren
  | false => simp [ht, listing, descendants_eq, simplify_children, simplify_mark, hchildren]
theorem listing_flatList (ns : List Node) : (listing ((flatList ns).map simplify)).map mark =
    ((listing ns).filter (!·.tag.isStructural)).map mark := by
  match ns with
  | [] => rfl
  | n :: ns =>
    rw [flatList, List.map_append, listing_append, List.map_append, listing_flat n, listing_flatList ns, listing,
      ← List.cons_append, List.filter_append, List.map_append]
end

/-- Listed in pre-order, a tree loses its structural nodes and no other. -/
theorem descendants_simplify (n : Node) :
    n.simplify.descendants.map mark = (n.descendants.filter (!·.tag.isStructural)).map mark := by
  rw [descendants_eq, descendants_eq, simplify_children, listing_flatList]

theorem not_structural_of_simplify {n m : Node} (h : m ∈ n.simplify.descendants) : m.tag.isStructural = false := by
  have hm : m.mark ∈ n.simplify.descendants.map mark := List.mem_map_of_mem h
  rw [descendants_simplify] at hm
  obtain ⟨k, hk, he⟩ := List.mem_map.1 hm
  have htag : k.tag = m.tag := congrArg Prod.fst he
  rw [← htag]
  simpa using (List.mem_filter.1 hk).2

/-! ## Simplifying twice -/

theorem soleText_soleText (t : Text) (ns : List Node) : soleText (soleText t ns) ns = soleText t ns := by
  match ns with
  | [] => rfl
  | [only] =>
    unfold soleText
    dsimp only
    split <;> rfl
  | _ :: _ :: _ => rfl

theorem simplify_twice_of {n : Node} (h : n.simplify.children.map simplify = n.simplify.children) :
    n.simplify.simplify = n.simplify := by
  -- the second run finds no structural node among the children, and the text of a sole child is taken already
  have hflat : flatList n.simplify.children = n.simplify.children := by
    refine flatList_of_not_structural fun c hc => ?_
    rw [simplify_children] at hc
    obtain ⟨c₀, hc₀, rfl⟩ := List.mem_map.1 hc
    rw [simplify_tag]
    exact flatList_not_structural n.children c₀ hc₀
  have htext : soleText n.simplify.text n.simplify.children = n.simplify.text := by
    rw [simplify_text, soleText_soleText]
  rw [simplify_eq_flat n.simplify, hflat, h, htext]
  cases n.simplify
  rfl

mutual
theorem simplify_flat_twice (n : Node) : (n.flat.map simplify).map simplify = n.flat.map simplify := by
  obtain ⟨tag, text, offset, stop, children⟩ := n
  have hchildren := simplify_flatList_twice children
  rw [flat]
  cases ht : tag.isStructural with
  | true => exact hchildren
  | false =>
    refine congrArg (fun n => [n]) (simplify_twice_of ?_)
    rw [simplify_children]
    exact hchildren
theorem simplify_flatList_twice (ns : List Node) :
    ((flatList ns).map simplify).map simplify = (flatList ns).map simplify := by
  match ns with
  | [] => rfl
  | n :: ns => rw [flatList, List.map_append, List.map_append, simplify_flat_twice n, simplify_flatList_twice ns]
end

/-- Simplification ends, flattens what is below the root, and changes nothing of a simplified tree: what was
not structural is there in its place, simplified itself. -/
theorem simplify_flattens (n : Node) :
    (∀ fuel, n.height ≤ fuel → simplifyWithin fuel n = some n.simplify) ∧
    (∀ m ∈ n.simplify.descendants, m.tag.isStructural = false) ∧
    n.simplify.children = (flatList n.children).map simplify ∧
    n.simplify.children.map mark = (flatList n.children).map mark ∧
    n.simplify.descendants.map mark = (n.descendants.filter (!·.tag.isStructural)).map mark ∧
    n.simplify.mark = n.mark ∧
    n.simplify.text = soleText n.text n.simplify.children ∧
    n.simplify.simplify = n.simplify := by
  have hchildren : n.simplify.children.map mark = (flatList n.children).map mark := by
    rw [simplify_children, List.map_map]
    exact List.map_congr_left fun c _ => c.simplify_mark
  have htwice : n.simplify.simplify = n.simplify := by
    refine simplify_twice_of ?_
    rw [simplify_children]
    exact simplify_flatList_twice n.children
  exact ⟨fun _ hf => simplifyWithin_eq hf, fun _ hm => not_structural_of_simplify hm,
    n.simplify_children, hchildren,
    n.descendants_simplify, n.simplify_mark, n.simplify_text, htwice⟩

def grafted : Node :=
  .matched (.rule "r") ['x', 'y'] 0 2 [.matched .sequence ['x', 'y'] 0 2 [.matched .choice ['x', 'y'] 0 2
    [.matched .literal ['x', 'y'] 0 2 [.matched .optional ['x'] 0 1 [.matched .literal ['x'] 0 1 []]]]]]

theorem simplify_flattens_grafted : grafted.simplify = .matched (.rule "r") ['x'] 0 2
    [.matched .literal ['x'] 0 2 [.matched .literal ['x'] 0 1 []]] ∧
      grafted.simplify.simplify = grafted.simplify := by
  obtain ⟨hends, _, _, _, _, _, _, htwice⟩ := simplify_flattens grafted
  have hrun := hends 6 (by decide)
  exact ⟨(Option.some.inj hrun).symm, htwice⟩

end PegTree.Node
