import PegTree.Proofs.Yield

/-!
# Deleting from any tree

Deletion takes away the nodes that a node of the deleted tag stands above, and those of the tag. It does
not matter in which order tags are deleted, and whether a rule is deleted before simplification or after
it shows in texts only.
-/

namespace PegTree.Node

variable {a b : Tag}

/-! ## Ways -/

mutual
/-- The ways from right below a node to the nodes below it, in pre-order. A way ends with its last node. -/
def ways : Node → List (List Node)
  | ⟨_, _, _, _, children⟩ => waysList children
def waysList : List Node → List (List Node)
  | [] => []
  | n :: ns => [n] :: (n.ways.map (n :: ·) ++ waysList ns)
end

def avoids (a : Tag) (way : List Node) : Bool := way.all (·.tag != a)

theorem ways_ne_nil : ∀ ns : List Node, ∀ way ∈ waysList ns, way ≠ []
  | [], way, h => by cases h
  | n :: ns, way, h => by
    rw [waysList, List.mem_cons, List.mem_append] at h
    rcases h with rfl | h | h
    · exact List.cons_ne_nil _ _
    · obtain ⟨rest, _, rfl⟩ := List.mem_map.1 h
      exact List.cons_ne_nil _ _
    · exact ways_ne_nil ns way h

theorem ways_eq (n : Node) : n.ways = waysList n.children := by
  cases n
  rfl

def ends (ways : List (List Node)) : List Node := ways.filterMap (·.getLast?)

theorem ends_append (ws vs : List (List Node)) : ends (ws ++ vs) = ends ws ++ ends vs := List.filterMap_append

theorem ends_map_cons (n : Node) {ws : List (List Node)} (h : ∀ way ∈ ws, way ≠ []) :
    ends (ws.map (n :: ·)) = ends ws := by
  unfold ends
  rw [List.filterMap_map]
  refine List.filterMap_congr fun way hway => ?_
  obtain ⟨m, rest, rfl⟩ := List.exists_cons_of_ne_nil (h way hway)
  simp [List.getLast?_cons]

mutual
theorem ends_ways (n : Node) : ends n.ways = n.descendants := by
  obtain ⟨tag, text, offset, stop, children⟩ := n
  exact ends_waysList children
theorem ends_waysList (ns : List Node) : ends (waysList ns) = listing ns := by
  match ns with
  | [] => rfl
  | n :: ns =>
    have hne : ∀ way ∈ n.ways, way ≠ [] := by
      rw [ways_eq]
      exact ways_ne_nil n.children
    rw [waysList, ← List.singleton_append, ends_append, ends_append, ends_map_cons n hne, ends_ways n,
      ends_waysList ns]
    rfl
end

/-! ## What is left -/

def faces (ways : List (List Node)) : List (List Face) := ways.map (·.map face)

theorem faces_cons (way : List Node) (ws : List (List Node)) : faces (way :: ws) = way.map face :: faces ws := rfl

theorem faces_append (ws vs : List (List Node)) : faces (ws ++ vs) = faces ws ++ faces vs := List.map_append

theorem faces_map_cons {n m : Node} (h : n.face = m.face) {ws vs : List (List Node)} (hw : faces ws = faces vs) :
    faces (ws.map (n :: ·)) = faces (vs.map (m :: ·)) := by
  have hcons : ∀ (k : Node) (us : List (List Node)), faces (us.map (k :: ·)) = (faces us).map (k.face :: ·) := by
    intro k us
    simp [faces]
  rw [hcons, hcons, hw, h]

theorem ends_faces (ws : List (List Node)) : (ends ws).map face = (faces ws).filterMap (·.getLast?) := by
  simp [ends, faces, List.map_filterMap, List.filterMap_map]

theorem deleteAll_face (n : Node) (a : Tag) : (n.deleteAll a).face = n.face := by
  rw [deleteAll_children]
  rfl

theorem filter_avoids_cons (n : Node) (ws : List (List Node)) :
    (ws.map (n :: ·)).filter (avoids a) = if n.tag = a then [] else (ws.filter (avoids a)).map (n :: ·) := by
  rw [List.filter_map]
  by_cases h : n.tag = a
  · simp [Function.comp_def, avoids, h]
  · have hcomp : (avoids a ∘ fun way => n :: way) = avoids a := by
      funext way
      simp [avoids, h]
    rw [hcomp, if_neg h]

mutual
/-- The ways that are left are those that meet no node of the tag. -/
theorem deleteAll_ways (n : Node) (a : Tag) : faces (n.deleteAll a).ways = faces (n.ways.filter (avoids a)) := by
  obtain ⟨tag, text, offset, stop, children⟩ := n
  exact deleteAllList_ways children a
theorem deleteAllList_ways (ns : List Node) (a : Tag) :
    faces (waysList (deleteAllList a ns)) = faces ((waysList ns).filter (avoids a)) := by
  match ns with
  | [] => rfl
  | n :: ns =>
    have hn := deleteAll_ways n a
    have hns := deleteAllList_ways ns a
    rw [deleteAllList, waysList, List.filter_cons, List.filter_append, filter_avoids_cons]
    by_cases h : n.tag = a
    · simp [h, avoids, hns]
    · have hbelow := faces_map_cons (n.deleteAll_face a) hn
      have hkept : avoids a [n] = true := by simp [avoids, h]
      rw [if_neg h, if_neg h, if_pos hkept, waysList, faces_cons, faces_cons, faces_append,
        faces_append, hbelow, hns]
      simp [deleteAll_face]
end

theorem deleteAll_descendants (n : Node) (a : Tag) :
    (n.deleteAll a).descendants.map face = (ends (n.ways.filter (avoids a))).map face := by
  rw [← ends_ways, ends_faces, ends_faces, deleteAll_ways]

theorem tag_ends_avoids {ws : List (List Node)} {n : Node} (h : n ∈ ends (ws.filter (avoids a))) : n.tag ≠ a := by
  obtain ⟨way, hway, hlast⟩ := List.mem_filterMap.1 h
  have havoids : way.all (·.tag != a) = true := (List.mem_filter.1 hway).2
  have hn := List.all_eq_true.1 havoids n (List.mem_of_getLast? hlast)
  simpa using hn

theorem deleteAll_tags (n : Node) (a : Tag) : a ∉ (n.deleteAll a).descendants.map (·.tag) := by
  have htags : ∀ ns : List Node, ns.map (·.tag) = (ns.map face).map (·.tag) := by
    intro ns
    simp [face]
  rw [htags, deleteAll_descendants, ← htags]
  intro hmem
  obtain ⟨m, hm, htag⟩ := List.mem_map.1 hmem
  exact tag_ends_avoids hm htag

/-! ## One deletion after another -/

theorem deleteAllList_eq (ns : List Node) (a : Tag) :
    deleteAllList a ns = (ns.filter (·.tag != a)).map (deleteAll a) := by
  induction ns with
  | nil => rfl
  | cons n ns ih =>
    rw [deleteAllList, ih]
    by_cases h : n.tag = a <;> simp [h]

theorem deleteAll_tag (n : Node) (a : Tag) : (n.deleteAll a).tag = n.tag := congrArg Face.tag (n.deleteAll_face a)

theorem deleteAllList_filter (ns : List Node) (a b : Tag) :
    deleteAllList a (ns.filter (·.tag != b)) = (deleteAllList a ns).filter (·.tag != b) := by
  have hcomp : ((·.tag != b) ∘ deleteAll a) = (·.tag != b) := by
    funext n
    simp [deleteAll_tag]
  rw [deleteAllList_eq, deleteAllList_eq, List.filter_map, hcomp, List.filter_comm]

mutual
theorem deleteAll_comm (n : Node) (a b : Tag) : (n.deleteAll a).deleteAll b = (n.deleteAll b).deleteAll a := by
  obtain ⟨tag, text, offset, stop, children⟩ := n
  exact congrArg (Node.mk tag text offset stop) (deleteAllList_comm children a b)
theorem deleteAllList_comm (ns : List Node) (a b : Tag) :
    deleteAllList b (deleteAllList a ns) = deleteAllList a (deleteAllList b ns) := by
  match ns with
  | [] => rfl
  | n :: ns =>
    have hn := deleteAll_comm n a b
    have hns := deleteAllList_comm ns a b
    rw [deleteAllList, deleteAllList]
    by_cases ha : n.tag = a
    · by_cases hb : n.tag = b
      · rw [if_pos ha, if_pos hb, hns]
      · rw [if_pos ha, if_neg hb, deleteAllList, deleteAll_tag, if_pos ha, hns]
    · by_cases hb : n.tag = b
      · rw [if_neg ha, if_pos hb, deleteAllList, deleteAll_tag, if_pos hb, hns]
      · rw [if_neg ha, if_neg hb, deleteAllList, deleteAllList, deleteAll_tag, deleteAll_tag,
          if_neg ha, if_neg hb, hn,
          hns]
end

mutual
theorem deleteAll_twice (n : Node) (a : Tag) : (n.deleteAll a).deleteAll a = n.deleteAll a := by
  obtain ⟨tag, text, offset, stop, children⟩ := n
  exact congrArg (Node.mk tag text offset stop) (deleteAllList_twice children a)
theorem deleteAllList_twice (ns : List Node) (a : Tag) :
    deleteAllList a (deleteAllList a ns) = deleteAllList a ns := by
  match ns with
  | [] => rfl
  | n :: ns =>
    have hn := deleteAll_twice n a
    have hns := deleteAllList_twice ns a
    by_cases h : n.tag = a
    · simp [deleteAllList, h, hns]
    · simp [deleteAllList, h, deleteAll_tag, hn, hns]
end

theorem delete_deep (n : Node) (a : Tag) : n.delete a true = n.deleteAll a := rfl

theorem delete_comm (n : Node) (a b : Tag) (deep deep' : Bool) :
    (n.delete a deep).delete b deep' = (n.delete b deep').delete a deep := by
  cases deep with
  | true =>
    cases deep' with
    | true => exact n.deleteAll_comm a b
    | false => simp [delete, deleteAll_children, deleteAllList_filter]
  | false =>
    cases deep' with
    | true => simp [delete, deleteAll_children, deleteAllList_filter]
    | false => simp only [delete, Bool.false_eq_true, if_false, List.filter_comm]

theorem delete_twice (n : Node) (a : Tag) (deep : Bool) : (n.delete a deep).delete a deep = n.delete a deep := by
  cases deep with
  | true => exact n.deleteAll_twice a
  | false => simp [delete]

/-! ## Deletion and simplification -/

mutual
def outline : Node → Node
  | ⟨tag, _, offset, stop, children⟩ => ⟨tag, [], offset, stop, outlineList children⟩
def outlineList : List Node → List Node
  | [] => []
  | n :: ns => n.outline :: outlineList ns
end

theorem outline_eq (n : Node) : n.outline = ⟨n.tag, [], n.offset, n.stop, outlineList n.children⟩ := by
  cases n
  rfl

theorem outlineList_append (ns ms : List Node) : outlineList (ns ++ ms) = outlineList ns ++ outlineList ms := by
  induction ns with
  | nil => rfl
  | cons n ns ih => rw [List.cons_append, outlineList, outlineList, ih, List.cons_append]

theorem outline_of_children {n : Node} (h : outlineList ((flatList (deleteAllList a n.children)).map simplify) =
      outlineList (deleteAllList a ((flatList n.children).map simplify))) :
    (n.deleteAll a).simplify.outline = (n.simplify.deleteAll a).outline := by
  rw [outline_eq, outline_eq, deleteAll_children, deleteAll_children, simplify_eq_flat, simplify_eq_flat, h]

mutual
/-- A node gives the same outlines below it whether the tag is deleted before simplification or after it. -/
theorem outline_flat (ha : a.isStructural = false) (n : Node) :
    outlineList ((flatList (deleteAllList a [n])).map simplify) =
      outlineList (deleteAllList a (n.flat.map simplify)) := by
  obtain ⟨tag, text, offset, stop, children⟩ := n
  have hchildren := outline_flatList ha children
  by_cases htag : tag = a
  · subst htag
    simp [deleteAllList, flatList, flat, ha, simplify_tag]
  · cases hs : tag.isStructural with
    | true => simpa [deleteAllList, deleteAll, flatList, flat, htag, hs] using hchildren
    | false =>
      have hnode := outline_of_children (n := ⟨tag, text, offset, stop, children⟩) hchildren
      simpa [deleteAllList, deleteAll, flatList, flat, htag, hs, simplify_tag, outlineList] using hnode
theorem outline_flatList (ha : a.isStructural = false) (ns : List Node) :
    outlineList ((flatList (deleteAllList a ns)).map simplify) =
      outlineList (deleteAllList a ((flatList ns).map simplify)) := by
  match ns with
  | [] => rfl
  | n :: ns =>
    have hn := outline_flat ha n
    have hns := outline_flatList ha ns
    rw [← List.singleton_append, deleteAllList_append, flatList_append, List.map_append,
      outlineList_append, hn, hns,
      flatList_append, List.map_append, deleteAllList_append, outlineList_append]
    simp [flatList]
end

theorem simplify_deleteAll (ha : a.isStructural = false) (n : Node) :
    (n.deleteAll a).simplify.outline = (n.simplify.deleteAll a).outline :=
  outline_of_children (outline_flatList ha n.children)

/-- Of a tree that a tag is deleted from, the nodes are left that are reached without meeting the tag, in their
order and as they were. Deletions commute and need no second time. A rule may as well be deleted before
simplification, which leads to the same tree but for the texts in it. -/
theorem delete_exact (n : Node) (a b : Tag) (name : String) :
    a ∉ (n.delete a true).descendants.map (·.tag) ∧
    (n.delete a true).face = n.face ∧
    (n.delete a true).descendants.map face = (ends (n.ways.filter (avoids a))).map face ∧
    (n.delete a true).ways.map (·.map face) = (n.ways.filter (avoids a)).map (·.map face) ∧
    (∀ deep deep', (n.delete a deep).delete b deep' = (n.delete b deep').delete a deep) ∧
    (∀ deep, (n.delete a deep).delete a deep = n.delete a deep) ∧
    (n.delete (.rule name) true).simplify.outline = (n.simplify.delete (.rule name) true).outline := by
  simp only [delete_deep]
  exact ⟨n.deleteAll_tags a, n.deleteAll_face a, n.deleteAll_descendants a, n.deleteAll_ways a, n.delete_comm a b,
    n.delete_twice a, n.simplify_deleteAll rfl⟩

def besideGap : Node :=
  .matched (.rule "operator") [' ', '='] 0 2 [.matched (.rule "gap") [' '] 0 1 [], .matched .literal ['='] 1 2 []]

/-- The texts do differ: the literal lends its text to the node around it only if it is alone there. -/
example : (besideGap.delete (.rule "gap") true).simplify.text = ['='] ∧
    (besideGap.simplify.delete (.rule "gap") true).text = [' ', '='] := by
  cbv

end PegTree.Node
