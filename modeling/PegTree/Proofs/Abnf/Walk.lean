import PegTree.Proofs.Abnf.Tree
import PegTree.Proofs.Carries

/-!
# The walk over a tree does not see places

What becomes of a tree depends on the tags and texts of its nodes, not on where they are in the text.
-/

namespace PegTree.Abnf

section
variable {ns ms : List Node} {n : Node} {name : String}

theorem bare_name? (n : Node) : n.bare.name? = n.name? := by
  obtain ⟨tag, text, offset, stop, children⟩ := n
  rfl

theorem bare_text (n : Node) : n.bare.text = n.text := by
  obtain ⟨tag, text, offset, stop, children⟩ := n
  rfl

theorem find?_bare (ns : List Node) : (Node.bareList ns).find? (·.name? == some name) =
    (ns.find? (·.name? == some name)).map Node.bare := by
  induction ns with
  | nil => rfl
  | cons n ns ih =>
    rw [Node.bareList, List.find?_cons, List.find?_cons, bare_name?, ih]
    cases n.name? == some name <;> rfl

theorem filter_bare (ns : List Node) : (Node.bareList ns).filter (·.name? == some name) =
    Node.bareList (ns.filter (·.name? == some name)) := by
  induction ns with
  | nil => rfl
  | cons n ns ih =>
    rw [Node.bareList, List.filter_cons, List.filter_cons, bare_name?, ih]
    cases n.name? == some name <;> rfl

theorem withBounds_bare (e : Expr) (ns : List Node) : withBounds e (Node.bareList ns) = withBounds e ns := by
  unfold withBounds
  rw [find?_bare]
  cases ns.find? (·.name? == some "repeat") with
  | none => rfl
  | some n => simp [bare_text]

/-! Each function of the walk gives the same without places. -/

mutual
theorem alternationIn_bare (owner : Tag) (ns : List Node) :
    alternationIn owner (Node.bareList ns) = alternationIn owner ns := by
  match ns with
  | [] => rfl
  | n :: ns =>
    unfold Node.bareList alternationIn
    rw [bare_name?, alternation_bare n, alternationIn_bare owner ns]
theorem alternation_bare (n : Node) : alternation n.bare = alternation n := by
  obtain ⟨tag, text, offset, stop, children⟩ := n
  unfold Node.bare alternation
  rw [concatenations_bare children]
theorem concatenations_bare (ns : List Node) : concatenations (Node.bareList ns) = concatenations ns := by
  match ns with
  | [] => rfl
  | n :: ns =>
    unfold Node.bareList concatenations
    rw [bare_name?, concatenation_bare n, concatenations_bare ns]
theorem concatenation_bare (n : Node) : concatenation n.bare = concatenation n := by
  obtain ⟨tag, text, offset, stop, children⟩ := n
  unfold Node.bare concatenation
  rw [repetitions_bare children]
theorem repetitions_bare (ns : List Node) : repetitions (Node.bareList ns) = repetitions ns := by
  match ns with
  | [] => rfl
  | n :: ns =>
    unfold Node.bareList repetitions
    rw [bare_name?, repetition_bare n, repetitions_bare ns]
theorem repetition_bare (n : Node) : repetition n.bare = repetition n := by
  obtain ⟨tag, text, offset, stop, children⟩ := n
  unfold Node.bare repetition
  rw [elementIn_bare tag children]
  exact bind_congr fun e => withBounds_bare e children
theorem elementIn_bare (owner : Tag) (ns : List Node) :
    elementIn owner (Node.bareList ns) = elementIn owner ns := by
  match ns with
  | [] => rfl
  | n :: ns =>
    unfold Node.bareList elementIn
    rw [bare_name?, element_bare n, elementIn_bare owner ns]
theorem element_bare (n : Node) : element n.bare = element n := by
  match n with
  | ⟨_, _, _, _, []⟩ => rfl
  | ⟨_, _, _, _, ⟨tag, text, offset, stop, children⟩ :: cs⟩ =>
    unfold Node.bare Node.bareList Node.bare element
    rw [alternationIn_bare tag children]
end

theorem alternationIn_of_bare {m : Node} (h : n.bare = m.bare) :
    alternationIn n.tag n.children = alternationIn m.tag m.children := by
  obtain ⟨tag, text, offset, stop, children⟩ := n
  obtain ⟨tag', text', offset', stop', children'⟩ := m
  simp only [Node.bare, Node.mk.injEq] at h
  obtain ⟨rfl, -, -, -, hc⟩ := h
  rw [← alternationIn_bare, hc, alternationIn_bare]

/-! ## Rules -/

theorem child_bare (n : Node) (name : String) : child n.bare name = (child n name).map Node.bare := by
  obtain ⟨tag, text, offset, stop, children⟩ := n
  unfold child Node.child? Node.childrenNamed Node.bare
  dsimp only
  rw [filter_bare]
  generalize children.filter (·.name? == some name) = found
  match found with
  | [] => rfl
  | [_] => rfl
  | _ :: _ :: _ => rfl

theorem addRule_bare (d : Definitions) (n : Node) : d.addRule n.bare = d.addRule n := by
  unfold Definitions.addRule
  simp only [child_bare]
  cases child n "rulename" with
  | error e => rfl
  | ok name =>
    cases child n "defined_as" with
    | error e => rfl
    | ok operator =>
      cases child n "elements" with
      | error e => rfl
      | ok elements =>
        obtain ⟨tag, text, offset, stop, children⟩ := elements
        show (alternationIn tag (Node.bareList children) >>= _) = (alternationIn tag children >>= _)
        rw [alternationIn_bare]
        simp only [bare_text]

section
variable {n₁ n₂ n₃ : Node} (h : n.children = [n₁, n₂, n₃]) (h₁ : n₁.name? = some "rulename")
  (h₂ : n₂.name? = some "defined_as") (h₃ : n₃.name? = some "elements")
include h h₁ h₂ h₃

theorem child_of_children : child n "rulename" = .ok n₁ ∧ child n "defined_as" = .ok n₂ ∧
    child n "elements" = .ok n₃ := by
  simp [child, Node.child?, Node.childrenNamed, h, h₁, h₂, h₃, Found.first]

theorem addRule_children (d : Definitions) : d.addRule n =
    alternationIn n₃.tag n₃.children >>= d.define (String.ofList n₁.text) (String.ofList (trim n₂.text)) := by
  obtain ⟨c₁, c₂, c₃⟩ := child_of_children h h₁ h₂ h₃
  unfold Definitions.addRule
  rw [c₁, c₂, c₃]
  rfl

end

/-- The definitions that the rules among the nodes add. -/
def addRules (d : Definitions) (ns : List Node) : Except Error Definitions :=
  (ns.filter (·.name? == some "rule")).foldlM Definitions.addRule d

theorem addRules_append (d : Definitions) (ns ms : List Node) :
    addRules d (ns ++ ms) = addRules d ns >>= fun d => addRules d ms := by
  unfold addRules
  rw [List.filter_append, List.foldlM_append]

theorem foldlM_bare (d : Definitions) (ns : List Node) :
    (Node.bareList ns).foldlM Definitions.addRule d = ns.foldlM Definitions.addRule d := by
  induction ns generalizing d with
  | nil => rfl
  | cons n ns ih =>
    rw [Node.bareList, List.foldlM_cons, List.foldlM_cons, addRule_bare]
    exact bind_congr fun d => ih d

theorem addRules_bare (d : Definitions) (h : Node.bareList ns = Node.bareList ms) :
    addRules d ns = addRules d ms := by
  unfold addRules
  rw [← foldlM_bare, ← filter_bare, h, filter_bare, foldlM_bare]

theorem addRules_rule (d : Definitions) (hn : n.name? = some "rule") : addRules d [n] = d.addRule n := by
  simp [addRules, hn]

end

/-- Where the items of the list take all of a text, it is compiled to what they add. -/
theorem compile_items {t u : Text} {q : Nat} {ns : List Node} (hu : normalize t = u)
    (hm : (reading u).Matches item.many 0 q ns) (hq : (reading u).input.rest q = []) :
    compile t = addRules {} ns := by
  obtain ⟨x, htree⟩ := parseTree_all hm hq
  unfold compile
  rw [hu, htree]
  show addRules {} (ns ++ [.matched .endOfInput [] q q []]) = _
  rw [addRules_append]
  show (addRules {} ns >>= fun d => .ok d) = _
  exact bind_pure _

end PegTree.Abnf
