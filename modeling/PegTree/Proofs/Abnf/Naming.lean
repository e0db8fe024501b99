import PegTree.Proofs.Abnf.Blocks
import PegTree.Proofs.Abnf.Spacing

/-!
# The names that a text defines

A rule of a text gives its name to the definitions if its operator is `=`. So the names of the definitions
are those of such rules, in the order in which the rules stand in the text, and no name is there twice.
-/

namespace PegTree.Abnf

/-- The name that a rule of a text defines; by `=/` none is defined. -/
def defined? (n : Node) : Option String :=
  match child n "rulename", child n "defined_as" with
  | .ok name, .ok operator =>
    if String.ofList (trim operator.text) = "=" then some (String.ofList name.text) else none
  | _, _ => none

section
variable {d d' : Definitions} {n : Node} {ns : List Node}

theorem addRule_ok (h : d.addRule n = .ok d') : ∃ name operator rhs, child n "rulename" = .ok name ∧
    child n "defined_as" = .ok operator ∧
    d.define (String.ofList name.text) (String.ofList (trim operator.text)) rhs = .ok d' := by
  unfold Definitions.addRule at h
  obtain ⟨name, h₁, h⟩ := bind_ok h
  obtain ⟨operator, h₂, h⟩ := bind_ok h
  obtain ⟨elements, _, h⟩ := bind_ok h
  obtain ⟨rhs, _, h⟩ := bind_ok h
  exact ⟨name, operator, rhs, h₁, h₂, h⟩

theorem names_addRule (h : d.addRule n = .ok d') :
    d'.names = d.names ++ (defined? n).toList ∧ ∀ name ∈ defined? n, name ∉ d.names := by
  obtain ⟨name, operator, rhs, h₁, h₂, hdef⟩ := addRule_ok h
  unfold defined?
  simp only [h₁, h₂]
  rcases define_ok hdef with ⟨ho, hn, hd⟩ | ⟨ho, _, hd⟩
  · subst hd
    refine ⟨by simp [ho, Definitions.names], ?_⟩
    simpa [ho] using hn
  · rw [hd, names_extend]
    simp [ho]

theorem names_foldlM (h : ns.foldlM Definitions.addRule d = .ok d') (hd : d.names.Nodup) :
    d'.names = d.names ++ ns.filterMap defined? ∧ d'.names.Nodup := by
  induction ns generalizing d with
  | nil =>
    cases h
    simpa using hd
  | cons n ns ih =>
    rw [List.foldlM_cons] at h
    obtain ⟨d₁, hn, h⟩ := bind_ok h
    obtain ⟨hnames, hfresh⟩ := names_addRule hn
    have hd₁ : d₁.names.Nodup := by
      rw [hnames]
      cases hdef : defined? n with
      | none => simpa using hd
      | some name =>
        refine List.nodup_append.2 ⟨hd, List.nodup_singleton _, fun m hm m' hm' he => ?_⟩
        have hname : m = name := he.trans (List.mem_singleton.1 hm')
        rw [hname] at hm
        exact hfresh name hdef hm
    obtain ⟨hnames', hnodup⟩ := ih h hd₁
    refine ⟨?_, hnodup⟩
    rw [hnames', hnames, List.append_assoc]
    cases hdef : defined? n <;> simp [hdef]

end

section
variable {t : Text} {p q k : Nat} {ns : List Node}

theorem rules_ordered (h : (reading t).Repeats item p q k ns) :
    ns.Pairwise (·.offset < ·.offset) ∧ ∀ n ∈ ns, p ≤ n.offset := by
  have hplace : ∀ {p q : Nat} {ns : List Node}, (reading t).Matches item p q ns → ∀ n ∈ ns,
      ns = [n] ∧ n.offset = p := by
    intro p q ns hm n hn
    obtain ⟨hrule, hsole⟩ := item_rule hm hn
    exact ⟨hsole, (matches_node rfl rfl hrule).2.1⟩
  have hlone : ∀ {p q : Nat} {ns : List Node}, (reading t).Matches item p q ns →
      ns.Pairwise (·.offset < ·.offset) := by
    intro p q ns hm
    cases ns with
    | nil => exact .nil
    | cons n ns =>
      rw [(hplace hm n List.mem_cons_self).1]
      exact List.pairwise_singleton _ n
  induction h with
  | refused _ => exact ⟨.nil, List.forall_mem_nil _⟩
  | still hm => exact ⟨hlone hm, fun n hn => Nat.le_of_eq (hplace hm n hn).2.symm⟩
  | @cons p m q k ns ns' hm hne _ ih =>
    obtain ⟨hrest, hafter⟩ := ih
    have hlt : p < m := Nat.lt_of_le_of_ne hm.le (Ne.symm hne)
    refine ⟨List.pairwise_append.2 ⟨hlone hm, hrest, fun n hn n' hn' => ?_⟩, fun n hn => ?_⟩
    · have := hafter n' hn'
      rw [(hplace hm n hn).2]
      omega
    · rcases List.mem_append.1 hn with hn | hn
      · exact Nat.le_of_eq (hplace hm n hn).2.symm
      · have := hafter n hn
        omega

end

/-- The names of the definitions are those that rules of the text define, from the first to the last. -/
theorem compile_names {t : Text} {d : Definitions} (h : compile t = .ok d) : d.names.Nodup ∧
    ∃ tree, parseTree (normalize t) = .ok tree ∧ (tree.childrenNamed "rule").Pairwise (·.offset < ·.offset) ∧
      d.names = (tree.childrenNamed "rule").filterMap defined? := by
  unfold compile at h
  rcases parseTree_cases (normalize t) with ⟨q, _, hq⟩ | ⟨x, q, ns, hm, _, htree⟩
  · rw [hq] at h
    cases h
  · rw [htree] at h
    obtain ⟨hnames, hnodup⟩ := names_foldlM h List.nodup_nil
    obtain ⟨k, hrep⟩ := Reading.matches_many.1 hm
    refine ⟨hnodup, _, htree, ?_, hnames⟩
    have hrules :
        (Node.matched (.rule "rulelist") x 0 q (ns ++ [.matched .endOfInput [] q q []])).childrenNamed "rule" =
        ns.filter (·.name? == some "rule") := by
      show (ns ++ [_]).filter _ = _
      rw [List.filter_append]
      exact List.append_nil _
    rw [hrules]
    exact (rules_ordered hrep).1.filter _

end PegTree.Abnf
