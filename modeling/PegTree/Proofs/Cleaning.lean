import PegTree.Proofs.Matching
import PegTree.Tree.Delete

/-!
# Simplified trees without some of their rules

A derived tree that is simplified and then loses the nodes of some rules is the tree with its
parts for children. Every node in it is what a rule left, or a leaf.
-/

namespace PegTree

namespace Node

/-! ## Simplification -/

mutual
def flat : Node → List Node
  | ⟨tag, text, offset, stop, children⟩ =>
    if tag.isStructural then flatList children else [⟨tag, text, offset, stop, children⟩]
def flatList : List Node → List Node
  | [] => []
  | n :: ns => n.flat ++ flatList ns
end

theorem flatList_append (ns ms : List Node) : flatList (ns ++ ms) = flatList ns ++ flatList ms := by
  induction ns with
  | nil => rfl
  | cons n ns ih => rw [List.cons_append, flatList, flatList, ih, List.append_assoc]

theorem flatList_splice (n : Node) : flatList n.splice = n.flat := by
  obtain ⟨tag, text, offset, stop, children⟩ := n
  unfold splice flat
  by_cases h : tag.isStructural = true
  · simp [h]
  · simp [h, flatList, flat]

theorem flatList_spliceLevel (ns : List Node) : flatList (spliceLevel ns) = flatList ns := by
  induction ns with
  | nil => rfl
  | cons n ns ih =>
    unfold spliceLevel at ih ⊢
    rw [List.flatMap_cons, flatList_append, flatList_splice, ih, flatList]

theorem flatList_of_not_structural {ns : List Node} (h : ∀ n ∈ ns, n.tag.isStructural = false) :
    flatList ns = ns := by
  induction ns with
  | nil => rfl
  | cons n ns ih =>
    obtain ⟨hn, hns⟩ := List.forall_mem_cons.1 h
    obtain ⟨tag, text, offset, stop, children⟩ := n
    have htag : tag.isStructural = false := hn
    rw [flatList, ih hns, flat, htag]
    rfl

theorem spliceAll_eq (ns : List Node) : spliceAll ns = flatList ns := by
  fun_induction spliceAll ns with
  | case1 ns h ih => rw [ih, flatList_spliceLevel]
  | case2 ns h => exact (flatList_of_not_structural (by simpa using h)).symm

/-- The node matched, and its text is that of its children, if it has children or must have. -/
structure Joining (n : Node) : Prop where
  matched : n.stop ≠ none
  text : n.children ≠ [] ∨ n.tag.isStructural = true → n.text = n.children.flatMap (·.text)

def Whole (n : Node) : Prop := ∀ m : Node, m.Part n → m.Joining

theorem Whole.child {n c : Node} (h : n.Whole) (hc : c ∈ n.children) : c.Whole := fun m hm => h m (.child hc hm)

def keepAll : String → Bool := fun _ => false

theorem parts_keepAll {tag : Tag} {text : Text} {offset : Nat} {stop : Option Nat} {children : List Node}
    (h : stop ≠ none) : parts keepAll ⟨tag, text, offset, stop, children⟩ =
      if tag.isStructural then partsList keepAll children
      else [⟨tag, text, offset, stop, partsList keepAll children⟩] := by
  have hstop : stop.isNone = false := by
    cases stop with
    | none => exact absurd rfl h
    | some _ => rfl
  have hdrop : tag.ruleName?.any keepAll = false := by cases tag.ruleName? <;> rfl
  rw [parts, hstop, hdrop]
  rfl

mutual
theorem parts_text (n : Node) (h : n.Whole) : (n.parts keepAll).flatMap (·.text) = n.text := by
  obtain ⟨tag, text, offset, stop, children⟩ := n
  have hj := h _ (.self _)
  rw [parts_keepAll hj.matched]
  by_cases ht : tag.isStructural = true
  · rw [if_pos ht, partsList_text children fun c hc => h.child hc]
    exact (hj.text (.inr ht)).symm
  · rw [if_neg ht]
    simp
theorem partsList_text (ns : List Node) (h : ∀ n ∈ ns, n.Whole) :
    (partsList keepAll ns).flatMap (·.text) = ns.flatMap (·.text) := by
  match ns with
  | [] => rfl
  | n :: ns =>
    obtain ⟨hn, hns⟩ := List.forall_mem_cons.1 h
    rw [partsList, List.flatMap_append, parts_text n hn, partsList_text ns hns, List.flatMap_cons]
end

theorem soleText_eq {text : Text} {ns : List Node} (h : ns ≠ [] → text = ns.flatMap (·.text)) :
    soleText text ns = text := by
  unfold soleText
  split
  · rename_i only
    split
    · rw [h (List.cons_ne_nil _ _)]
      simp
    · rfl
  · rfl

theorem simplify_eq_flat (n : Node) : n.simplify =
    { n with
      text := soleText n.text ((flatList n.children).map simplify)
      children := (flatList n.children).map simplify } := by
  rw [simplify]
  simp only [List.map_subtype, List.unattach_attach, spliceAll_eq]

theorem simplify_of_children {n : Node} (h : n.Whole)
    (hc : (flatList n.children).map simplify = partsList keepAll n.children) :
    n.simplify = { n with children := partsList keepAll n.children } := by
  have htext : soleText n.text (partsList keepAll n.children) = n.text := by
    refine soleText_eq fun hne => ?_
    rw [partsList_text n.children fun c hc => h.child hc]
    refine (h n (.self n)).text (.inl fun he => hne ?_)
    rw [he]
    rfl
  rw [simplify_eq_flat, hc, htext]

mutual
theorem simplify_flat (n : Node) (h : n.Whole) : n.flat.map simplify = n.parts keepAll := by
  obtain ⟨tag, text, offset, stop, children⟩ := n
  have hchildren := simplify_flatList children fun c hc => h.child hc
  rw [parts_keepAll (h _ (.self _)).matched, flat]
  by_cases ht : tag.isStructural = true
  · rw [if_pos ht, if_pos ht, hchildren]
  · rw [if_neg ht, if_neg ht, List.map_singleton, simplify_of_children h hchildren]
theorem simplify_flatList (ns : List Node) (h : ∀ n ∈ ns, n.Whole) :
    (flatList ns).map simplify = partsList keepAll ns := by
  match ns with
  | [] => rfl
  | n :: ns =>
    obtain ⟨hn, hns⟩ := List.forall_mem_cons.1 h
    rw [flatList, List.map_append, simplify_flat n hn, simplify_flatList ns hns, partsList]
end

theorem Whole.simplify {n : Node} (h : n.Whole) :
    n.simplify = { n with children := partsList keepAll n.children } :=
  simplify_of_children h (simplify_flatList n.children fun _ hc => h.child hc)

/-! ## Deletion -/

section
variable {drop : String → Bool} {name : String}

def dropAlso (drop : String → Bool) (name : String) : String → Bool := fun m => drop m || m == name

theorem deleteAllList_append (tag : Tag) (ns ms : List Node) :
    deleteAllList tag (ns ++ ms) = deleteAllList tag ns ++ deleteAllList tag ms := by
  induction ns with
  | nil => rfl
  | cons n ns ih =>
    rw [List.cons_append, deleteAllList, deleteAllList, ih]
    split <;> rfl

mutual
theorem deleteAll_parts (n : Node) :
    deleteAllList (.rule name) (n.parts drop) = n.parts (dropAlso drop name) := by
  obtain ⟨tag, text, offset, stop, children⟩ := n
  have hchildren := deleteAll_partsList children
  rw [parts, parts]
  by_cases hs : stop.isNone = true
  · simp [hs, deleteAllList]
  · by_cases ht : tag.isStructural = true
    · have hr : tag.ruleName? = none := by cases tag <;> first | rfl | cases ht
      simpa [hs, ht, hr] using hchildren
    · cases tag with
      | rule m =>
        by_cases hd : drop m = true
        · simp [Tag.ruleName?, hd, dropAlso, deleteAllList]
        · by_cases hm : m = name
          · subst hm
            simp [Tag.ruleName?, Tag.isStructural, hs, hd, dropAlso, deleteAllList]
          · simp [Tag.ruleName?, Tag.isStructural, hs, hd, hm, dropAlso, deleteAllList, deleteAll, hchildren]
      | literal => simp [Tag.ruleName?, Tag.isStructural, hs, deleteAllList, deleteAll, hchildren]
      | endOfLine => simp [Tag.ruleName?, Tag.isStructural, hs, deleteAllList, deleteAll, hchildren]
      | endOfInput => simp [Tag.ruleName?, Tag.isStructural, hs, deleteAllList, deleteAll, hchildren]
      | _ => exact absurd rfl ht
theorem deleteAll_partsList (ns : List Node) :
    deleteAllList (.rule name) (partsList drop ns) = partsList (dropAlso drop name) ns := by
  match ns with
  | [] => rfl
  | n :: ns => rw [partsList, deleteAllList_append, deleteAll_parts n, deleteAll_partsList ns, partsList]
end

theorem deleteAll_children (n : Node) (tag : Tag) :
    n.deleteAll tag = { n with children := deleteAllList tag n.children } := by
  obtain ⟨t, text, offset, stop, children⟩ := n
  rfl

theorem Whole.cleaned {n : Node} (h : n.Whole) (name name' : String) :
    (n.simplify.delete (.rule name) true).delete (.rule name') true =
      { n with children := partsList (dropAlso (dropAlso keepAll name) name') n.children } := by
  simp only [delete, if_true, h.simplify, deleteAll_children, deleteAll_partsList]

end

/-! ## Where parts come from -/

section
variable {drop : String → Bool}

theorem Part.trans {l m n : Node} (h : l.Part m) (h' : m.Part n) : l.Part n := by
  induction h' with
  | self => exact h
  | child hc _ ih => exact .child hc ih

/-- `c` is what `c₀` leaves: itself with its parts for children. -/
structure LeftBy (drop : String → Bool) (c₀ c : Node) : Prop where
  parts : c₀.parts drop = [c]
  eq : c = { c₀ with children := partsList drop c₀.children }

mutual
theorem mem_parts {n c : Node} (h : c ∈ n.parts drop) : ∃ c₀ : Node, c₀.Part n ∧ LeftBy drop c₀ c := by
  obtain ⟨tag, text, offset, stop, children⟩ := n
  rw [parts] at h
  split at h
  · cases h
  · rename_i hkept
    split at h
    · obtain ⟨k, hk, c₀, hc₀, hl⟩ := mem_partsList h
      exact ⟨c₀, .child hk hc₀, hl⟩
    · rename_i hs
      cases List.mem_singleton.1 h
      exact ⟨_, .self _, by rw [parts, if_neg hkept, if_neg hs], rfl⟩
theorem mem_partsList {ns : List Node} {c : Node} (h : c ∈ partsList drop ns) :
    ∃ n ∈ ns, ∃ c₀ : Node, c₀.Part n ∧ LeftBy drop c₀ c := by
  match ns with
  | [] => cases h
  | n :: ns =>
    rw [partsList, List.mem_append] at h
    rcases h with h | h
    · exact ⟨n, List.mem_cons_self, mem_parts h⟩
    · obtain ⟨m, hm, hrest⟩ := mem_partsList h
      exact ⟨m, List.mem_cons_of_mem n hm, hrest⟩
end

theorem Part.leftBy {m c n : Node} (hm : m.Part c) (hc : c ∈ n.parts drop) :
    ∃ m₀ : Node, m₀.Part n ∧ LeftBy drop m₀ m := by
  induction hm generalizing n with
  | self => exact mem_parts hc
  | child hk _ ih =>
    obtain ⟨c₀, hc₀, hl⟩ := mem_parts hc
    rw [hl.eq] at hk
    obtain ⟨k₁, hk₁, k₀, hk₀, hlk⟩ := mem_partsList hk
    have hmem := ih (n := k₀) (by rw [hlk.parts]; exact List.mem_singleton.2 rfl)
    obtain ⟨m₀, hm₀, hlm⟩ := hmem
    exact ⟨m₀, (hm₀.trans (.child hk₁ hk₀)).trans hc₀, hlm⟩

end

end Node

/-! ## Derived trees -/

section
variable {g : Grammar} {i : Input} {o : Options} {n : Node}

theorem Derives.tag {e : Expr} {p : Nat} (h : Derives g i o e p n) (hp : i.isBoundary p = true) :
    n.tag = e.tag := by
  match h with
  | .literal h => rcases Scope.literal_ok hp h with ⟨_, _, rfl, _⟩ | rfl <;> rfl
  | .sequence _ hc => rcases Scope.closeSequence_ok hc with ⟨_, rfl⟩ | ⟨_, _, rfl⟩ <;> rfl
  | .choice _ hc => rcases Scope.closeChoice_ok hc with ⟨_, _, _, _, rfl⟩ | rfl <;> rfl
  | .repetition _ hc => rcases Scope.closeRepetition_ok hc with rfl | rfl <;> rfl
  | @Derives.optional _ _ o _ _ p m _ =>
    rcases (Scope.plain i o).closeOptional_eq (p := p) m with ⟨_, _, e⟩ | ⟨_, e⟩ <;> rw [e] <;> rfl
  | .endOfLine h => rcases Scope.endOfLine_ok hp h with ⟨_, _, rfl, _⟩ | rfl | rfl <;> rfl
  | .endOfInput h => rcases Scope.endOfInput_ok h with rfl | rfl <;> rfl
  | .rule hd _ hc =>
    have hname := congrArg Tag.rule hd.decl.1
    rcases closeRule_ok hc with ⟨_, _, rfl⟩ | ⟨_, rfl⟩ <;> exact hname

theorem Made.joining {p : Nat} (h : Made g i o p n) (ho : o.includeFailed = false) (hs : n.stop ≠ none) :
    n.Joining where
  matched := hs
  text hc := by
    obtain ⟨stop, hstop⟩ := Option.ne_none_iff_exists'.1 hs
    have htext := (h.shape hstop).text hc
    rwa [Node.successes, filter_matched ((h.pruned ho).matched hs)] at htext

/-- Where failed attempts are not kept, a tree that matched has none in it. -/
theorem Derivable.whole (h : Derivable g i o n) (ho : o.includeFailed = false)
    (hg : ∀ decl ∈ g.rules, decl.overrides.includeFailed ≠ some true) (hs : n.stop ≠ none) : n.Whole := by
  intro m hm
  induction hm with
  | self =>
    obtain ⟨o', e, p, ho', hp, hd⟩ := h
    exact (hd.made hp).joining (ho'.not_includeFailed ho hg) hs
  | child hc _ ih =>
    obtain ⟨o', e, p, ho', hp, hd⟩ := h
    have hmade := hd.made hp
    refine ih ((hmade.child hc).under ho') ?_
    exact (hmade.pruned (ho'.not_includeFailed ho hg)).matched hs _ hc

end

namespace Reading

variable {r : Reading} {e : Expr} {p q : Nat} {ns : List Node} {n c m : Node}

theorem obtainable_eq {o : Options} (h : r.grammar.Obtainable r.options o) : o = r.options := by
  induction h with
  | start => rfl
  | under _ hd ih =>
    rw [ih, r.steady _ hd]
    rfl

theorem whole (ho : r.options.includeFailed = false) (hn : Derives r.grammar r.input r.options e p n)
    (hp : r.input.isBoundary p = true) (hs : n.stop ≠ none) : n.Whole := by
  refine (hn.derivable hp).whole ho (fun decl hd => ?_) hs
  rw [r.steady decl hd]
  exact (Option.some_ne_none true).symm

/-- A node of a rule in what a match leaves is a match of that rule by itself. -/
theorem Matches.part {name : String} (h : r.Matches e p q ns) (hc : c ∈ ns) (hm : m.Part c)
    (ht : m.tag = .rule name) : ∃ p' q', r.Matches (.ref name) p' q' [m] := by
  obtain ⟨hp, n, hn, hs, rfl⟩ := h
  obtain ⟨m₀, hm₀, hl⟩ := hm.leftBy hc
  obtain ⟨o, e', p', hobt, hp', hd⟩ := (hn.derivable hp).part hm₀
  rw [obtainable_eq hobt] at hd
  have ht₀ : m₀.tag = .rule name := by
    rw [hl.eq] at ht
    exact ht
  obtain ⟨q', hq'⟩ : ∃ q', m₀.stop = some q' := by
    cases hstop : m₀.stop with
    | none =>
      have hparts : m₀.parts r.drop = [] := Node.parts_failed hstop
      rw [hl.parts] at hparts
      cases hparts
    | some q' => exact ⟨q', rfl⟩
  refine ⟨p', q', hp', m₀, ?_, hq', hl.parts⟩
  have htag := (hd.tag hp').symm.trans ht₀
  cases hd with
  | @rule _ a name' rule _ tree _ hdecl hb hc =>
    cases htag
    rcases closeRule_ok hc with ⟨stop, hstop, rfl⟩ | ⟨_, rfl⟩
    · refine .rule hdecl hb ?_
      unfold closeRule
      rw [hstop]
    · cases hq'
  | _ => cases htag

end Reading

end PegTree
