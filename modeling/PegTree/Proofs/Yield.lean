import PegTree.Proofs.Simplification

/-!
# The yield of a parse

Listed in pre-order, a tree loses its structural nodes when it is simplified and nothing else: the other
nodes stand in the same order and show what they showed. What a rule says is what the nodes right below
it say, one after the other.
-/

namespace PegTree

/-- What a node shows by itself, apart from its children. -/
structure Face where
  tag : Tag
  text : Text
  offset : Nat
  stop : Option Nat
deriving DecidableEq

namespace Node

/-! ## Faces -/

def face (n : Node) : Face := ⟨n.tag, n.text, n.offset, n.stop⟩

def yield (ns : List Node) : List Face := (ns.filter (!·.tag.isStructural)).map face

theorem yield_append (ns ms : List Node) : yield (ns ++ ms) = yield ns ++ yield ms := by
  simp [yield]

theorem yield_cons (n : Node) (ns : List Node) :
    yield (n :: ns) = (if n.tag.isStructural then [] else [n.face]) ++ yield ns := by
  cases h : n.tag.isStructural <;> simp [yield, h]

/-! ## Simplification in pre-order -/

mutual
theorem yield_parts (n : Node) (h : n.Whole) :
    (listing (n.parts keepAll)).map face = yield (n :: n.descendants) := by
  obtain ⟨tag, text, offset, stop, children⟩ := n
  have hchildren := yield_partsList children fun c hc => h.child hc
  rw [parts_keepAll (h _ (.self _)).matched, yield_cons, descendants]
  by_cases ht : tag.isStructural = true
  · simp [ht, hchildren]
  · simp [ht, listing, descendants, hchildren, face]
theorem yield_partsList (ns : List Node) (h : ∀ n ∈ ns, n.Whole) :
    (listing (partsList keepAll ns)).map face = yield (listing ns) := by
  match ns with
  | [] => rfl
  | n :: ns =>
    obtain ⟨hn, hns⟩ := List.forall_mem_cons.1 h
    rw [partsList, listing_append, List.map_append, yield_parts n hn, yield_partsList ns hns, listing,
      ← List.cons_append, yield_append]
end

def Founded (n : Node) : Prop :=
  ∀ m : Node, m.Part n → m.stop ≠ none → ∀ name, m.tag = .rule name → m.children ≠ []

section
variable {n m : Node} (h : n.Whole)
include h

theorem Whole.face_simplify : n.simplify.face = n.face := by
  rw [h.simplify]
  rfl

theorem Whole.yield_simplify : n.simplify.descendants.map face = yield n.descendants := by
  rw [h.simplify, descendants_eq, descendants_eq]
  exact yield_partsList n.children fun c hc => h.child hc

theorem Whole.text_parts (hm : m.Part n) (hc : m.children ≠ []) :
    m.text = (partsList keepAll m.children).flatMap (·.text) := by
  rw [partsList_text m.children fun c hc k hk => h k (hk.trans (.child hc (.self c)) |>.trans hm)]
  exact (h m hm).text (.inl hc)

theorem Whole.rule_text (hf : n.Founded) (hm : m.Part n.simplify) {name : String} (ht : m.tag = .rule name) :
    m.text = m.children.flatMap (·.text) := by
  have hsays : ∀ k : Node, k.Part n → k.tag = .rule name →
      k.text = (partsList keepAll k.children).flatMap (·.text) :=
    fun k hk htag => h.text_parts hk (hf k hk (h k hk).matched name htag)
  rw [h.simplify] at hm
  cases hm with
  | self => exact hsays n (.self n) ht
  | @child c _ hc hm =>
    obtain ⟨k, hk, c₀, hc₀, hl⟩ := mem_partsList hc
    have hmem : c ∈ c₀.parts keepAll := by
      rw [hl.parts]
      exact List.mem_singleton.2 rfl
    obtain ⟨m₀, hm₀, hlm⟩ := hm.leftBy hmem
    rw [hlm.eq] at ht ⊢
    exact hsays m₀ ((hm₀.trans hc₀).trans (.child hk (.self k))) ht

end

end Node

/-! ## Derived trees -/

theorem Derivable.founded {g : Grammar} {i : Input} {o : Options} {n : Node}
    (h : Derivable g i o n) : n.Founded := by
  intro m hm hs name ht
  obtain ⟨_, _, _, _, hp, hd⟩ := h.part hm
  obtain ⟨stop, hstop⟩ := Option.ne_none_iff_exists'.1 hs
  have hshape := (hd.wellFormed hp).shape stop hstop
  unfold Node.Shape at hshape
  rw [ht] at hshape
  obtain ⟨c, hc⟩ := hshape
  have hlast := hc.last
  intro hnil
  simp [hnil] at hlast

/-! ## Simplified parses -/

/-- The tree of a rule is simplified to its yield: what was not structural stands in the same order and shows
the same, and nothing else is there. Each rule says what the nodes right below it say. -/
theorem simplify_keeps_yield {g : Grammar} (ho : g.options.includeFailed = false)
    (hg : ∀ decl ∈ g.rules, decl.overrides.includeFailed ≠ some true) (calls : List Call)
    {name : String} {t : Text}
    {raw : Node} (h : (g.evaluate name t (g.after calls)).1 = .ok raw) (hm : raw.isFailed = false) :
    (g.options.simplifyTree = true → (g.parseRule name t (g.after calls)).1 = .ok raw.simplify) ∧
    raw.simplify.face = raw.face ∧
    raw.simplify.descendants.map Node.face = Node.yield raw.descendants ∧
    (∀ n ∈ raw.simplify.descendants, (∃ rule, n.tag = .rule rule) ∨ n.tag = .literal ∨ n.tag = .endOfLine ∨
      n.tag = .endOfInput) ∧
    ∀ n : Node, n.Part raw.simplify → ∀ rule, n.tag = .rule rule → n.text = n.children.flatMap (·.text) := by
  have hs : raw.stop ≠ none := by
    intro hnone
    simp [Node.isFailed, hnone] at hm
  have hn : Derivable g (.ofText t) g.options raw := by
    rw [← g.resumed_idle calls] at h
    have hp := Input.isBoundary_zero (.ofText t)
    exact (g.after_derives calls [] hp h).derivable hp
  have hw := hn.whole ho hg hs
  refine ⟨?_, hw.face_simplify, hw.yield_simplify, ?_, fun n hpart rule ht => hw.rule_text hn.founded hpart ht⟩
  · intro hsimplify
    rw [Grammar.parseRule_fst, h]
    simp [Except.bind, hm, hsimplify]
  · intro n hmem
    have ht := Node.not_structural_of_simplify hmem
    cases htag : n.tag with
    | rule rule => exact .inl ⟨rule, rfl⟩
    | literal => exact .inr (.inl rfl)
    | endOfLine => exact .inr (.inr (.inl rfl))
    | endOfInput => exact .inr (.inr (.inr rfl))
    | sequence => simp [htag, Tag.isStructural] at ht
    | choice => simp [htag, Tag.isStructural] at ht
    | repetition => simp [htag, Tag.isStructural] at ht
    | optional => simp [htag, Tag.isStructural] at ht

theorem simplify_keeps_yield_words : ∃ raw : Node,
    (words.evaluate "words" twoWords.text (words.after [])).1 = .ok raw ∧ raw.isFailed = false ∧
    raw.descendants.length = 9 ∧ raw.simplify.descendants.map Node.face =
      [⟨.rule "word", ['a', 'b'], 0, some 2⟩, ⟨.literal, ['a'], 0, some 1⟩, ⟨.literal, ['b'], 1, some 2⟩,
        ⟨.rule "word", ['a', 'b'], 3, some 5⟩, ⟨.literal, ['a'], 3, some 4⟩, ⟨.literal, ['b'], 4, some 5⟩] := by
  have hrun : (words.evaluate "words" twoWords.text (words.after [])).1.toOption.map
      (fun n => (n.isFailed, n.descendants.length, Node.yield n.descendants)) = some (false, 9,
        [⟨.rule "word", ['a', 'b'], 0, some 2⟩, ⟨.literal, ['a'], 0, some 1⟩, ⟨.literal, ['b'], 1, some 2⟩,
          ⟨.rule "word", ['a', 'b'], 3, some 5⟩, ⟨.literal, ['a'], 3, some 4⟩, ⟨.literal, ['b'], 4, some 5⟩]) := by
    decide +kernel
  obtain ⟨raw, hraw, hshown⟩ := Eval.exists_ok_of_toOption hrun
  simp only [Prod.mk.injEq] at hshown
  obtain ⟨hfailed, hlength, hyield⟩ := hshown
  have hoff : ∀ decl ∈ words.rules, decl.overrides.includeFailed ≠ some true := by
    intro decl hd
    rcases List.mem_pair.1 hd with rfl | rfl <;> exact Option.some_ne_none true |>.symm
  obtain ⟨_, _, hkept, _, _⟩ := simplify_keeps_yield (g := words) rfl hoff [] hraw hfailed
  exact ⟨raw, hraw, hfailed, hlength, hkept.trans hyield⟩

end PegTree
