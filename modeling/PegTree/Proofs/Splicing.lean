import PegTree.Proofs.Cleaning
import PegTree.Proofs.Pruning
import PegTree.Tree.Lookup

/-!
# Simplification of failed attempts

Structural nodes give way to their children whether they matched or not, so what matched in a failed
attempt can come to the surface of a simplified tree. Pruning takes a simplified tree to the tree that
is parsed without failed attempts just if that does not happen.
-/

namespace PegTree

open Eval

namespace Node

/-! ## What comes to the surface -/

/-- What is left of a node in a tree that is first simplified and then pruned. -/
def surface (n : Node) : List Node := pruneList (n.flat.map simplify)

def surfaceList (ns : List Node) : List Node := pruneList ((flatList ns).map simplify)

mutual
/-- No node that matched comes to the surface from a structural node that failed. -/
def tight : Node → Bool
  | ⟨tag, _, _, stop, children⟩ =>
    if stop.isSome then tightList children else !tag.isStructural || (flatList children).all (·.isFailed)
def tightList : List Node → Bool
  | [] => true
  | n :: ns => n.tight && tightList ns
end

theorem surfaceList_cons (n : Node) (ns : List Node) : surfaceList (n :: ns) = n.surface ++ surfaceList ns := by
  unfold surfaceList surface
  rw [flatList, List.map_append, pruneList_append]

theorem simplify_tag (n : Node) : n.simplify.tag = n.tag := by rw [simplify_eq_flat]

theorem simplify_stop (n : Node) : n.simplify.stop = n.stop := by rw [simplify_eq_flat]

theorem simplify_children (n : Node) : n.simplify.children = (flatList n.children).map simplify := by
  rw [simplify_eq_flat]

theorem simplify_isFailed (n : Node) : n.simplify.isFailed = n.isFailed := by
  rw [isFailed, simplify_stop, isFailed]

theorem surfaceList_eq_nil_iff (ns : List Node) : surfaceList ns = [] ↔ (flatList ns).all (·.isFailed) = true := by
  unfold surfaceList
  rw [pruneList_eq, List.map_eq_nil_iff, List.filter_eq_nil_iff, List.all_eq_true]
  simp [simplify_isFailed]

section
variable {tag : Tag} {text : Text} {offset : Nat} {children : List Node}

theorem surface_structural {stop : Option Nat} (h : tag.isStructural = true) :
    surface ⟨tag, text, offset, stop, children⟩ = surfaceList children := by
  unfold surface surfaceList
  rw [flat, if_pos h]

theorem surface_failed (h : tag.isStructural = false) : surface ⟨tag, text, offset, none, children⟩ = [] := by
  have hf : (simplify ⟨tag, text, offset, none, children⟩).isFailed = true := simplify_isFailed _
  simp [surface, flat, h, pruneList, hf]

theorem surface_matched {stop : Nat} (h : tag.isStructural = false) :
    surface ⟨tag, text, offset, some stop, children⟩ =
      [(simplify ⟨tag, text, offset, some stop, children⟩).prune] := by
  have hf : (simplify ⟨tag, text, offset, some stop, children⟩).isFailed = false := simplify_isFailed _
  simp [surface, flat, h, pruneList, hf]

end

theorem prune_simplify {n : Node} (h : n.stop ≠ none) :
    n.simplify.prune = { n with
      text := soleText n.text ((flatList n.children).map simplify)
      children := surfaceList n.children } := by
  obtain ⟨tag, text, offset, stop, children⟩ := n
  cases stop with
  | none => exact absurd rfl h
  | some stop =>
    rw [simplify_eq_flat]
    rfl

mutual
theorem length_parts_le (n : Node) : (n.parts keepAll).length ≤ n.surface.length := by
  obtain ⟨tag, text, offset, stop, children⟩ := n
  cases stop with
  | none => simp [parts_failed (n := ⟨tag, text, offset, none, children⟩) rfl]
  | some stop =>
    rw [parts_keepAll (Option.some_ne_none stop)]
    cases ht : tag.isStructural with
    | true =>
      rw [surface_structural ht]
      exact length_partsList_le children
    | false => simp [surface_matched ht]
theorem length_partsList_le (ns : List Node) : (partsList keepAll ns).length ≤ (surfaceList ns).length := by
  match ns with
  | [] => exact Nat.zero_le _
  | n :: ns =>
    rw [partsList, surfaceList_cons, List.length_append, List.length_append]
    exact Nat.add_le_add (length_parts_le n) (length_partsList_le ns)
end

/-! ## Texts -/

/-- The text of a node that has children, or must have, is that of the children that matched; a failed
node has no text and a literal no children. -/
structure Frank (n : Node) : Prop where
  text : n.stop ≠ none → n.children ≠ [] ∨ n.tag.isStructural = true → n.text = n.successes.flatMap (·.text)
  failed : n.stop = none → n.text = []
  literal : n.tag = .literal → n.children = []

def AllFrank (n : Node) : Prop := ∀ m : Node, m.Part n → m.Frank

theorem AllFrank.child {n c : Node} (h : n.AllFrank) (hc : c ∈ n.children) : c.AllFrank :=
  fun m hm => h m (.child hc hm)

theorem prune_children_text {n : Node} (hs : n.stop ≠ none) :
    n.prune.children.flatMap (·.text) = n.successes.flatMap (·.text) := by
  rw [prune_children hs, pruneList_eq, List.flatMap_map]
  simp only [prune_text]
  rfl

theorem Part.of_prune {m n : Node} (hm : m.Part n.prune) (hs : n.stop ≠ none) :
    ∃ m₀ : Node, m₀.Part n ∧ m₀.stop ≠ none ∧ m = m₀.prune := by
  generalize hk : n.prune = k at hm
  induction hm generalizing n with
  | self => exact ⟨n, .self n, hs, hk.symm⟩
  | child hc _ ih =>
    rw [← hk, prune_children hs, pruneList_eq] at hc
    obtain ⟨c₀, hc₀, rfl⟩ := List.mem_map.1 hc
    obtain ⟨hmem, hmatched⟩ := List.mem_filter.1 hc₀
    obtain ⟨m₀, hm₀, hs₀, he⟩ := ih (n := c₀) (fun h => by simp [isFailed, h] at hmatched) rfl
    exact ⟨m₀, .child hmem hm₀, hs₀, he⟩

theorem AllFrank.whole {n : Node} (h : n.AllFrank) (hs : n.stop ≠ none) : n.prune.Whole := by
  intro m hm
  obtain ⟨m₀, hm₀, hs₀, rfl⟩ := hm.of_prune hs
  refine ⟨by rwa [prune_stop], fun hc => ?_⟩
  rw [prune_children hs₀, prune_tag] at hc
  rw [prune_text, prune_children_text hs₀]
  refine (h m₀ hm₀).text hs₀ (hc.imp_left fun hne he => hne ?_)
  rw [he]
  rfl

mutual
theorem parts_prune (n : Node) : n.prune.parts keepAll = n.parts keepAll := by
  obtain ⟨tag, text, offset, stop, children⟩ := n
  cases stop with
  | none => rw [parts_failed (prune_stop _), parts_failed rfl]
  | some stop =>
    show parts keepAll ⟨tag, text, offset, some stop, pruneList children⟩ = _
    rw [parts_keepAll (Option.some_ne_none stop), parts_keepAll (Option.some_ne_none stop),
      partsList_prune children]
theorem partsList_prune (ns : List Node) : partsList keepAll (pruneList ns) = partsList keepAll ns := by
  match ns with
  | [] => rfl
  | n :: ns =>
    rw [pruneList, partsList]
    cases hn : n.isFailed with
    | true =>
      rw [if_pos rfl, partsList_prune ns, parts_failed (Option.isNone_iff_eq_none.1 hn), List.nil_append]
    | false => rw [if_neg Bool.false_ne_true, partsList, parts_prune n, partsList_prune ns]
end

mutual
theorem mem_flat {n c : Node} (h : c ∈ n.flat) : c.Part n := by
  obtain ⟨tag, text, offset, stop, children⟩ := n
  rw [flat] at h
  split at h
  · obtain ⟨k, hk, hc⟩ := mem_flatList h
    exact .child hk hc
  · rw [List.mem_singleton.1 h]
    exact .self _
theorem mem_flatList {ns : List Node} {c : Node} (h : c ∈ flatList ns) : ∃ n ∈ ns, c.Part n := by
  match ns with
  | [] => cases h
  | n :: ns =>
    rw [flatList, List.mem_append] at h
    rcases h with h | h
    · exact ⟨n, List.mem_cons_self, mem_flat h⟩
    · obtain ⟨m, hm, hc⟩ := mem_flatList h
      exact ⟨m, List.mem_cons_of_mem n hm, hc⟩
end

section
variable {n : Node} (h : n.AllFrank) (hs : n.stop ≠ none)
include h hs

theorem AllFrank.partsList_text (hne : n.children ≠ []) :
    (partsList keepAll n.children).flatMap (·.text) = n.text := by
  have hparts := Node.partsList_text n.prune.children fun c hc => (h.whole hs).child hc
  rw [prune_children_text hs, ← (h n (.self n)).text hs (.inl hne), prune_children hs, partsList_prune] at hparts
  exact hparts

/-- If nothing but its parts comes to the surface of a node, a sole child has its text already. -/
theorem AllFrank.soleText (hc : surfaceList n.children = partsList keepAll n.children) :
    soleText n.text ((flatList n.children).map simplify) = n.text := by
  cases hflat : flatList n.children with
  | nil => rfl
  | cons c cs =>
    cases cs with
    | cons c' cs => rfl
    | nil =>
      have hne : n.children ≠ [] := by
        intro he
        rw [he] at hflat
        cases hflat
      have htext := h.partsList_text hs hne
      rw [← hc, surfaceList, hflat, List.map_singleton] at htext
      show (if c.simplify.tag = .literal then c.simplify.text else n.text) = n.text
      split
      · rename_i htag
        obtain ⟨k, hk, hck⟩ := mem_flatList (hflat ▸ List.mem_singleton_self c)
        have hfrank := h c (.child hk hck)
        have hleaf := hfrank.literal (by rwa [simplify_tag] at htag)
        have hsame : c.simplify.text = c.text := by rw [simplify_eq_flat, hleaf]; rfl
        cases hf : c.isFailed with
        | true =>
          rw [hsame, hfrank.failed (Option.isNone_iff_eq_none.1 hf), ← htext]
          simp [pruneList, simplify_isFailed, hf]
        | false =>
          rw [← htext]
          simp [pruneList, simplify_isFailed, hf]
      · rfl

end

/-! ## Pruning after simplification -/

mutual
/-- Exactly the parts of a node come to the surface just if it is tight. -/
theorem surface_eq_iff (n : Node) (h : n.AllFrank) : n.surface = n.parts keepAll ↔ n.tight = true := by
  obtain ⟨tag, text, offset, stop, children⟩ := n
  cases stop with
  | none =>
    rw [parts_failed rfl, tight]
    cases ht : tag.isStructural with
    | true =>
      rw [surface_structural ht, surfaceList_eq_nil_iff]
      simp
    | false => simp [surface_failed ht]
  | some stop =>
    have hchildren := surfaceList_eq_iff children fun c hc => h.child hc
    have hs : (some stop : Option Nat) ≠ none := Option.some_ne_none stop
    rw [parts_keepAll hs, tight]
    cases ht : tag.isStructural with
    | true =>
      rw [surface_structural ht]
      exact hchildren
    | false =>
      rw [surface_matched ht, prune_simplify hs]
      constructor
      · intro he
        exact hchildren.1 (congrArg Node.children (List.cons.inj he).1)
      · intro he
        have hc := hchildren.2 he
        have htext := h.soleText hs hc
        dsimp only at htext ⊢
        rw [htext, hc]
        rfl
theorem surfaceList_eq_iff (ns : List Node) (h : ∀ n ∈ ns, n.AllFrank) :
    surfaceList ns = partsList keepAll ns ↔ tightList ns = true := by
  match ns with
  | [] => exact ⟨fun _ => rfl, fun _ => rfl⟩
  | n :: ns =>
    obtain ⟨hn, hns⟩ := List.forall_mem_cons.1 h
    rw [surfaceList_cons, partsList, tightList, Bool.and_eq_true, ← surface_eq_iff n hn,
      ← surfaceList_eq_iff ns hns]
    constructor
    · intro he
      -- neither half can be shorter on the surface, so they are as long as the parts
      have hle := length_parts_le n
      have hles := length_partsList_le ns
      have hlen := congrArg List.length he
      rw [List.length_append, List.length_append] at hlen
      exact List.append_inj he (by omega)
    · rintro ⟨he, hes⟩
      rw [he, hes]
end

theorem AllFrank.prune_simplify_iff {n : Node} (h : n.AllFrank) (hs : n.stop ≠ none) :
    n.simplify.prune = n.prune.simplify ↔ n.tight = true := by
  have htight : n.tight = tightList n.children := by
    obtain ⟨tag, text, offset, stop, children⟩ := n
    cases stop with
    | none => exact absurd rfl hs
    | some stop => rfl
  have hpruned : n.prune.simplify = { n with children := partsList keepAll n.children } := by
    rw [(h.whole hs).simplify, prune_children hs, partsList_prune]
    obtain ⟨tag, text, offset, stop, children⟩ := n
    rfl
  rw [hpruned, prune_simplify hs, htight, ← surfaceList_eq_iff n.children fun c hc => h.child hc]
  constructor
  · exact fun he => congrArg Node.children he
  · intro hc
    rw [hc, h.soleText hs hc]

/-! ## Children by name -/

def matchedNamed (n : Node) (name : String) : List Node := (n.childrenNamed name).filter (!·.isFailed)

theorem prune_childrenNamed {n : Node} (hs : n.stop ≠ none) (name : String) :
    n.prune.childrenNamed name = (n.matchedNamed name).map prune := by
  have hname : ∀ c : Node, c.prune.name? = c.name? := fun c => congrArg Tag.ruleName? c.prune_tag
  unfold matchedNamed childrenNamed
  rw [prune_children hs, pruneList_eq, List.filter_map, List.filter_comm]
  simp [Function.comp_def, hname]

def flattened (n : Node) : Node := { n with children := flatList n.children }

theorem simplify_childrenNamed (n : Node) (name : String) :
    n.simplify.childrenNamed name = (n.flattened.childrenNamed name).map simplify := by
  have hname : ∀ c : Node, c.simplify.name? = c.name? := fun c => congrArg Tag.ruleName? c.simplify_tag
  unfold childrenNamed flattened
  rw [simplify_children, List.filter_map]
  simp [Function.comp_def, hname]

theorem simplify_matchedNamed (n : Node) (name : String) :
    n.simplify.matchedNamed name = (n.flattened.matchedNamed name).map simplify := by
  unfold matchedNamed
  rw [simplify_childrenNamed, List.filter_map]
  simp only [Function.comp_def, simplify_isFailed]

end Node

/-! ## Derived trees -/

section
variable {g : Grammar} {i : Input} {o : Options} {n : Node}

theorem Derives.literal_children {e : Expr} {p : Nat} (h : Derives g i o e p n) (hp : i.isBoundary p = true)
    (ht : n.tag = .literal) : n.children = [] := by
  have htag := (h.tag hp).symm.trans ht
  cases h with
  | literal h => rcases Scope.literal_ok hp h with ⟨_, _, rfl, _⟩ | rfl <;> rfl
  | _ => cases htag

theorem Derivable.allFrank (h : Derivable g i o n) : n.AllFrank := by
  intro m hm
  obtain ⟨_, _, _, _, hp, hd⟩ := h.part hm
  have hw := hd.wellFormed hp
  refine ⟨fun hs hc => ?_, hw.failed, hd.literal_children hp⟩
  obtain ⟨stop, hstop⟩ := Option.ne_none_iff_exists'.1 hs
  exact (hw.shape stop hstop).text hc

end

/-! ## Parsing with and without failed attempts -/

section
variable {g : Grammar} (hg : g.KeepsAlike) (hsimplify : g.options.simplifyTree = true)
include hg hsimplify

/-- A rule that is parsed with failed attempts kept is parsed without them as well, the bodies of the rules
being the same. Pruning takes the one tree to the other just if nothing that matched in a failed attempt
comes to the surface. -/
theorem parseRule_prune_iff (calls calls' : List Call) {name : String} {t : Text} {full : Node}
    (h : ((g.keeping true).parseRule name t ((g.keeping true).after calls)).1 = .ok full) :
    ∃ raw pruned, ((g.keeping true).evaluate name t ((g.keeping true).after calls)).1 = .ok raw ∧
      full = raw.simplify ∧
      ((g.keeping false).parseRule name t ((g.keeping false).after calls')).1 = .ok pruned ∧
      (full.prune = pruned ↔ raw.tight = true) ∧
      (raw.tight = true → ∀ child, (full.matchedNamed child).map Node.prune = pruned.childrenNamed child) := by
  have hs : ∀ b, (g.keeping b).options.simplifyTree = true := fun _ => hsimplify
  have hrun := hg.evaluate calls calls' name t
  rw [Grammar.parseRule_fst] at h
  cases hraw : ((g.keeping true).evaluate name t ((g.keeping true).after calls)).1 with
  | error f =>
    rw [hraw] at h
    cases h
  | ok raw =>
    rw [hraw] at h hrun
    obtain ⟨hfailed, hfull⟩ : raw.isFailed = false ∧ full = raw.simplify := by
      cases hf : raw.isFailed with
      | false => exact ⟨rfl, by simpa [Except.bind, hf, hs, eq_comm] using h⟩
      | true => simp [Except.bind, hf] at h
    have hstop : raw.stop ≠ none := by
      intro he
      simp [Node.isFailed, he] at hfailed
    have hfrank : raw.AllFrank := by
      rw [← (g.keeping true).resumed_idle calls] at hraw
      have hp := Input.isBoundary_zero (.ofText t)
      exact (((g.keeping true).after_derives calls [] hp hraw).derivable hp).allFrank
    have hiff := hfrank.prune_simplify_iff hstop
    refine ⟨raw, raw.prune.simplify, rfl, hfull, ?_, ?_, ?_⟩
    · rw [Grammar.parseRule_fst, hrun]
      simp [Except.map, Except.bind, hfailed, hs]
    · rw [hfull]
      exact hiff
    · intro htight child
      rw [← hiff.2 htight, hfull, Node.prune_childrenNamed (by rwa [Node.simplify_stop])]

end

theorem words_keepsAlike : words.KeepsAlike := by
  intro decl hd
  rcases List.mem_pair.1 hd with rfl | rfl
  · rfl
  · rfl

theorem parseRule_prune_iff_words : words.KeepsAlike ∧ words.options.simplifyTree = true ∧ ∃ full pruned,
    ((words.keeping true).parseRule "words" twoWords.text ((words.keeping true).after [])).1 = .ok full ∧
      ((words.keeping false).parseRule "words" twoWords.text ((words.keeping false).after [])).1 = .ok pruned ∧
      full.prune = pruned ∧ (full.childrenNamed "word").length = 3 ∧ (full.matchedNamed "word").length = 2 := by
  have hrun : ((words.keeping true).evaluate "words" twoWords.text ((words.keeping true).after [])).1.toOption.map
      (fun raw => (raw.isFailed, raw.tight, (raw.flattened.childrenNamed "word").length,
        (raw.flattened.matchedNamed "word").length)) = some (false, true, 3, 2) := by decide +kernel
  obtain ⟨raw, hraw, hshown⟩ := exists_ok_of_toOption hrun
  simp only [Prod.mk.injEq] at hshown
  obtain ⟨hfailed, htight, hthree, htwo⟩ := hshown
  have hfull : ((words.keeping true).parseRule "words" twoWords.text ((words.keeping true).after [])).1 =
      .ok raw.simplify := by
    rw [Grammar.parseRule_fst, hraw]
    simp only [Except.bind, hfailed]
    rfl
  obtain ⟨raw', pruned, hraw', _, hpruned, hiff, _⟩ := parseRule_prune_iff words_keepsAlike rfl [] [] hfull
  obtain rfl : raw = raw' := Except.ok.inj (hraw.symm.trans hraw')
  refine ⟨words_keepsAlike, rfl, raw.simplify, pruned, hfull, hpruned, hiff.2 htight, ?_, ?_⟩
  · rw [Node.simplify_childrenNamed, List.length_map, hthree]
  · rw [Node.simplify_matchedNamed, List.length_map, htwo]

/-- The stem of the attempt that failed comes to stand beside the stem of the one that matched. -/
theorem forked_stems : forked.KeepsAlike ∧ forked.options.simplifyTree = true ∧ ∃ full pruned,
    ((forked.keeping true).parseRule "fork" ['a', 'c'] ((forked.keeping true).after [])).1 = .ok full ∧
      ((forked.keeping false).parseRule "fork" ['a', 'c'] ((forked.keeping false).after [])).1 = .ok pruned ∧
      full.prune ≠ pruned ∧ (full.matchedNamed "stem").length = 2 ∧ (pruned.matchedNamed "stem").length = 1 := by
  have hparse :
      ∀ b k, (((forked.keeping b).evaluate "fork" ['a', 'c'] ((forked.keeping b).after [])).1.toOption.map
      fun raw => (raw.isFailed, (raw.flattened.matchedNamed "stem").length)) = some (false, k) → ∃ n,
        ((forked.keeping b).parseRule "fork" ['a', 'c'] ((forked.keeping b).after [])).1 = .ok n ∧ n.stop ≠ none ∧
          (n.matchedNamed "stem").length = k := by
    intro b k hk
    obtain ⟨raw, hraw, hshown⟩ := exists_ok_of_toOption hk
    obtain ⟨hf, hcount⟩ := Prod.mk.inj hshown
    refine ⟨raw.simplify, ?_, ?_, ?_⟩
    · rw [Grammar.parseRule_fst, hraw]
      simp only [Except.bind, hf]
      rfl
    · intro he
      rw [Node.simplify_stop] at he
      simp [Node.isFailed, he] at hf
    · rw [Node.simplify_matchedNamed, List.length_map, hcount]
  obtain ⟨full, hfull, hstop, htwo⟩ := hparse true 2 (by decide +kernel)
  obtain ⟨pruned, hpruned, _, hone⟩ := hparse false 1 (by decide +kernel)
  refine ⟨forked_keepsAlike, rfl, full, pruned, hfull, hpruned, ?_, htwo, hone⟩
  rintro rfl
  have hmatched : full.prune.matchedNamed "stem" = full.prune.childrenNamed "stem" := by
    unfold Node.matchedNamed
    rw [Node.prune_childrenNamed hstop]
    exact List.filter_eq_self.2 fun c hc => by
      obtain ⟨c₀, hc₀, rfl⟩ := List.mem_map.1 hc
      rw [Node.prune_isFailed]
      exact (List.mem_filter.1 hc₀).2
  rw [hmatched, Node.prune_childrenNamed hstop, List.length_map, htwo] at hone
  cases hone

end PegTree
