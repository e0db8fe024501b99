import Mathlib.Data.Set.Card
import PegTree.Grammar.Basic

/-!
# Options that rules make

From some options a grammar can only make finitely many others, because a rule sets each field to
one value. What a grammar never sets stays as it was.
-/

namespace PegTree.Grammar

/-- `o'` is made from `o` by the overrides of rules, one after the other. -/
inductive Obtainable (g : Grammar) (o : Options) : Options → Prop
  | start : g.Obtainable o o
  | under {o' : Options} {decl : RuleDecl} :
    g.Obtainable o o' → decl ∈ g.rules → g.Obtainable o (decl.overrides.apply o')

variable {g : Grammar} {o o' o'' : Options}

theorem Obtainable.trans (h : g.Obtainable o o') (h' : g.Obtainable o' o'') : g.Obtainable o o'' := by
  induction h' with
  | start => exact h
  | under _ hd ih => exact ih.under hd

/-- The number of options that a grammar makes from `o`. -/
noncomputable def optionsCount (g : Grammar) (o : Options) : Nat := {o' | g.Obtainable o o'}.ncard

/-! ## Fields -/

theorem Obtainable.maxDepth (h : g.Obtainable o o') : o'.maxDepth = o.maxDepth := by
  induction h with
  | start => rfl
  | under _ _ ih => exact ih

theorem Obtainable.simplifyTree (h : g.Obtainable o o') : o'.simplifyTree = o.simplifyTree := by
  induction h with
  | start => rfl
  | under _ _ ih => exact ih

theorem getD_eq_false {x : Option Bool} {b : Bool} (hx : x ≠ some true) (hb : b = false) : x.getD b = false := by
  cases x with
  | none => exact hb
  | some c => cases c with
    | false => rfl
    | true => exact absurd rfl hx

theorem Obtainable.not_stripWhitespace (h : g.Obtainable o o') (ho : o.stripWhitespace = false)
    (hg : ∀ decl ∈ g.rules, decl.overrides.stripWhitespace ≠ some true) : o'.stripWhitespace = false := by
  induction h with
  | start => exact ho
  | under _ hd ih => exact getD_eq_false (hg _ hd) ih

theorem Obtainable.not_includeFailed (h : g.Obtainable o o') (ho : o.includeFailed = false)
    (hg : ∀ decl ∈ g.rules, decl.overrides.includeFailed ≠ some true) : o'.includeFailed = false := by
  induction h with
  | start => exact ho
  | under _ hd ih => exact getD_eq_false (hg _ hd) ih

theorem Obtainable.whitespaceChars (h : g.Obtainable o o') :
    o'.whitespaceChars = o.whitespaceChars ∨
      ∃ decl ∈ g.rules, decl.overrides.whitespaceChars = some o'.whitespaceChars := by
  induction h with
  | start => exact .inl rfl
  | @under o' decl _ hd ih =>
    cases hw : decl.overrides.whitespaceChars with
    | some ws => exact .inr ⟨decl, hd, by simp [Overrides.apply, hw]⟩
    | none => simpa [Overrides.apply, hw] using ih

/-! ## The count -/

def flags : List (Bool × Bool × Bool) :=
  [(false, false, false), (false, false, true), (false, true, false), (false, true, true),
    (true, false, false), (true, false, true), (true, true, false), (true, true, true)]

theorem mem_flags (x : Bool × Bool × Bool) : x ∈ flags := by
  obtain ⟨a, b, c⟩ := x
  cases a <;> cases b <;> cases c <;> decide

def whitespacePool (g : Grammar) (o : Options) : List (List Char) :=
  o.whitespaceChars :: g.rules.filterMap (·.overrides.whitespaceChars)

def optionsPool (g : Grammar) (o : Options) : List Options :=
  flags.flatMap fun (strip, caseful, failed) => (g.whitespacePool o).map fun ws =>
    ⟨strip, ws, caseful, failed, o.simplifyTree, o.maxDepth⟩

theorem length_optionsPool_le (g : Grammar) (o : Options) :
    (g.optionsPool o).length ≤ 8 * (g.rules.length + 1) := by
  have := List.length_filterMap_le (fun decl : RuleDecl => decl.overrides.whitespaceChars) g.rules
  simp only [optionsPool, flags, List.length_flatMap, List.map_cons, List.map_nil, List.length_map,
    List.sum_cons, List.sum_nil, whitespacePool, List.length_cons]
  omega

theorem Obtainable.mem_optionsPool (h : g.Obtainable o o') : o' ∈ g.optionsPool o := by
  refine List.mem_flatMap.2 ⟨(o'.stripWhitespace, o'.caseSensitive, o'.includeFailed), mem_flags _, ?_⟩
  refine List.mem_map.2 ⟨o'.whitespaceChars, ?_, ?_⟩
  · rcases h.whitespaceChars with e | ⟨decl, hd, e⟩
    · rw [e]; exact List.mem_cons_self ..
    · exact List.mem_cons_of_mem _ (List.mem_filterMap.2 ⟨decl, hd, e⟩)
  · rw [← h.simplifyTree, ← h.maxDepth]

theorem finite_obtainable (g : Grammar) (o : Options) : {o' | g.Obtainable o o'}.Finite :=
  (g.optionsPool o).toFinset.finite_toSet.subset fun _ h => by simpa using Obtainable.mem_optionsPool h

theorem optionsCount_le (g : Grammar) (o : Options) : g.optionsCount o ≤ 8 * (g.rules.length + 1) := by
  have hs : {o' | g.Obtainable o o'} ⊆ ((g.optionsPool o).toFinset : Set Options) :=
    fun _ h => by simpa using Obtainable.mem_optionsPool h
  have hc := Set.ncard_le_ncard hs (Finset.finite_toSet _)
  rw [Set.ncard_coe_finset] at hc
  exact Nat.le_trans hc (Nat.le_trans (List.toFinset_card_le _) (length_optionsPool_le g o))

end PegTree.Grammar
