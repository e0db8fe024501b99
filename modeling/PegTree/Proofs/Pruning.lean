import PegTree.Proofs.Lockstep
import PegTree.Proofs.Trees

/-!
# Keeping failed attempts

Whether failed attempts are kept has no say in what an evaluation comes to: the tree without them is
the tree with them, pruned of all failed nodes and of what is below those.
-/

namespace PegTree

open Eval

/-! ## Pruning -/

namespace Node

mutual
/-- Takes away the failed nodes below a node; a failed root loses all its children. -/
def prune : Node → Node
  | ⟨tag, text, offset, stop, children⟩ =>
    ⟨tag, text, offset, stop, if stop.isSome then pruneList children else []⟩
def pruneList : List Node → List Node
  | [] => []
  | n :: ns => if n.isFailed then pruneList ns else prune n :: pruneList ns
end

theorem pruneList_eq (ns : List Node) : pruneList ns = (ns.filter (!·.isFailed)).map prune := by
  induction ns with
  | nil => rfl
  | cons n ns ih =>
    rw [pruneList, ih]
    cases hn : n.isFailed with
    | true => simp [hn]
    | false => simp [hn]

@[simp] theorem prune_tag (n : Node) : n.prune.tag = n.tag := by cases n; rfl

@[simp] theorem prune_text (n : Node) : n.prune.text = n.text := by cases n; rfl

@[simp] theorem prune_stop (n : Node) : n.prune.stop = n.stop := by cases n; rfl

@[simp] theorem prune_isFailed (n : Node) : n.prune.isFailed = n.isFailed := by rw [isFailed, prune_stop, isFailed]

theorem prune_children {n : Node} (h : n.stop ≠ none) : n.prune.children = pruneList n.children := by
  obtain ⟨tag, text, offset, stop, children⟩ := n
  cases stop with
  | none => exact absurd rfl h
  | some stop => rfl

theorem pruneList_append (ns ms : List Node) : pruneList (ns ++ ms) = pruneList ns ++ pruneList ms := by
  simp [pruneList_eq]

theorem pruneList_failed {ns : List Node} (h : ∀ n ∈ ns, n.stop = none) : pruneList ns = [] := by
  rw [pruneList_eq, filter_failed h, List.map_nil]

theorem pruneList_matched {ns : List Node} (h : ∀ n ∈ ns, n.stop ≠ none) : pruneList ns = ns.map prune := by
  rw [pruneList_eq, filter_matched h]

end Node

/-! ## With and without failed attempts -/

def Grammar.keeping (g : Grammar) (includeFailed : Bool) : Grammar :=
  g.configure fun o => { o with includeFailed }

/-- Failed attempts are not kept, and what was kept of them is pruned. -/
def View.pruning : View := ⟨Node.prune, fun a => a, fun _ => false⟩

theorem View.pruning_expr (e : Expr) : View.pruning.expr e = e := e.mapAsserted_self

theorem View.pruning_grammar (g : Grammar) : View.pruning.grammar (g.keeping true) = g.keeping false := by
  have hdecl : ∀ decl : RuleDecl, View.pruning.decl decl = decl := by
    intro decl
    have hbody : (fun token? => (decl.body token?).map View.pruning.expr) = decl.body := by
      funext token?
      cases decl.body token? with
      | error e => rfl
      | ok body => exact congrArg Except.ok (View.pruning_expr body)
    unfold View.decl
    rw [hbody]
  have hrules : g.rules.map View.pruning.decl = g.rules :=
    (List.map_congr_left fun decl _ => hdecl decl).trans (List.map_id _)
  show Grammar.mk _ (g.rules.map View.pruning.decl) _ _ = _
  rw [hrules]
  rfl

theorem View.pruning_fair {E : Fault → Prop} : View.pruning.Fair (· = true) E where
  text n := n.prune_text
  stop n := n.prune_stop
  matched o tag t p q before ns after ho hbefore hns hafter := by
    have hrow : Node.pruneList (before ++ ns ++ after) = ns.map Node.prune := by
      rw [Node.pruneList_append, Node.pruneList_append, Node.pruneList_failed hbefore,
        Node.pruneList_failed hafter,
        Node.pruneList_matched hns, List.append_nil, List.nil_append]
    unfold Options.kept
    rw [if_pos ho, if_pos ho]
    show Node.mk tag t p (some q) (Node.pruneList (before ++ ns ++ after)) =
      .matched tag t p q ([] ++ ns.map Node.prune ++ [])
    rw [hrow, List.append_nil, List.nil_append]
    rfl
  failed o tag p ns _ := rfl
  refusal i a p message n := by
    cases a with
    | true => exact .inr rfl
    | false => exact .inr rfl
  injective b b' hb hb' _ := hb.trans hb'.symm
  adds_none _ _ h := absurd h Bool.false_ne_true

def Grammar.KeepsAlike (g : Grammar) : Prop := ∀ decl ∈ g.rules, decl.overrides.includeFailed = none

theorem Grammar.KeepsAlike.apart {g : Grammar} (hg : g.KeepsAlike) :
    View.pruning.Apart (· = true) (g.keeping true) := by
  intro decl hd o ho
  have hnone := hg decl hd
  constructor
  · simp only [View.options, View.pruning, Overrides.apply, hnone, Option.getD_none]
  · rw [← ho]
    simp only [Overrides.apply, hnone, Option.getD_none]

section
variable {g : Grammar} (hg : g.KeepsAlike)
include hg

theorem Grammar.KeepsAlike.evaluate (calls calls' : List Call) (name : String) (t : Text) :
    ((g.keeping false).evaluate name t ((g.keeping false).after calls')).1 =
      ((g.keeping true).evaluate name t ((g.keeping true).after calls)).1.map Node.prune := by
  have h := View.pruning_fair.evaluate_eq hg.apart rfl rfl calls calls' name t (fun _ _ (hf : False) => hf)
  rwa [View.pruning_grammar] at h

/-- With or without failed attempts the errors are the same, and the tree without them is the pruned one. The
bodies of the rules are the same on both sides: they do not see the options. -/
theorem includeFailed_only_adds (calls calls' : List Call) :
    (∀ (e : Expr) (i : Input) (o : Options) (depth p : Nat),
      (e.eval ((g.keeping false).scope i { o with includeFailed := false } depth) p
          ((g.keeping false).after calls')).1 =
        (e.eval ((g.keeping true).scope i { o with includeFailed := true } depth) p
          ((g.keeping true).after calls)).1.map Node.prune) ∧
    ∀ (name : String) (t : Text),
      ((g.keeping false).evaluate name t ((g.keeping false).after calls')).1 =
        ((g.keeping true).evaluate name t ((g.keeping true).after calls)).1.map Node.prune := by
  refine ⟨fun e i o depth p => ?_, hg.evaluate calls calls'⟩
  have hpair := View.pruning.pair_start (· = true) (g.keeping true) calls calls'
  have h := View.pruning_fair.eval_eq hg.apart (i := i) (o := { o with includeFailed := true }) rfl e depth p hpair
    (fun _ _ (hf : False) => hf)
  rwa [View.pruning_grammar, View.pruning_expr] at h

end

def forked : Grammar where
  rules := [⟨"fork", {}, fun _ => .ok (.choice false
      [.sequence false [.ref "stem", .text ['b']], .sequence false [.ref "stem", .text ['c']]])⟩,
    ⟨"stem", {}, fun _ => .ok (.text ['a'])⟩]

theorem forked_keepsAlike : forked.KeepsAlike := by
  intro decl hd
  rcases List.mem_pair.1 hd with rfl | rfl
  · rfl
  · rfl

theorem includeFailed_only_adds_forked : forked.KeepsAlike ∧
    ∃ n, ((forked.keeping true).evaluate "fork" ['a', 'c'] ((forked.keeping true).after [])).1 = .ok n ∧
      ((forked.keeping false).evaluate "fork" ['a', 'c'] ((forked.keeping false).after [])).1 = .ok n.prune ∧
      n.size = 10 ∧ n.prune.size = 6 := by
  have hrun : ((forked.keeping true).evaluate "fork" ['a', 'c'] ((forked.keeping true).after [])).1.toOption.map
      (fun n => (n.size, n.prune.size)) = some (10, 6) := by decide +kernel
  obtain ⟨n, hn, hsizes⟩ := exists_ok_of_toOption hrun
  obtain ⟨hsize, hpruned⟩ := Prod.mk.inj hsizes
  have h := (includeFailed_only_adds forked_keepsAlike [] []).2 "fork" ['a', 'c']
  rw [hn] at h
  exact ⟨forked_keepsAlike, n, hn, h, hsize, hpruned⟩

end PegTree
