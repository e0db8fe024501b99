import PegTree.Eval.Leaf
import PegTree.Expr.Basic

/-!
# Evaluation of expressions

A sequence and a repetition run through matches, each at the whitespace-skipped stop of the one
before, until one is refused; a choice tries its alternatives at one place. The nodes are made
from what these runs and trials report.
-/

namespace PegTree

/-- Matches in a row, where the last of them stopped, and the attempt that was refused after them. -/
structure Run where
  matched : List Node
  stop : Nat
  refused : Option Node

/-- The attempts of a choice that failed, and the one that did not. -/
structure Trial where
  failed : List Node
  chosen : Option Node

namespace Scope

variable {σ : Type}

def repeatRun (s : Scope σ) (item : Nat → Eval σ Node) : Nat → Nat → List Node → Eval σ Run
  | 0, _, _ => throw .exhausted
  | fuel + 1, place, done => do
    let start := s.skip place
    let node ← item start
    match node.stop with
    | none => return ⟨done.reverse, place, some node⟩
    | some stop =>
      if stop = start then return ⟨(node :: done).reverse, stop, none⟩
      else repeatRun s item fuel stop (node :: done)

def closeSequence (s : Scope σ) (asserted : Bool) (items : List Expr) (offset : Nat) (run : Run) :
    Except Fault Node :=
  match run.refused with
  | none =>
    .ok (.matched .sequence (joinText s.input offset run.stop run.matched) offset run.stop run.matched)
  | some node =>
    let culprit := (items[run.matched.length]?.map Expr.id).getD ""
    refuse s.input asserted (s.skip run.stop) ("Failed to match " ++ culprit ++ " in sequence")
      (.failed .sequence offset (s.options.kept (run.matched ++ [node])))

def closeChoice (s : Scope σ) (asserted : Bool) (offset place : Nat) (trial : Trial) :
    Except Fault Node :=
  match trial.chosen.bind fun n => n.stop.map (n, ·) with
  | some (node, stop) =>
    .ok (.matched .choice node.text offset stop (s.options.kept trial.failed ++ [node]))
  | none =>
    refuse s.input asserted place "Choice found no matches"
      (.failed .choice offset (s.options.kept trial.failed))

def closeRepetition (s : Scope σ) (asserted : Bool) (low : Nat) (high : Option Nat) (offset : Nat)
    (run : Run) : Except Fault Node :=
  let count := run.matched.length
  let withRefused := run.matched ++ s.options.kept run.refused.toList
  if count < low then
    refuse s.input asserted run.stop "Not enough matches for repeated term"
      (.failed .repetition offset (s.options.kept withRefused))
  else if high.any (· < count) then
    refuse s.input asserted run.stop "Too many matches for repeated term"
      (.failed .repetition offset (s.options.kept withRefused))
  else
    .ok (.matched .repetition (joinText s.input offset run.stop run.matched) offset run.stop withRefused)

/-- The node of an optional expression at `offset`, which never fails. -/
def closeOptional (s : Scope σ) (offset : Nat) (node : Node) : Node :=
  match node.stop with
  | some stop => .matched .optional node.text offset stop [node]
  | none => .matched .optional [] offset offset (s.options.kept [node])

end Scope

namespace Expr

variable {σ : Type}

mutual
/-- Matches an expression at an offset. A mismatch gives a failed node, and an error if the
expression is asserted. -/
def eval (s : Scope σ) : Expr → Nat → Eval σ Node
  | .literal asserted matchers caseSensitive, offset =>
    .ofExcept (s.literal asserted matchers caseSensitive offset)
  | .sequence asserted items, offset => do
    let run ← evalRow s items offset
    .ofExcept (s.closeSequence asserted items offset run)
  | .choice asserted items, offset => do
    let trial ← evalAny s items (s.skip offset)
    .ofExcept (s.closeChoice asserted offset (s.skip offset) trial)
  | .repetition asserted low high item, offset => do
    let run ← s.repeatRun (item.eval s) (s.input.size + 1) offset []
    .ofExcept (s.closeRepetition asserted low high offset run)
  | .optional _ item, offset => do
    let node ← item.eval s offset
    return s.closeOptional offset node
  | .endOfLine asserted, offset => .ofExcept (s.endOfLine asserted offset)
  | .endOfInput asserted, offset => .ofExcept (s.endOfInput asserted offset)
  | .rule asserted name, offset => s.refer asserted name offset
  | .placeholder _ name, _ => throw (.error (.unresolved name))
def evalRow (s : Scope σ) : List Expr → Nat → Eval σ Run
  | [], place => return ⟨[], place, none⟩
  | item :: items, place => do
    let node ← item.eval s (s.skip place)
    match node.stop with
    | none => return ⟨[], place, some node⟩
    | some stop =>
      let run ← evalRow s items stop
      return { run with matched := node :: run.matched }
def evalAny (s : Scope σ) : List Expr → Nat → Eval σ Trial
  | [], _ => return ⟨[], none⟩
  | item :: items, place => do
    let node ← item.eval s place
    if node.isFailed then
      let trial ← evalAny s items place
      return { trial with failed := node :: trial.failed }
    else return ⟨[], some node⟩
end

end Expr

end PegTree
