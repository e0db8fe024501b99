import PegTree.Eval.Compound
import PegTree.Grammar.Basic

/-!
# Evaluation of rules

A reference evaluates the body of its rule under the options of the rule. A host supplies the
rules and is told when the evaluation of one begins and ends.
-/

namespace PegTree

/-- A rule in progress: where it was entered and under which options. -/
structure Frame where
  rule : String
  offset : Nat
  options : Options
deriving DecidableEq

structure Host (σ : Type) where
  rule : String → Eval σ Rule
  enter : Frame → Eval σ Unit
  exit : Eval σ Unit

/-- The node of a rule whose body gave `tree`; `options` are those around the rule. -/
def closeRule (input : Input) (options : Options) (asserted : Bool) (name : String) (offset : Nat)
    (tree : Node) : Except Fault Node :=
  match tree.stop with
  | some stop => .ok (.matched (.rule name) tree.text offset stop [tree])
  | none =>
    refuse input asserted offset ("Failed to match rule '" ++ name ++ "'")
      (.failed (.rule name) offset (options.kept [tree]))

/-- Evaluates a reference below `depth` rules; the fuel bounds the nesting of rules. A rule is
exited also when a fault comes out of its body. -/
def callRule {σ : Type} (host : Host σ) (input : Input) :
    (fuel : Nat) → (options : Options) → (depth : Nat) → (asserted : Bool) → (name : String) →
      (offset : Nat) → Eval σ Node
  | 0, _, _, _, _, _ => throw .exhausted
  | fuel + 1, options, depth, asserted, name, offset => do
    let rule ← host.rule name
    if options.maxDepth.any (· < depth + 1) then throw (.error (.recursionLimit (depth + 1)))
    host.enter ⟨rule.name, offset, options⟩
    let inner := rule.overrides.apply options
    let scope : Scope σ := ⟨input, inner, callRule host input fuel inner (depth + 1)⟩
    let outcome ← (rule.body.eval scope offset).attempt
    host.exit
    let tree ← .ofExcept outcome
    .ofExcept (closeRule input options asserted rule.name offset tree)

end PegTree
