import PegTree.Cursor
import PegTree.Tree.Basic

/-!
# Evaluations

An evaluation carries a state along and may stop with a fault; the state outlives the fault.
-/

namespace PegTree

abbrev Eval (σ α : Type) := ExceptT Fault (StateM σ) α

namespace Eval

variable {σ α β : Type}

def ofExcept (x : Except Fault α) : Eval σ α := ExceptT.mk (pure x)

def attempt (x : Eval σ α) : Eval σ (Except Fault α) := ExceptT.mk (Except.ok <$> x.run)

theorem pure_apply (a : α) (s : σ) : (pure a : Eval σ α) s = (.ok a, s) := rfl

theorem ofExcept_apply (x : Except Fault α) (s : σ) : (ofExcept x : Eval σ α) s = (x, s) := rfl

theorem attempt_apply (x : Eval σ α) (s : σ) : x.attempt s = (.ok (x s).1, (x s).2) := rfl

theorem bind_apply (x : Eval σ α) (f : α → Eval σ β) (s : σ) :
    (x >>= f) s = match x s with
      | (.ok a, s') => f a s'
      | (.error e, s') => (.error e, s') := by
  change ExceptT.bindCont f (x s).1 (x s).2 = _
  rcases x s with ⟨_ | _, _⟩ <;> rfl

end Eval

/-- What comes of a mismatch: an error at `offset` if the expression is asserted, the failed node
otherwise. -/
def refuse (input : Input) (asserted : Bool) (offset : Nat) (message : String) (node : Node) :
    Except Fault Node :=
  if asserted then .error (.error (.parse ⟨offset, message, input⟩)) else .ok node

def Options.kept (o : Options) (nodes : List Node) : List Node := if o.includeFailed then nodes else []

/-- What an expression is evaluated in: the input, the options, and the meaning of references. -/
structure Scope (σ : Type) where
  input : Input
  options : Options
  refer : (asserted : Bool) → (name : String) → (offset : Nat) → Eval σ Node

namespace Scope

variable {σ : Type}

def skip (s : Scope σ) (offset : Nat) : Nat := s.input.skip s.options offset

end Scope

/-- The text of a node over `start … stop` that is made of these children. A sole child lends its
text; otherwise it is the text of the span, or the joined texts if the span holds more. -/
def joinText (input : Input) (start stop : Nat) : List Node → Text
  | [only] => only.text
  | nodes =>
    match input.slice? start stop with
    | some span =>
      if byteSize span = nodes.foldr (fun n size => byteSize n.text + size) 0 then span
      else nodes.flatMap (·.text)
    | none => nodes.flatMap (·.text)

end PegTree
