import PegTree.Eval.Call
import PegTree.Tree.Simplify

/-!
# Sessions

A session of parses over one grammar keeps the rules it has built and knows which rules are in
progress. A rule that is entered while it is in progress at the same offset under the same
options would go on for ever, so that is an error.
-/

namespace PegTree

structure Session where
  cache : List (String × Rule) := []
  -- the rules whose bodies have been built, with or without success, the latest first
  built : List String := []
  -- the rules in progress, the innermost first
  active : List Frame := []

/-- Whether a frame is in progress already. Offsets do not decrease towards the innermost frame,
so only the frames of the same offset are looked at. -/
def inProgress (active : List Frame) (f : Frame) : Bool :=
  (active.takeWhile (·.offset == f.offset)).contains f

namespace Session

def enter (f : Frame) : Eval Session Unit := do
  if inProgress (← get).active f then throw (.error (.leftRecursion f.rule f.offset))
  modify fun s => { s with active := f :: s.active }

def exit : Eval Session Unit := modify fun s => { s with active := s.active.tail }

/-- The rule of a name, built when it is first asked for. A body that fails to build is built
anew the next time. -/
def rule (g : Grammar) (name : String) : Eval Session Rule := do
  match (← get).cache.lookup name with
  | some rule => return rule
  | none =>
    match g.rule? name with
    | none => throw (.error (.unknownRule name))
    | some decl =>
      modify fun s => { s with built := name :: s.built }
      let rule ← .ofExcept ((g.build decl).mapError .error)
      modify fun s => { s with cache := (name, rule) :: s.cache }
      return rule

def host (g : Grammar) : Host Session := ⟨rule g, enter, exit⟩

def renewed (s : Session) : Session := { built := s.built }

end Session

namespace Grammar

/-- A bound on the nesting of rules: rules, offsets, and the options that overrides can make. -/
def nestingBound (g : Grammar) (input : Input) : Nat :=
  g.rules.length * (input.size + 1) * (8 * (g.rules.length + 1))

def scope (g : Grammar) (input : Input) (options : Options) (depth : Nat) : Scope Session :=
  ⟨input, options, callRule (Session.host g) input (g.nestingBound input + 1) options depth⟩

def evaluate (g : Grammar) (name : String) (t : Text) : Eval Session Node :=
  (Expr.ref name).eval (g.scope (.ofText t) g.options 0) 0

/-- The tree of a rule over a text, which must match. Text may be left over. -/
def parseRule (g : Grammar) (name : String) (t : Text) : Eval Session Node := do
  let tree ← g.evaluate name t
  if tree.isFailed then throw (.error .noMatch)
  return if g.options.simplifyTree then tree.simplify else tree

def parse (g : Grammar) (t : Text) : Eval Session Node :=
  match g.start with
  | some name => g.parseRule name t
  | none => throw (.error .noStartRule)

end Grammar

namespace Expr

def evalAlone (e : Expr) (input : Input) (options : Options) (offset depth : Nat) : Except Fault Node :=
  (e.eval (Grammar.scope {} input options depth) offset {}).1

def parse (e : Expr) (t : Text) (options : Options) : Except Fault Node :=
  e.evalAlone (.ofText t) options 0 0

end Expr

end PegTree
