import PegTree.Text.Input

/-!
# Errors

What can go wrong when grammars are declared and texts are parsed.
-/

namespace PegTree

/-- An asserted expression did not match at `offset`. -/
structure ParseError where
  offset : Nat
  message : String
  input : Input
deriving DecidableEq

namespace ParseError

def before (e : ParseError) : Text :=
  (e.input.slice? 0 (min e.offset e.input.size)).getD e.input.text

/-- The line of the offset and the column in it, in characters, both from one. -/
def lineCol (e : ParseError) : Nat × Nat :=
  (e.before.count '\n' + 1, (e.before.reverse.takeWhile (· != '\n')).length + 1)

end ParseError

inductive Error where
  | duplicateRule (name : String)
  | duplicateToken (name : String)
  | unknownRule (name : String)
  | unknownToken (name : String)
  | noStartRule
  | pattern (source : Text)
  | unresolved (name : String)
  | leftRecursion (rule : String) (offset : Nat)
  | recursionLimit (depth : Nat)
  | parse (e : ParseError)
  | noMatch
deriving DecidableEq

def Error.message : Error → String
  | .duplicateRule name => s!"Rule '{name}' already defined."
  | .duplicateToken name => s!"Token '{name}' already defined."
  | .unknownRule name => s!"Rule '{name}' is not defined."
  | .unknownToken name => s!"Token '{name}' is not defined."
  | .noStartRule => "Grammar has no start rule"
  | .pattern source => s!"invalid pattern /{String.ofList source}/"
  | .unresolved name => s!"reference to '{name}' was never resolved"
  | .leftRecursion rule offset => s!"Rule '{rule}' is left recursive at {offset}."
  | .recursionLimit depth => s!"recursion limit reached at depth {depth}"
  | .parse e => s!"{e.message} at {e.offset}."
  | .noMatch => "input did not match the start rule"

/-- Why an evaluation stops: an error of the grammar or the input, a match that would begin
inside a character, or fuel that did not last. -/
inductive Fault where
  | error (e : Error)
  | insideCharacter (offset : Nat)
  | exhausted
deriving DecidableEq

end PegTree
