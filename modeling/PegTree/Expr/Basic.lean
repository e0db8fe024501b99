import PegTree.Error
import PegTree.Matcher
import PegTree.Tree.Basic

/-!
# Expressions

Parsing expressions: literals and their combinations. Every expression can be asserted, which
makes a failure to match an error.
-/

namespace PegTree

inductive Expr where
  | literal (asserted : Bool) (matchers : List Matcher) (caseSensitive : Option Bool)
  | sequence (asserted : Bool) (items : List Expr)
  | choice (asserted : Bool) (items : List Expr)
  | repetition (asserted : Bool) (low : Nat) (high : Option Nat) (item : Expr)
  | optional (asserted : Bool) (item : Expr)
  | endOfLine (asserted : Bool)
  | endOfInput (asserted : Bool)
  | rule (asserted : Bool) (name : String)
  | placeholder (asserted : Bool) (name : String)

namespace Expr

/-! ## Building -/

def text (t : Text) : Expr := .literal false [.text t] none

def texts (ts : List Text) : Expr := .literal false (ts.map .text) none

def empty : Expr := .literal false [] none

def pattern (source : Text) : Except Error Expr :=
  match Pattern.ofSource? source with
  | some p => .ok (.literal false [.pattern p] none)
  | none => .error (.pattern source)

def ref (name : String) : Expr := .rule false name

def many (e : Expr) : Expr := .repetition false 0 none e

def many1 (e : Expr) : Expr := .repetition false 1 none e

def times (e : Expr) (n : Nat) : Expr := .repetition false n (some n) e

def maybe (e : Expr) : Expr := .optional false e

/-- The items of a sequence that is not asserted, any other expression as a single item. -/
def rowItems : Expr → List Expr
  | .sequence false items => items
  | e => [e]

/-- The alternatives of a choice that is not asserted, any other expression as the only one. -/
def alternatives : Expr → List Expr
  | .choice false items => items
  | e => [e]

def andThen (a b : Expr) : Expr := .sequence false (a.rowItems ++ b.rowItems)

def orElse (a b : Expr) : Expr := .choice false (a.alternatives ++ b.alternatives)

def asserted : Expr → Bool
  | .literal a _ _ | .sequence a _ | .choice a _ | .repetition a _ _ _ | .optional a _ | .endOfLine a
  | .endOfInput a | .rule a _ | .placeholder a _ => a

def setAsserted (a : Bool) : Expr → Expr
  | .literal _ matchers caseSensitive => .literal a matchers caseSensitive
  | .sequence _ items => .sequence a items
  | .choice _ items => .choice a items
  | .repetition _ low high item => .repetition a low high item
  | .optional _ item => .optional a item
  | .endOfLine _ => .endOfLine a
  | .endOfInput _ => .endOfInput a
  | .rule _ name => .rule a name
  | .placeholder _ name => .placeholder a name

def assert (e : Expr) : Expr := e.setAsserted true

/-- Makes a literal mind case or not; other expressions stay as they are. -/
def withCase (e : Expr) (caseSensitive : Bool) : Expr :=
  match e with
  | .literal a matchers _ => .literal a matchers (some caseSensitive)
  | e => e

/-! ## Naming -/

def tag : Expr → Tag
  | .literal .. => .literal
  | .sequence .. => .sequence
  | .choice .. => .choice
  | .repetition .. => .repetition
  | .optional .. => .optional
  | .endOfLine _ => .endOfLine
  | .endOfInput _ => .endOfInput
  | .rule _ name | .placeholder _ name => .rule name

def id : Expr → String
  | .literal _ (m :: ms) _ => String.ofList (Matcher.describe (m :: ms))
  | e => e.tag.label

end Expr

end PegTree
