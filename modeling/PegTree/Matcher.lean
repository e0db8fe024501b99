import PegTree.Text.LowerCase
import PegTree.Text.Escaped
import PegTree.Pattern.Basic

/-!
# Matchers

One alternative of a literal: a fixed text or a pattern.
-/

namespace PegTree

inductive Matcher where
  | text (t : Text)
  | pattern (p : Pattern)
deriving DecidableEq

/-- The start of `t` that equals `needle`, character by character and possibly up to case. -/
def leadingText? (needle : Text) (caseSensitive : Bool) (t : Text) : Option Text :=
  leading? (if caseSensitive then (· == ·) else sameCaseless) needle t

theorem leadingText?_append {needle t s : Text} {caseSensitive : Bool}
    (h : leadingText? needle caseSensitive t = some s) : ∃ rest, t = s ++ rest := leading?_append h

namespace Matcher

def leading? (m : Matcher) (caseSensitive : Bool) (t : Text) : Option Text :=
  match m with
  | .text needle => leadingText? needle caseSensitive t
  | .pattern p => p.leading? caseSensitive t

theorem leading?_append {m : Matcher} {t s : Text} {caseSensitive : Bool}
    (h : m.leading? caseSensitive t = some s) : ∃ rest, t = s ++ rest := by
  cases m with
  | text needle => exact leadingText?_append h
  | pattern p => exact p.leading?_append h

def shown : Matcher → Text
  | .text t => '"' :: escaped t ++ ['"']
  | .pattern p => '/' :: p.source ++ ['/']

def describe : List Matcher → Text
  | [] => []
  | [m] => m.shown
  | [m, last] => m.shown ++ [' ', 'o', 'r', ' '] ++ last.shown
  | m :: rest => m.shown ++ [',', ' '] ++ describe rest

end Matcher

end PegTree
