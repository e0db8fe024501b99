import PegTree.Pattern.Reading

/-!
# Patterns

A pattern is a regular expression that is matched at the start of a text only, in an exact
reading and in one that ignores case. Its written form is kept: it names the pattern. What follows about
evaluations uses of a pattern only that it finds a start of the text ahead (`Pattern.leading?_append`).
-/

namespace PegTree

/-- The written form with what ties it to the start of the text. The form itself may close and
reopen the group that is put around it. -/
def anchored (source : Text) : Text := ['^', '(', '?', ':'] ++ source ++ [')']

structure Pattern where
  source : Text
  exact : Regex
  caseless : Regex
  exact_read : Regex.read? false (anchored source) = some exact
  caseless_read : Regex.read? true (anchored source) = some caseless

namespace Pattern

def ofSource? (source : Text) : Option Pattern :=
  match he : Regex.read? false (anchored source), hc : Regex.read? true (anchored source) with
  | some exact, some caseless => some ⟨source, exact, caseless, he, hc⟩
  | _, _ => none

theorem eq_of_source_eq {p q : Pattern} (h : p.source = q.source) : p = q := by
  obtain ⟨s, e, c, he, hc⟩ := p
  obtain ⟨s', e', c', he', hc'⟩ := q
  subst h
  have := Option.some.inj (he.symm.trans he')
  have := Option.some.inj (hc.symm.trans hc')
  subst_vars
  rfl

instance : DecidableEq Pattern := fun p q =>
  if h : p.source = q.source then isTrue (eq_of_source_eq h)
  else isFalse fun e => h (congrArg _ e)

def leading? (p : Pattern) (caseSensitive : Bool) (t : Text) : Option Text :=
  (if caseSensitive then p.exact else p.caseless).leading? t

theorem leading?_append {p : Pattern} {caseSensitive : Bool} {t s : Text}
    (h : p.leading? caseSensitive t = some s) : ∃ rest, t = s ++ rest := Regex.leading?_append h

end Pattern

end PegTree
