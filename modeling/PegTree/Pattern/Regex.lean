import PegTree.Text.Basic
import PegTree.Pattern.CharClass

/-!
# Regular expressions

A regular expression gives the places where a match from a given place can end, the preferred
one first. A place is never found twice, so repetitions of what may be empty come to an end: in `(|a)*`
a round that takes nothing gives way to one that takes a letter.
-/

namespace PegTree

inductive Regex where
  | empty
  | chars (c : CharClass)
  | seq (a b : Regex)
  | alt (a b : Regex)
  | opt (a : Regex) (greedy : Bool)
  | star (a : Regex) (greedy : Bool)
  | plus (a : Regex) (greedy : Bool)
  | textStart
  | textEnd
  | lineStart
  | lineEnd
  | wordEdge (expected : Bool)

/-- A place in a text: the character before it, how many precede it, and what follows. -/
structure Spot where
  before : Option Char
  offset : Nat
  rest : Text

namespace Spot

def start (t : Text) : Spot := ⟨none, 0, t⟩

/-- Whether exactly one side of the place is a word character. -/
def isWordEdge (s : Spot) : Bool := s.before.any isWordChar != s.rest.head?.any isWordChar

def isIn (s : Spot) (found : List Spot) : Bool := found.any (·.offset == s.offset)

/-- Each place once, where it comes first. -/
def distinct (spots : List Spot) : List Spot :=
  (spots.foldl (fun found s => if s.isIn found then found else s :: found) []).reverse

/-- Adds to `found`, the latest first, all places that repeated steps from `s` lead to. -/
def closure (step : Spot → List Spot) (greedy : Bool) : Nat → Spot → List Spot → List Spot
  | 0, _, found => found
  | fuel + 1, s, found =>
    if s.isIn found then found
    else
      let onward := (step s).filter (·.offset != s.offset)
      if greedy then s :: onward.foldl (fun found t => closure step greedy fuel t found) found
      else onward.foldl (fun found t => closure step greedy fuel t found) (s :: found)

end Spot

namespace Regex

open Spot in
/-- The ends of the matches from a place, by preference. -/
def ends : Regex → Spot → List Spot
  | .empty, s => [s]
  | .chars c, s =>
    match s.rest with
    | x :: rest => if c.contains x then [⟨some x, s.offset + 1, rest⟩] else []
    | [] => []
  | .seq a b, s => distinct ((a.ends s).flatMap b.ends)
  | .alt a b, s => distinct (a.ends s ++ b.ends s)
  | .opt a greedy, s => distinct (if greedy then a.ends s ++ [s] else s :: a.ends s)
  | .star a greedy, s => (closure a.ends greedy (s.rest.length + 1) s []).reverse
  | .plus a greedy, s =>
    ((a.ends s).foldl (fun found t =>
      if t.offset == s.offset then (if t.isIn found then found else t :: found)
      else closure a.ends greedy (s.rest.length + 1) t found) []).reverse
  | .textStart, s => if s.before.isNone then [s] else []
  | .textEnd, s => if s.rest.isEmpty then [s] else []
  | .lineStart, s => if s.before.all (· == '\n') then [s] else []
  | .lineEnd, s => if s.rest.head?.all (· == '\n') then [s] else []
  | .wordEdge expected, s => if s.isWordEdge == expected then [s] else []

def leading? (r : Regex) (t : Text) : Option Text :=
  (r.ends (.start t)).head?.map fun s => t.take s.offset

theorem leading?_append {r : Regex} {t s : Text} (h : r.leading? t = some s) :
    ∃ rest, t = s ++ rest := by
  obtain ⟨spot, _, rfl⟩ := Option.map_eq_some_iff.1 h
  exact ⟨t.drop spot.offset, (List.take_append_drop _ _).symm⟩

def size : Regex → Nat
  | .seq a b | .alt a b => a.size + b.size + 1
  | .opt a _ | .star a _ | .plus a _ => a.size + 1
  | _ => 1

def copies (a : Regex) : Nat → Regex
  | 0 => .empty
  | 1 => a
  | n + 1 => .seq a (copies a n)

def optionalCopies (a : Regex) (greedy : Bool) : Nat → Regex
  | 0 => .empty
  | 1 => .opt a greedy
  | n + 1 => .opt (.seq a (optionalCopies a greedy n)) greedy

/-- At least `low` copies, and at most `high` if there is such a bound. -/
def repeated (a : Regex) (low : Nat) (high : Option Nat) (greedy : Bool) : Regex :=
  match high with
  | none => if low = 0 then .star a greedy else .seq (a.copies low) (.star a greedy)
  | some high =>
    if high ≤ low then a.copies low
    else if low = 0 then optionalCopies a greedy high
    else .seq (a.copies low) (optionalCopies a greedy (high - low))

end Regex

end PegTree
