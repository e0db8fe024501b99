import PegTree.Text.CharProperty
import PegTree.Text.CaseFold

/-!
# Character classes

Sets of characters as expressions. `caseless` closes a set under case variants.
-/

namespace PegTree

inductive CharClass where
  | nothing
  | range (first last : Char)
  | digit
  | space
  | word
  | union (a b : CharClass)
  | inter (a b : CharClass)
  | diff (a b : CharClass)
  | symmDiff (a b : CharClass)
  | compl (a : CharClass)
  | caseless (a : CharClass)

namespace CharClass

def single (c : Char) : CharClass := .range c c

def anything : CharClass := .compl .nothing

def ofRanges : List (Char × Char) → CharClass
  | [] => .nothing
  | (first, last) :: rest => .union (.range first last) (ofRanges rest)

def contains : CharClass → Char → Bool
  | .nothing, _ => false
  | .range first last, c => first.toNat ≤ c.toNat && c.toNat ≤ last.toNat
  | .digit, c => isDecimalDigit c
  | .space, c => isBlank c
  | .word, c => isWordChar c
  | .union a b, c => a.contains c || b.contains c
  | .inter a b, c => a.contains c && b.contains c
  | .diff a b, c => a.contains c && !b.contains c
  | .symmDiff a b, c => a.contains c != b.contains c
  | .compl a, c => !a.contains c
  | .caseless a, c => (caseVariants c).any a.contains

def isEmpty : CharClass → Bool
  | .nothing => true
  | .range first last => last.toNat < first.toNat
  | .digit | .space | .word => false
  | .union a b => a.isEmpty && b.isEmpty
  | .caseless a => a.isEmpty
  | a => !Nat.any 0x110000 fun n _ => n.isValidChar && a.contains (Char.ofNat n)

/-- The class for a pattern that minds the case of letters or not. -/
def forCase (ignoreCase : Bool) (a : CharClass) : CharClass := if ignoreCase then .caseless a else a

end CharClass

end PegTree
