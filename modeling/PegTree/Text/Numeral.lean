import PegTree.Text.Basic

/-!
# Numerals

Digits and their values in bases up to sixteen, and the characters that numbers stand for.
-/

namespace PegTree

/-- The value of a digit of base sixteen, sixteen for any other character. -/
def digitValue (c : Char) : Nat :=
  if '0'.toNat ≤ c.toNat ∧ c.toNat ≤ '9'.toNat then c.toNat - '0'.toNat
  else if 'a'.toNat ≤ c.toNat ∧ c.toNat ≤ 'f'.toNat then c.toNat - 'a'.toNat + 10
  else if 'A'.toNat ≤ c.toNat ∧ c.toNat ≤ 'F'.toNat then c.toNat - 'A'.toNat + 10
  else 16

def isDigitOf (base : Nat) (c : Char) : Bool := digitValue c < base

def numeralValue (base : Nat) (digits : Text) : Nat :=
  digits.foldl (fun n c => n * base + digitValue c) 0

def splitDigits (base : Nat) (t : Text) : Text × Text := t.span (isDigitOf base)

/-- The character of a code, if it has one: surrogates and numbers past the last code have none. -/
def charOfCode? (code : Nat) : Option Char := if code.isValidChar then some (Char.ofNat code) else none

end PegTree
