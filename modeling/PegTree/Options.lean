/-!
# Options

How expressions are evaluated, and what a rule may change about it for its own body.
-/

namespace PegTree

structure Options where
  stripWhitespace : Bool := true
  whitespaceChars : List Char := ['\x00', '\t', '\n', '\x0b', '\x0c', '\r', ' ']
  caseSensitive : Bool := true
  includeFailed : Bool := false
  simplifyTree : Bool := true
  maxDepth : Option Nat := none
deriving DecidableEq

namespace Options

def debug : Options := { includeFailed := true, simplifyTree := false }

def isWhitespace (o : Options) (c : Char) : Bool := o.whitespaceChars.contains c

end Options

/-- The options that a rule sets anew; what is `none` stays as it is around the rule. -/
structure Overrides where
  stripWhitespace : Option Bool := none
  whitespaceChars : Option (List Char) := none
  caseSensitive : Option Bool := none
  includeFailed : Option Bool := none
deriving DecidableEq

namespace Overrides

def isEmpty (v : Overrides) : Bool := v = {}

def apply (v : Overrides) (o : Options) : Options :=
  { o with
    stripWhitespace := v.stripWhitespace.getD o.stripWhitespace
    whitespaceChars := v.whitespaceChars.getD o.whitespaceChars
    caseSensitive := v.caseSensitive.getD o.caseSensitive
    includeFailed := v.includeFailed.getD o.includeFailed }

end Overrides

end PegTree
