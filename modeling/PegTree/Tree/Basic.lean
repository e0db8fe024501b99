import PegTree.Text.Basic

/-!
# Parse trees

A node tells what it was made by, the text it matched, the offset where its evaluation began and
the offset where its match stopped. A failed node has no stop.
-/

namespace PegTree

/-- What a node was made by: a rule, or an expression of some kind. -/
inductive Tag where
  | rule (name : String)
  | sequence
  | choice
  | repetition
  | optional
  | literal
  | endOfLine
  | endOfInput
deriving DecidableEq

namespace Tag

def isStructural : Tag → Bool
  | .sequence | .choice | .repetition | .optional => true
  | _ => false

def ruleName? : Tag → Option String
  | .rule name => some name
  | _ => none

def label : Tag → String
  | .rule name => name
  | .sequence => "sequence"
  | .choice => "choice"
  | .repetition => "repeat"
  | .optional => "optional"
  | .literal => "literal"
  | .endOfLine => "eol"
  | .endOfInput => "eoi"

end Tag

structure Node where
  tag : Tag
  text : Text
  offset : Nat
  stop : Option Nat
  children : List Node

namespace Node

def matched (tag : Tag) (text : Text) (offset stop : Nat) (children : List Node) : Node :=
  ⟨tag, text, offset, some stop, children⟩

def failed (tag : Tag) (offset : Nat) (children : List Node) : Node := ⟨tag, [], offset, none, children⟩

def isFailed (n : Node) : Bool := n.stop.isNone

def name? (n : Node) : Option String := n.tag.ruleName?

mutual
def size : Node → Nat
  | ⟨_, _, _, _, children⟩ => sizeList children + 1
def sizeList : List Node → Nat
  | [] => 0
  | n :: ns => n.size + sizeList ns
end

mutual
def height : Node → Nat
  | ⟨_, _, _, _, children⟩ => heightList children + 1
def heightList : List Node → Nat
  | [] => 0
  | n :: ns => max n.height (heightList ns)
end

end Node

end PegTree
