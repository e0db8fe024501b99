import PegTree.Error
import PegTree.Matcher
import PegTree.Options

/-!
# Cursors

A place in an input that matchers are tried at. Inside a character nothing is ahead, so only the
empty text can match there, and such a match is a fault.
-/

namespace PegTree

/-- The whitespace that options let be skipped at the start of a text. -/
def Options.skippable (o : Options) (t : Text) : Text :=
  if o.stripWhitespace then t.takeWhile o.isWhitespace else []

structure Cursor where
  input : Input
  offset : Nat

namespace Cursor

def ofOffset (input : Input) (offset : Nat) : Cursor := ⟨input, min offset input.size⟩

def rest (c : Cursor) : Text := c.input.rest c.offset

def atEnd (c : Cursor) : Bool := c.input.size ≤ c.offset

def skip (c : Cursor) (o : Options) : Cursor :=
  { c with offset := c.offset + byteSize (o.skippable c.rest) }

def advance (c : Cursor) (t : Text) : Except Fault (Text × Cursor) :=
  if c.input.isBoundary c.offset then .ok (t, { c with offset := c.offset + byteSize t })
  else .error (.insideCharacter c.offset)

def accept? (c : Cursor) (leading? : Text → Option Text) : Except Fault (Option (Text × Cursor)) :=
  match leading? c.rest with
  | some t => (c.advance t).map some
  | none => .ok none

def acceptText? (c : Cursor) (t : Text) (caseSensitive : Bool) :
    Except Fault (Option (Text × Cursor)) :=
  c.accept? (leadingText? t caseSensitive)

def acceptMatcher? (c : Cursor) (m : Matcher) (caseSensitive : Bool) :
    Except Fault (Option (Text × Cursor)) :=
  c.accept? (m.leading? caseSensitive)

end Cursor

namespace Input

def skip (i : Input) (o : Options) (offset : Nat) : Nat := ((Cursor.ofOffset i offset).skip o).offset

/-- The character at `offset`, as messages show it. -/
def describeAt (i : Input) (offset : Nat) : String :=
  match (Cursor.ofOffset i offset).rest with
  | c :: _ => String.ofList (['\''] ++ spelledChar c ++ ['\''])
  | [] => "end of input"

end Input

end PegTree
