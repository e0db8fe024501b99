import PegTree.Text.Basic
import PegTree.Text.CharProperty

/-!
# Layout of ABNF texts

Before it is parsed a text loses its blank lines, the blanks at the ends of its lines, and the
indentation that all its lines share.
-/

namespace PegTree.Abnf

def lines : Text → List Text
  | [] => [[]]
  | c :: t =>
    if c = '\n' then [] :: lines t
    else
      match lines t with
      | line :: rest => (c :: line) :: rest
      | [] => [[c]]

def trimRight (t : Text) : Text := (t.reverse.dropWhile isBlank).reverse

def trim (t : Text) : Text := trimRight (t.dropWhile isBlank)

def indentOf (line : Text) : Nat := (line.takeWhile isBlank).length

/-- The lines that are not blank, without blanks at their ends. -/
def solidLines (t : Text) : List Text := ((lines t).map trimRight).filter (!·.isEmpty)

def sharedIndent (ls : List Text) : Nat := (ls.map indentOf).min?.getD 0

def normalize (t : Text) : Text :=
  let ls := solidLines t
  ls.flatMap fun line => line.drop (sharedIndent ls) ++ ['\n']

end PegTree.Abnf
