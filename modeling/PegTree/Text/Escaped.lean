import PegTree.Text.Basic

/-!
# Escaped text

How texts and single characters are shown inside messages.
-/

namespace PegTree

def escapedChar : Char → Text
  | '\n' => ['\\', 'n']
  | '\r' => ['\\', 'r']
  | '\t' => ['\\', 't']
  | '\x0b' => ['\\', 'v']
  | '\x0c' => ['\\', 'f']
  | '"' => ['\\', '"']
  | c => [c]

/-- Control characters with a short name and double quotes are escaped, all else is kept. -/
def escaped (t : Text) : Text := t.flatMap escapedChar

def spelledChar : Char → Text
  | '\t' => ['\\', 't']
  | '\r' => ['\\', 'r']
  | '\n' => ['\\', 'n']
  | '\'' => ['\\', '\'']
  | '"' => ['\\', '"']
  | '\\' => ['\\', '\\']
  | c =>
    if 0x20 ≤ c.toNat ∧ c.toNat ≤ 0x7e then [c]
    else ['\\', 'u', '\x7b'] ++ Nat.toDigits 16 c.toNat ++ ['\x7d']

end PegTree
