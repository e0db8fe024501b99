import PegTree.Text.Numeral
import PegTree.Pattern.Regex

/-!
# Reading regular expressions

The written form of regular expressions: alternatives, groups, repetitions, character classes,
escapes and mode switches. A text that is not of this form is not read at all.

Dialects of the form differ where it is rarely used. In this one the name of a group is ASCII and stands
in `(?P<…>`, a class that no character belongs to is refused, a blank is escaped only where blanks are
ignored, and `\b` takes bounds in braces like any other item. Classes by a property, as in `\p{L}`, are
not read, and the size up to which counted repetitions are written out is an estimate.
-/

namespace PegTree.Regex

/-- The switches in force at a place of the written form. -/
structure ReadMode where
  ignoreCase : Bool := false
  multiLine : Bool := false
  dotAll : Bool := false
  swapGreed : Bool := false
  spaced : Bool := false

mutual
def dropSpaced : Text → Text
  | [] => []
  | c :: t => if isBlank c then dropSpaced t else if c = '#' then dropComment t else c :: t
def dropComment : Text → Text
  | [] => []
  | c :: t => if c = '\n' then dropSpaced t else dropComment t
end

def ReadMode.skip (m : ReadMode) (t : Text) : Text := if m.spaced then dropSpaced t else t

def ReadMode.skipBlanks (m : ReadMode) (t : Text) : Text := m.skip (t.dropWhile isBlank)

/-! ## Escapes -/

inductive Escape where
  | char (c : Char)
  | chars (c : CharClass)
  | edge (r : Regex)

/-- The character after `\x`, `\u` or `\U`: so many digits, or any number in braces. -/
def readCode (m : ReadMode) (width : Nat) (t : Text) : Option (Escape × Text) :=
  match m.skip t with
  | '\x7b' :: t =>
    let inside := t.takeWhile (· != '\x7d')
    let digits := if m.spaced then inside.filter (!isBlank ·) else inside
    match t.drop inside.length with
    | '\x7d' :: t =>
      if !digits.isEmpty && digits.all (isDigitOf 16) then
        (charOfCode? (numeralValue 16 digits)).map fun c => (.char c, t)
      else none
    | _ => none
  | t =>
    let digits := t.take width
    if digits.length = width && digits.all (isDigitOf 16) then
      (charOfCode? (numeralValue 16 digits)).map fun c => (.char c, t.drop width)
    else none

/-- ASCII punctuation stands for itself after a backslash, angle brackets excepted. -/
def isEscapable (c : Char) : Bool :=
  0x20 < c.toNat && c.toNat < 0x7f && !c.isAlphanum && c != '<' && c != '>'

def readEscape (m : ReadMode) : Text → Option (Escape × Text)
  | [] => none
  | 'x' :: t => readCode m 2 t
  | 'u' :: t => readCode m 4 t
  | 'U' :: t => readCode m 8 t
  | 'd' :: t => some (.chars .digit, t)
  | 's' :: t => some (.chars .space, t)
  | 'w' :: t => some (.chars .word, t)
  | 'D' :: t => some (.chars (.compl .digit), t)
  | 'S' :: t => some (.chars (.compl .space), t)
  | 'W' :: t => some (.chars (.compl .word), t)
  | 'a' :: t => some (.char '\x07', t)
  | 'f' :: t => some (.char '\x0c', t)
  | 'n' :: t => some (.char '\n', t)
  | 'r' :: t => some (.char '\r', t)
  | 't' :: t => some (.char '\t', t)
  | 'v' :: t => some (.char '\x0b', t)
  | 'A' :: t => some (.edge .textStart, t)
  | 'z' :: t => some (.edge .textEnd, t)
  | 'b' :: t => some (.edge (.wordEdge true), t)
  | 'B' :: t => some (.edge (.wordEdge false), t)
  | c :: t => if isEscapable c || (m.spaced && c == ' ') then some (.char c, t) else none

/-! ## Character classes -/

inductive ClassOp where
  | inter
  | diff
  | symmDiff

/-- A bracketed class while it is read: an operation that waits for its right side, and that side. -/
structure ClassDraft where
  negated : Bool
  pending : Option (ClassOp × CharClass)
  items : CharClass

namespace ClassDraft

def add (d : ClassDraft) (c : CharClass) : ClassDraft := { d with items := .union d.items c }

def operand (d : ClassDraft) (ignoreCase : Bool) : CharClass :=
  let right := d.items.forCase ignoreCase
  match d.pending with
  | none => right
  | some (.inter, left) => .inter (left.forCase ignoreCase) right
  | some (.diff, left) => .diff (left.forCase ignoreCase) right
  | some (.symmDiff, left) => .symmDiff (left.forCase ignoreCase) right

def operate (d : ClassDraft) (op : ClassOp) (ignoreCase : Bool) : ClassDraft :=
  ⟨d.negated, some (op, d.operand ignoreCase), .nothing⟩

def close (d : ClassDraft) (ignoreCase : Bool) : CharClass :=
  if d.negated then .compl (d.operand ignoreCase) else d.operand ignoreCase

end ClassDraft

def namedClass? (name : Text) : Option CharClass :=
  match String.ofList name with
  | "alnum" => some (.ofRanges [('0', '9'), ('A', 'Z'), ('a', 'z')])
  | "alpha" => some (.ofRanges [('A', 'Z'), ('a', 'z')])
  | "ascii" => some (.ofRanges [('\x00', '\x7f')])
  | "blank" => some (.ofRanges [('\t', '\t'), (' ', ' ')])
  | "cntrl" => some (.ofRanges [('\x00', '\x1f'), ('\x7f', '\x7f')])
  | "digit" => some (.ofRanges [('0', '9')])
  | "graph" => some (.ofRanges [('!', '~')])
  | "lower" => some (.ofRanges [('a', 'z')])
  | "print" => some (.ofRanges [(' ', '~')])
  | "punct" => some (.ofRanges [('!', '/'), (':', '@'), ('[', '\x60'), ('\x7b', '~')])
  | "space" => some (.ofRanges [('\t', '\r'), (' ', ' ')])
  | "upper" => some (.ofRanges [('A', 'Z')])
  | "word" => some (.ofRanges [('0', '9'), ('A', 'Z'), ('_', '_'), ('a', 'z')])
  | "xdigit" => some (.ofRanges [('0', '9'), ('A', 'F'), ('a', 'f')])
  | _ => none

def readNamedClass : Text → Option (CharClass × Text)
  | ':' :: t =>
    let (negated, t) := match t with
      | '^' :: t => (true, t)
      | t => (false, t)
    let name := t.takeWhile (· != ':')
    match t.drop name.length with
    | ':' :: ']' :: t => (namedClass? name).map fun c => (if negated then .compl c else c, t)
    | _ => none
  | _ => none

/-- Reads one member of a class; an edge is none. -/
def readClassItem (m : ReadMode) : Text → Option (Escape × Text)
  | [] => none
  | '\\' :: t =>
    match readEscape m t with
    | some (.edge _, _) => none
    | item => item
  | c :: t => some (.char c, t)

/-- Reads a member or a range. A dash before a bracket or another dash makes no range. -/
def readClassRange (m : ReadMode) (t : Text) : Option (CharClass × Text) := do
  let (item, t) ← readClassItem m t
  let t := m.skip t
  let single : Option (CharClass × Text) :=
    match item with
    | .char c => some (.single c, t)
    | .chars c => some (c, t)
    | .edge _ => none
  match t with
  | '-' :: next =>
    match m.skip next with
    | ']' :: _ | '-' :: _ => single
    | next =>
      match item, (← readClassItem m next) with
      | .char first, (.char last, t) =>
        if first.toNat ≤ last.toNat then some (.range first last, t) else none
      | _, _ => none
  | _ => single

def addDashes (m : ReadMode) : Nat → ClassDraft → Text → ClassDraft × Text
  | 0, d, t => (d, t)
  | fuel + 1, d, t =>
    match m.skip t with
    | '-' :: t => addDashes m fuel (d.add (.single '-')) t
    | t => (d, t)

/-- Reads what only the start of a class can hold: a negation, dashes, a closing bracket that
stands for itself. -/
def openClass (m : ReadMode) (t : Text) : ClassDraft × Text :=
  let (negated, t) := match m.skip t with
    | '^' :: t => (true, m.skip t)
    | t => (false, t)
  match t with
  | ']' :: t => (⟨negated, none, .single ']'⟩, t)
  | t => addDashes m (t.length + 1) ⟨negated, none, .nothing⟩ t

def readClass (m : ReadMode) : Nat → ClassDraft → Text → Option (CharClass × Text)
  | 0, _, _ => none
  | fuel + 1, d, t =>
    match m.skip t with
    | [] => none
    | ']' :: t => some (d.close m.ignoreCase, t)
    | '&' :: '&' :: t => readClass m fuel (d.operate .inter m.ignoreCase) t
    | '-' :: '-' :: t => readClass m fuel (d.operate .diff m.ignoreCase) t
    | '~' :: '~' :: t => readClass m fuel (d.operate .symmDiff m.ignoreCase) t
    | '[' :: t =>
      match readNamedClass t with
      | some (c, t) => readClass m fuel (d.add c) t
      | none =>
        let (inner, t) := openClass m t
        match readClass m fuel inner t with
        | some (c, t) => readClass m fuel (d.add c) t
        | none => none
    | t =>
      match readClassRange m t with
      | some (c, t) => readClass m fuel (d.add c) t
      | none => none

/-! ## Repetitions -/

def sizeLimit : Nat := 327680

def readDecimal (m : ReadMode) (t : Text) : Option (Nat × Text) :=
  let (digits, t) := splitDigits 10 (m.skipBlanks t)
  let n := numeralValue 10 digits
  if digits.isEmpty || 0x100000000 ≤ n then none else some (n, m.skipBlanks t)

def readBounds (m : ReadMode) (t : Text) : Option (Nat × Option Nat × Text) := do
  let (low, t) ← readDecimal m t
  match t with
  | '\x7d' :: t => some (low, some low, t)
  | ',' :: t =>
    match m.skip t with
    | '\x7d' :: t => some (low, none, t)
    | t =>
      let (high, t) ← readDecimal m t
      match t with
      | '\x7d' :: t => if low ≤ high then some (low, some high, t) else none
      | _ => none
  | _ => none

/-- Whether the repetition before `t` prefers more, which a question mark turns round. -/
def readGreed (m : ReadMode) : Text → Bool × Text
  | '?' :: t => (m.swapGreed, t)
  | t => (!m.swapGreed, t)

/-! ## Groups -/

/-- A group while it is read, the latest part first: the alternatives before, the items of the
current one, `none` for a mode switch. -/
structure GroupDraft where
  branches : List Regex := []
  items : List (Option Regex) := []

namespace GroupDraft

def add (d : GroupDraft) (r : Regex) : GroupDraft := { d with items := some r :: d.items }

def inRow : List Regex → Regex
  | [] => .empty
  | [r] => r
  | r :: rest => .seq r (inRow rest)

def inChoice : List Regex → Regex
  | [] => .empty
  | [r] => r
  | r :: rest => .alt r (inChoice rest)

def branch (d : GroupDraft) : GroupDraft := ⟨inRow (d.items.reverse.filterMap id) :: d.branches, []⟩

def close (d : GroupDraft) : Regex := inChoice d.branch.branches.reverse

/-- Repeats the latest item, written out `count` times; there is nothing to repeat at the start
and after a mode switch. -/
def repeatLast? (d : GroupDraft) (count : Nat) (f : Regex → Regex) : Option GroupDraft :=
  match d.items with
  | some r :: items =>
    if count * r.size ≤ sizeLimit then some { d with items := some (f r) :: items } else none
  | _ => none

end GroupDraft

/-- What an opening parenthesis begins: a group, possibly named, or a switch of modes. -/
inductive Opening where
  | group (m : ReadMode) (name : Option Text)
  | switch (m : ReadMode)

def ReadMode.set? (m : ReadMode) (flag : Char) (on : Bool) : Option ReadMode :=
  match flag with
  | 'i' => some { m with ignoreCase := on }
  | 'm' => some { m with multiLine := on }
  | 's' => some { m with dotAll := on }
  | 'U' => some { m with swapGreed := on }
  | 'x' => some { m with spaced := on }
  | 'u' => if on then some m else none
  | _ => none

/-- Reads mode switches up to the colon or parenthesis that ends them. -/
def readFlags : (on : Bool) → (seen : Text) → ReadMode → Text → Option Opening × Text
  | _, _, _, [] => (none, [])
  | on, seen, m, c :: t =>
    let complete := on || seen.head? != some '-'
    if c = ':' then (if complete then some (.group m none) else none, t)
    else if c = ')' then (if complete && !seen.isEmpty then some (.switch m) else none, t)
    else if seen.contains c then (none, t)
    else if c = '-' then readFlags false (c :: seen) m t
    else
      match m.set? c on with
      | some m => readFlags on (c :: seen) m t
      | none => (none, t)

def isNameChar (c : Char) : Bool := c.isAlphanum || c == '_' || c == '.' || c == '[' || c == ']'

def isName : Text → Bool
  | [] => false
  | c :: t => (c.isAlpha || c == '_') && t.all isNameChar

/-- Reads what follows an opening parenthesis up to the content of the group. -/
def readOpening (m : ReadMode) (t : Text) : Option (Opening × Text) :=
  match m.skip t with
  | '?' :: 'P' :: '<' :: t =>
    let name := t.takeWhile (· != '>')
    match t.drop name.length with
    | '>' :: t => if isName name then some (.group m (some name), t) else none
    | _ => none
  | '?' :: t =>
    match readFlags true [] m t with
    | (some opening, t) => some (opening, t)
    | (none, _) => none
  | t => some (.group m none, t)

def readPrimitive (m : ReadMode) : Text → Option (Regex × Text)
  | [] => none
  | '\\' :: t =>
    match readEscape m t with
    | some (.char c, t) => some (.chars (.forCase m.ignoreCase (.single c)), t)
    | some (.chars c, t) => some (.chars c, t)
    | some (.edge r, t) => some (r, t)
    | none => none
  | '.' :: t => some (.chars (if m.dotAll then .anything else .compl (.single '\n')), t)
  | '^' :: t => some (if m.multiLine then .lineStart else .textStart, t)
  | '$' :: t => some (if m.multiLine then .lineEnd else .textEnd, t)
  | c :: t => some (.chars (.forCase m.ignoreCase (.single c)), t)

def readGroup :
    Nat → ReadMode → GroupDraft → (names : List Text) → Text → Option (Regex × List Text × Text)
  | 0, _, _, _, _ => none
  | fuel + 1, m, d, names, t =>
    match m.skip t with
    | [] => some (d.close, names, [])
    | ')' :: t => some (d.close, names, ')' :: t)
    | '|' :: t => readGroup fuel m d.branch names t
    | '(' :: t => do
      match (← readOpening m t) with
      | (.switch m, t) => readGroup fuel m { d with items := none :: d.items } names t
      | (.group inner name, t) =>
        if name.any names.contains then none
        else
          let (r, names, t) ← readGroup fuel inner {} (name.toList ++ names) t
          match t with
          | ')' :: t => readGroup fuel m (d.add r) names t
          | _ => none
    | '[' :: t => do
      let (draft, t) := openClass m t
      let (c, t) ← readClass m fuel draft t
      if c.isEmpty then none else readGroup fuel m (d.add (.chars c)) names t
    | '?' :: t => do
      let (greedy, t) := readGreed m t
      readGroup fuel m (← d.repeatLast? 1 (.opt · greedy)) names t
    | '*' :: t => do
      let (greedy, t) := readGreed m t
      readGroup fuel m (← d.repeatLast? 1 (.star · greedy)) names t
    | '+' :: t => do
      let (greedy, t) := readGreed m t
      readGroup fuel m (← d.repeatLast? 1 (.plus · greedy)) names t
    | '\x7b' :: t => do
      let (low, high, t) ← readBounds m (m.skip t)
      let (greedy, t) := readGreed m (m.skip t)
      readGroup fuel m (← d.repeatLast? (high.getD low) (.repeated · low high greedy)) names t
    | t => do
      let (r, t) ← readPrimitive m t
      readGroup fuel m (d.add r) names t

def read? (ignoreCase : Bool) (source : Text) : Option Regex :=
  match readGroup (source.length + 1) { ignoreCase } {} [] source with
  | some (r, _, []) => some r
  | _ => none

end PegTree.Regex
