import PegTree.Abnf.Definitions
import PegTree.Abnf.Grammar
import PegTree.Abnf.Layout
import PegTree.Abnf.Numerals
import PegTree.Session
import PegTree.Tree.Delete
import PegTree.Tree.Lookup

/-!
# Compilation of ABNF texts

The tree of an ABNF text is walked, and every rule in it becomes a definition.
-/

namespace PegTree.Abnf

/-! ## Terminals -/

def charOf (code : Nat) : Except Error Char :=
  match charOfCode? code with
  | some c => .ok c
  | none => .error (.invalidValue (.noCharacter code))

def charVal (t : Text) : Except Error Expr :=
  match t with
  | '"' :: rest =>
    if rest.getLast? = some '"' then .ok ((Expr.text rest.dropLast).withCase false)
    else .error (.malformed (.unquoted t))
  | _ => .error (.malformed (.unquoted t))

def rangeSource (low high : Char) : Text :=
  ['[', '\\', 'x', '\x7b'] ++ Nat.toDigits 16 low.toNat ++ ['\x7d', '-', '\\', 'x', '\x7b'] ++
    Nat.toDigits 16 high.toNat ++ ['\x7d', ']']

/-- Numeric values match the very characters. -/
def numVal (t : Text) : Except Error Expr := do
  match ← (decodeNumVal t).mapError Error.decode with
  | .codes values => return (Expr.text (← values.mapM charOf)).withCase true
  | .range low high =>
    let first ← charOf low
    let last ← charOf high
    if last.toNat < first.toNat then throw (.invalidValue (.emptyRange t))
    return (← (Expr.pattern (rangeSource first last)).mapError Error.ofGrammar).withCase true

/-! ## Walking the tree -/

/-- A lone expression stands for itself; several are joined. -/
def unlessSole (join : List Expr → Expr) : List Expr → Expr
  | [e] => e
  | es => join es

def alternationOf : List Expr → Expr
  | [] => .empty
  | es => unlessSole (.choice false) es

def concatenationOf? : List Expr → Option Expr
  | [] => none
  | es => some (unlessSole (.sequence false) es)

/-- Puts the bounds of the first `repeat` node among `siblings` around an element. -/
def withBounds (element : Expr) (siblings : List Node) : Except Error Expr :=
  match siblings.find? (·.name? == some "repeat") with
  | some node => do
    let (low, high) ← decodeBounds node.text
    return .repetition false low high element
  | none => .ok element

mutual
/-- The first alternation among the children of an `owner`. -/
def alternationIn (owner : Tag) : List Node → Except Error Expr
  | [] => .error (.malformed (.missing owner.label "alternation"))
  | n :: ns => if n.name? == some "alternation" then alternation n else alternationIn owner ns
def alternation : Node → Except Error Expr
  | ⟨_, _, _, _, children⟩ => do return alternationOf (← concatenations children)
def concatenations : List Node → Except Error (List Expr)
  | [] => .ok []
  | n :: ns =>
    if n.name? == some "concatenation" then do
      let e ← concatenation n
      return e.toList ++ (← concatenations ns)
    else concatenations ns
def concatenation : Node → Except Error (Option Expr)
  | ⟨_, _, _, _, children⟩ => do return concatenationOf? (← repetitions children)
def repetitions : List Node → Except Error (List Expr)
  | [] => .ok []
  | n :: ns =>
    if n.name? == some "repetition" then do
      let e ← repetition n
      return e :: (← repetitions ns)
    else repetitions ns
def repetition : Node → Except Error Expr
  | ⟨tag, _, _, _, children⟩ => do withBounds (← elementIn tag children) children
/-- The first element among the children of an `owner`. -/
def elementIn (owner : Tag) : List Node → Except Error Expr
  | [] => .error (.malformed (.missing owner.label "element"))
  | n :: ns => if n.name? == some "element" then element n else elementIn owner ns
def element : Node → Except Error Expr
  | ⟨_, _, _, _, []⟩ => .error (.malformed .emptyElement)
  | ⟨_, _, _, _, ⟨tag, text, _, _, children⟩ :: _⟩ =>
    match tag.ruleName? with
    | some "rulename" => .ok (.placeholder false (String.ofList text))
    | some "group" => alternationIn tag children
    | some "option" => do return (← alternationIn tag children).maybe
    | some "char_val" => charVal text
    | some "num_val" => numVal text
    | _ => .error (.malformed (.unexpected tag.label))
end

def child (n : Node) (name : String) : Except Error Node :=
  match n.child? name with
  | some found => .ok found.first
  | none => .error (.malformed (.missing n.tag.label name))

def Definitions.addRule (d : Definitions) (n : Node) : Except Error Definitions := do
  let name ← child n "rulename"
  let definedAs ← child n "defined_as"
  let elements ← child n "elements"
  let rhs ← alternationIn elements.tag elements.children
  d.define (String.ofList name.text) (String.ofList (trim definedAs.text)) rhs

/-- The tree of a normalized text, without whitespace and comments. -/
def parseTree (t : Text) : Except Error Node := do
  let g ← grammar.mapError Error.ofGrammar
  let tree ← (g.parse t {}).1.mapError Error.fault
  return (tree.delete (.rule "c_wsp") true).delete (.rule "c_nl") true

def compile (t : Text) : Except Error Definitions := do
  let tree ← parseTree (normalize t)
  (tree.childrenNamed "rule").foldlM Definitions.addRule {}

end PegTree.Abnf
