import PegTree.Proofs.Abnf.Rules
import PegTree.Proofs.Ranges

/-!
# Abstract syntax of ABNF

Definitions as data, how they are written, and the expressions that they mean. A piece of syntax
carries what makes its written form legal, so there is no other condition on definitions.
-/

namespace PegTree.Abnf

/-! ## Names, numbers and bounds -/

structure Name where
  head : Char
  tail : Text
  head_letter : letter.contains head = true
  tail_nameChar : ∀ c ∈ tail, nameChar.contains c = true

def Name.written (n : Name) : Text := n.head :: n.tail

def Name.label (n : Name) : String := String.ofList n.written

/-- Digits of a base, leading zeros and letters of either case among them. -/
structure Numeral (base : Nat) where
  digits : Text
  nonempty : digits ≠ []
  isDigit : ∀ c ∈ digits, isDigitOf base c = true

namespace Numeral

variable {base : Nat}

def value (n : Numeral base) : Nat := numeralValue base n.digits

end Numeral

structure Count extends Numeral 10 where
  lt : toNumeral.value < 2 ^ 64

/-- How often an element is repeated: so often, or from so often up to so often. -/
inductive Bounds where
  | exactly (n : Count)
  | within (low high : Option Count) (h : ∀ l ∈ low, ∀ m ∈ high, l.value ≤ m.value)

namespace Bounds

def digitsOf (n : Option Count) : Text := (n.map (·.digits)).getD []

def written : Bounds → Text
  | exactly n => n.digits
  | within low high _ => digitsOf low ++ '*' :: digitsOf high

def low : Bounds → Nat
  | exactly n => n.value
  | within low _ _ => (low.map (·.value)).getD 0

def high : Bounds → Option Nat
  | exactly n => some n.value
  | within _ high _ => high.map (·.value)

end Bounds

/-! ## Terminals -/

/-- Visible characters and spaces, but no quotes, between two quotes. -/
structure Quotation where
  text : Text
  isQuotable : ∀ c ∈ text, quotable.contains c = true

def Quotation.written (q : Quotation) : Text := '"' :: (q.text ++ ['"'])

inductive Base where
  | binary
  | decimal
  | hexadecimal
deriving DecidableEq

namespace Base

def radix : Base → Nat
  | binary => 2
  | decimal => 10
  | hexadecimal => 16

def letter : Base → Char
  | binary => 'b'
  | decimal => 'd'
  | hexadecimal => 'x'

end Base

structure Code (base : Nat) extends Numeral base where
  char : Char
  value_eq : toNumeral.value = char.toNat

inductive Value where
  | codes (base : Base) (first : Code base.radix) (more : List (Code base.radix))
  | range (base : Base) (low high : Code base.radix) (h : low.char.toNat ≤ high.char.toNat)

def rangePattern (low high : Char) (h : low.toNat ≤ high.toNat) : Pattern where
  source := rangeSource low high
  exact := single (.union .nothing (.range low high))
  caseless := single (.caseless (.union .nothing (.range low high)))
  exact_read := read?_rangeSource h false
  caseless_read := read?_rangeSource h true

namespace Value

def body : Value → Text
  | codes _ first more => first.digits ++ more.flatMap ('.' :: ·.digits)
  | range _ low high _ => low.digits ++ '-' :: high.digits

def base : Value → Base
  | codes base _ _ => base
  | range base _ _ _ => base

def written (v : Value) : Text := '%' :: v.base.letter :: v.body

def matcher : Value → Matcher
  | codes _ first more => .text (first.char :: more.map (·.char))
  | range _ low high h => .pattern (rangePattern low.char high.char h)

end Value

/-! ## Right-hand sides -/

mutual
inductive Alternation where
  | sole (c : Concatenation)
  | more (c : Concatenation) (a : Alternation)
inductive Concatenation where
  | sole (r : Repetition)
  | more (r : Repetition) (c : Concatenation)
inductive Repetition where
  | mk (bounds : Option Bounds) (element : Element)
inductive Element where
  | name (n : Name)
  | group (a : Alternation)
  | option (a : Alternation)
  | quotation (q : Quotation)
  | value (v : Value)
end

mutual
def Alternation.written : Alternation → Text
  | .sole c => c.written
  | .more c a => c.written ++ ' ' :: '/' :: ' ' :: a.written
def Concatenation.written : Concatenation → Text
  | .sole r => r.written
  | .more r c => r.written ++ ' ' :: c.written
def Repetition.written : Repetition → Text
  | .mk bounds element => (bounds.map (·.written)).getD [] ++ element.written
def Element.written : Element → Text
  | .name n => n.written
  | .group a => '(' :: (a.written ++ [')'])
  | .option a => '[' :: (a.written ++ [']'])
  | .quotation q => q.written
  | .value v => v.written
end

/-! What is written: a lone alternative or item is itself, several are a choice or a sequence. -/

mutual
def Alternation.exprs : Alternation → List Expr
  | .sole c => [c.expr]
  | .more c a => c.expr :: a.exprs
def Alternation.expr : Alternation → Expr
  | .sole c => c.expr
  | .more c a => .choice false (c.expr :: a.exprs)
def Concatenation.exprs : Concatenation → List Expr
  | .sole r => [r.expr]
  | .more r c => r.expr :: c.exprs
def Concatenation.expr : Concatenation → Expr
  | .sole r => r.expr
  | .more r c => .sequence false (r.expr :: c.exprs)
def Repetition.expr : Repetition → Expr
  | .mk none element => element.expr
  | .mk (some b) element => .repetition false b.low b.high element.expr
/-- Names are left open, quotations mind no case and values do. -/
def Element.expr : Element → Expr
  | .name n => .placeholder false n.label
  | .group a => a.expr
  | .option a => .optional false a.expr
  | .quotation q => .literal false [.text q.text] (some false)
  | .value v => .literal false [v.matcher] (some true)
end

/-! ## Definitions -/

structure Definition where
  name : Name
  rhs : Alternation

namespace Definition

def label (d : Definition) : String := d.name.label

/-- The first definition of a name binds it, later ones add to it. -/
def operator (seen : List String) (d : Definition) : Text := if d.label ∈ seen then ['=', '/'] else ['=']

def line (seen : List String) (d : Definition) : Text :=
  d.name.written ++ ' ' :: (d.operator seen ++ ' ' :: d.rhs.written)

end Definition

def writtenLines (seen : List String) : List Definition → List Text
  | [] => []
  | d :: ds => d.line seen :: writtenLines (d.label :: seen) ds

def written (ds : List Definition) : Text := (writtenLines [] ds).flatMap (· ++ ['\n'])

/-- One right-hand side means itself; of several all alternatives count. -/
def united : List Expr → Expr
  | [e] => e
  | es => .choice false (es.flatMap Expr.alternatives)

/-- What definitions mean: their names in the order of the first definitions, each with the
right-hand sides of all its definitions. -/
def meaning (ds : List Definition) : Definitions :=
  ⟨(ds.map (·.label)).eraseDups.map fun n => (n, united ((ds.filter (·.label == n)).map (·.rhs.expr)))⟩

end PegTree.Abnf
