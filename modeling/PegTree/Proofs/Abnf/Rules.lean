import PegTree.Abnf.Compile
import PegTree.Proofs.Answers
import PegTree.Proofs.Cleaning
import PegTree.Proofs.Patterns

/-!
# The rules of ABNF

The grammar of ABNF is put together without an error, and its rules have these bodies. None of them
comes back to itself before it has consumed something.
-/

namespace PegTree.Abnf

/-! ## Classes and patterns -/

def letter : CharClass := .union (.union .nothing (.range 'A' 'Z')) (.range 'a' 'z')

def nameChar : CharClass := .union (.union (.union letter (.range '0' '9')) (.range '_' '_')) (.range '-' '-')

def decimal : CharClass := .union .nothing (.range '0' '9')

def hexadecimal : CharClass := .union (.union decimal (.range 'A' 'F')) (.range 'a' 'f')

def visible : CharClass := .union .nothing (.range '!' '~')

def quotable : CharClass := .union (.union (.union .nothing (.single ' ')) (.single '!')) (.range '#' '~')

/-- One character of a class. -/
def single (c : CharClass) : Regex := .seq .textStart (.chars c)

def word (head tail : CharClass) : Regex := .seq .textStart (.seq (.chars head) (.star (.chars tail) true))

def quoted (mark inner : CharClass) : Regex :=
  .seq .textStart (.seq (.chars mark) (.seq (.star (.chars inner) true) (.chars mark)))

def around (inner mark : CharClass) : Regex :=
  .seq .textStart (.alt (.seq (.star (.chars inner) true) (.seq (.chars mark) (.star (.chars inner) true)))
    (.plus (.chars inner) true))

def namePattern : Pattern where
  source := "[A-Za-z][A-Za-z0-9_-]*".toList
  exact := word letter nameChar
  caseless := word (.caseless letter) (.caseless nameChar)
  exact_read := rfl
  caseless_read := rfl

def boundsPattern : Pattern where
  source := "[0-9]*\\*[0-9]*|[0-9]+".toList
  exact := around decimal (.single '*')
  caseless := around (.caseless decimal) (.caseless (.single '*'))
  exact_read := rfl
  caseless_read := rfl

def quotedPattern : Pattern where
  source := "\"[\\x20\\x21\\x23-\\x7E]*\"".toList
  exact := quoted (.single '\"') quotable
  caseless := quoted (.caseless (.single '\"')) (.caseless quotable)
  exact_read := rfl
  caseless_read := rfl

def decimalPattern : Pattern where
  source := "[0-9]".toList
  exact := single decimal
  caseless := single (.caseless decimal)
  exact_read := rfl
  caseless_read := rfl

def hexadecimalPattern : Pattern where
  source := "[0-9A-Fa-f]".toList
  exact := single hexadecimal
  caseless := single (.caseless hexadecimal)
  exact_read := rfl
  caseless_read := rfl

def visiblePattern : Pattern where
  source := "[\\x21-\\x7E]".toList
  exact := single visible
  caseless := single (.caseless visible)
  exact_read := rfl
  caseless_read := rfl

/-! ## The grammar -/

def tokens : List (String × Expr) := coreTokens.toOption.getD []

def abnf : PegTree.Grammar where
  options := { stripWhitespace := false }
  rules := rules.map fun (name, body) => ⟨name, {}, body⟩
  tokens := tokens
  start := some "rulelist"

theorem grammar_eq : grammar = .ok abnf := by rfl

theorem abnf_steady : ∀ decl ∈ abnf.rules, decl.overrides = {} := by
  intro decl h
  obtain ⟨_, _, rfl⟩ := List.mem_map.1 h
  rfl

/-! ## Bodies -/

def blank : Expr := lits [" ", "\t"]

def bit : Expr := lits ["0", "1"]

def found (p : Pattern) : Expr := .literal false [.pattern p] none

def blanks : Expr := (Expr.ref "c_wsp").many

/-- All rules but the list of rules, which asserts the end of the input. -/
def bodies : List (String × Expr) := [
  ("rule", row [.ref "rulename", .ref "defined_as", .ref "elements", .ref "c_nl"]),
  ("rulename", found namePattern),
  ("defined_as", row [blanks, lits ["=/", "="], blanks]),
  ("elements", row [.ref "alternation", blanks]),
  ("c_wsp", oneOf [blank, row [.ref "c_nl", blank]]),
  ("c_nl", oneOf [.ref "comment", .endOfLine false]),
  ("comment", row [lit ";", (oneOf [blank, found visiblePattern]).many, .endOfLine false]),
  ("alternation", row [.ref "concatenation", (row [blanks, lit "/", blanks, .ref "concatenation"]).many]),
  ("concatenation", row [.ref "repetition", (row [(Expr.ref "c_wsp").many1, .ref "repetition"]).many]),
  ("repetition", row [(Expr.ref "repeat").maybe, .ref "element"]),
  ("repeat", found boundsPattern),
  ("element", oneOf [.ref "rulename", .ref "group", .ref "option", .ref "char_val", .ref "num_val"]),
  ("group", enclosed "(" ")"),
  ("option", enclosed "[" "]"),
  ("char_val", found quotedPattern),
  ("num_val", row [lit "%", oneOf [.ref "bin_val", .ref "dec_val", .ref "hex_val"]]),
  ("bin_val", basedValue "b" bit),
  ("dec_val", basedValue "d" (found decimalPattern)),
  ("hex_val", basedValue "x" (found hexadecimalPattern))]

def listBody : Expr := row [(oneOf [.ref "c_wsp", .ref "c_nl", .ref "rule"]).many, .endOfInput true]

theorem declares_rulelist : abnf.Declares "rulelist" ⟨"rulelist", {}, listBody⟩ := ⟨_, rfl, rfl⟩

theorem declares_bodies : ∀ d ∈ bodies, abnf.Declares d.1 ⟨d.1, {}, d.2⟩ := by
  unfold bodies
  simp only [List.forall_mem_cons]
  refine ⟨?_, ?_, ?_, ?_, ?_, ?_, ?_, ?_, ?_, ?_, ?_, ?_, ?_, ?_, ?_, ?_, ?_, ?_, ?_, List.forall_mem_nil _⟩ <;>
    exact ⟨_, rfl, rfl⟩

theorem declares {name : String} {e : Expr} (h : bodies.lookup name = some e) :
    abnf.Declares name ⟨name, {}, e⟩ := by
  obtain ⟨l, l', hl, _⟩ := List.lookup_eq_some_iff.1 h
  refine declares_bodies (name, e) ?_
  rw [hl]
  exact List.mem_append_right l List.mem_cons_self

/-- How far a rule is from rules that lead to no others. -/
def rank : String → Nat
  | "rule" => 9
  | "elements" => 8
  | "alternation" => 7
  | "concatenation" => 6
  | "repetition" => 5
  | "element" => 4
  | "defined_as" => 3
  | "c_wsp" => 2
  | "c_nl" => 1
  | _ => 0

theorem stratified : abnf.Stratified bodies rank where
  declares := declares_bodies
  soft := by decide +kernel
  closed := by decide +kernel
  falling := by decide +kernel

end PegTree.Abnf
