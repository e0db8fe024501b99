import PegTree.Expr.Basic
import PegTree.Options

/-!
# Grammars

A grammar declares options, tokens and rules. The body of a rule is built when the rule is first
used, so it can refer to any rule by name; of the grammar it looks up the tokens and nothing else. So
grammars with the same rules and tokens build the same bodies, whatever their options are.
-/

namespace PegTree

structure RuleDecl where
  name : String
  overrides : Overrides
  body : (token? : String → Option Expr) → Except Error Expr

structure Rule where
  name : String
  overrides : Overrides
  body : Expr

structure Grammar where
  options : Options := {}
  rules : List RuleDecl := []
  tokens : List (String × Expr) := []
  start : Option String := none

namespace Grammar

def rule? (g : Grammar) (name : String) : Option RuleDecl := g.rules.find? (·.name == name)

def token? (g : Grammar) (name : String) : Option Expr := g.tokens.lookup name

def hasRule (g : Grammar) (name : String) : Bool := (g.rule? name).isSome

def hasToken (g : Grammar) (name : String) : Bool := (g.token? name).isSome

def ruleNames (g : Grammar) : List String := g.rules.map (·.name)

def build (g : Grammar) (decl : RuleDecl) : Except Error Rule :=
  (decl.body g.token?).map fun body => ⟨decl.name, decl.overrides, body⟩

/-! ## Declaring -/

def configure (g : Grammar) (f : Options → Options) : Grammar := { g with options := f g.options }

def startAt (g : Grammar) (name : String) : Grammar := { g with start := some name }

def addToken (g : Grammar) (name : String) (e : Expr) : Except Error Grammar :=
  if g.hasToken name then .error (.duplicateToken name)
  else .ok { g with tokens := g.tokens ++ [(name, e)] }

def addRule (g : Grammar) (decl : RuleDecl) : Except Error Grammar :=
  if g.hasRule decl.name then .error (.duplicateRule decl.name)
  else .ok { g with rules := g.rules ++ [decl] }

/-- The finished grammar: a start rule must be one of its rules. -/
def checked (g : Grammar) : Except Error Grammar :=
  match g.start with
  | some name => if g.hasRule name then .ok g else .error (.unknownRule name)
  | none => .ok g

end Grammar

def requireToken (token? : String → Option Expr) (name : String) : Except Error Expr :=
  match token? name with
  | some e => .ok e
  | none => .error (.unknownToken name)

end PegTree
