import PegTree.Abnf.Compile
import PegTree.Expr.Placeholder
import PegTree.Text.LowerCase

/-!
# Registering ABNF texts

The definitions of an ABNF text become rules of a grammar. Their names are looked up when a rule
is built, so they may stand for rules and tokens declared anywhere.
-/

namespace PegTree.Abnf

def isConstantName (name : String) : Bool := !name.toList.any isLowerCase

/-- What a name stands for: the token of a constant name, or else the rule of the name. -/
def binding (token? : String → Option Expr) (name : String) : Expr :=
  match token? name with
  | some token => if isConstantName name then token else .ref name
  | none => .ref name

def resolve (token? : String → Option Expr) (rhs : Expr) : Expr := rhs.mapPlaceholders (binding token?)

end PegTree.Abnf

namespace PegTree.Grammar

def addCoreTokens (g : Grammar) (tokens : List (String × Expr)) : Grammar :=
  tokens.foldl (fun g (name, e) =>
    if g.hasToken name then g else { g with tokens := g.tokens ++ [(name, e)] }) g

def addDefinitions (g : Grammar) : List (String × Expr) → Grammar × Except Abnf.Error Unit
  | [] => (g, .ok ())
  | (name, rhs) :: rest =>
    match g.addRule ⟨name, {}, fun token? => .ok (Abnf.resolve token? rhs)⟩ with
    | .ok g => g.addDefinitions rest
    | .error e => (g, .error (.ofGrammar e))

/-- Compiles an ABNF text and declares its rules, and the core tokens where they are missing. -/
def addAbnf (g : Grammar) (t : Text) : Grammar × Except Abnf.Error Unit :=
  match Abnf.compile t, Abnf.coreTokens with
  | .ok defs, .ok tokens => (g.addCoreTokens tokens).addDefinitions defs.rules
  | .error e, _ => (g, .error e)
  | .ok _, .error e => (g, .error (.ofGrammar e))

end PegTree.Grammar

