import PegTree.Grammar.Basic

/-!
# The grammar of ABNF

The notation of ABNF as a grammar. Whitespace matters in it, so nothing is skipped and every
comment and every continuation of a line is spelled out.
-/

namespace PegTree.Abnf

def lit (s : String) : Expr := .text s.toList

def lits (ss : List String) : Expr := .texts (ss.map String.toList)

def pattern (source : String) : Except PegTree.Error Expr := Expr.pattern source.toList

def coreTokens : Except PegTree.Error (List (String × Expr)) := do
  return [
    ("ALPHA", ← pattern "[A-Za-z]"),
    ("DIGIT", ← pattern "[0-9]"),
    ("HEXDIG", ← pattern "[0-9A-Fa-f]"),
    ("DQUOTE", lit "\""),
    ("SP", lit " "),
    ("HTAB", lit "\t"),
    ("WSP", lits [" ", "\t"]),
    ("LWSP", ← pattern "(?:(?:\\r\\n)?[ \\t])*"),
    ("VCHAR", ← pattern "[\\x21-\\x7E]"),
    ("CHAR", ← pattern "[\\x01-\\x7F]"),
    ("OCTET", ← pattern "[\\x00-\\xFF]"),
    ("CTL", ← pattern "[\\x00-\\x1F\\x7F]"),
    ("CR", lit "\r"),
    ("LF", lit "\n"),
    ("CRLF", lit "\r\n"),
    ("BIT", lits ["0", "1"])]

def row (items : List Expr) : Expr := .sequence false items

def oneOf (alternatives : List Expr) : Expr := .choice false alternatives

/-- An alternation in brackets, with room for whitespace inside them. -/
def enclosed (opening closing : String) : Expr :=
  row [lit opening, Expr.many (.ref "c_wsp"), .ref "alternation", Expr.many (.ref "c_wsp"), lit closing]

/-- The letter of a base, a number, and further numbers after dots or one after a dash. -/
def basedValue (letter : String) (digit : Expr) : Expr :=
  let digits := digit.many1
  row [
    (lit letter).withCase false,
    digits,
    ((((lit ".").andThen digits).many1).orElse ((lit "-").andThen digits)).maybe]

def rules : List (String × ((String → Option Expr) → Except PegTree.Error Expr)) := [
  ("rulelist", fun _ =>
    .ok ((oneOf [.ref "c_wsp", .ref "c_nl", .ref "rule"]).many.andThen (Expr.endOfInput true))),
  ("rule", fun _ => .ok (row [.ref "rulename", .ref "defined_as", .ref "elements", .ref "c_nl"])),
  ("rulename", fun _ => pattern "[A-Za-z][A-Za-z0-9_-]*"),
  ("defined_as", fun _ =>
    .ok (row [Expr.many (.ref "c_wsp"), lits ["=/", "="], Expr.many (.ref "c_wsp")])),
  ("elements", fun _ => .ok ((Expr.ref "alternation").andThen (Expr.many (.ref "c_wsp")))),
  ("c_wsp", fun token? => do
    let wsp ← requireToken token? "WSP"
    return wsp.orElse ((Expr.ref "c_nl").andThen wsp)),
  ("c_nl", fun _ => .ok ((Expr.ref "comment").orElse (.endOfLine false))),
  ("comment", fun token? => do
    let wsp ← requireToken token? "WSP"
    let vchar ← requireToken token? "VCHAR"
    return row [lit ";", (wsp.orElse vchar).many, .endOfLine false]),
  ("alternation", fun _ =>
    .ok ((Expr.ref "concatenation").andThen
      (row [Expr.many (.ref "c_wsp"), lit "/", Expr.many (.ref "c_wsp"), .ref "concatenation"]).many)),
  ("concatenation", fun _ =>
    .ok ((Expr.ref "repetition").andThen (((Expr.ref "c_wsp").many1.andThen (.ref "repetition")).many))),
  ("repetition", fun _ => .ok ((Expr.ref "repeat").maybe.andThen (.ref "element"))),
  ("repeat", fun _ => pattern "[0-9]*\\*[0-9]*|[0-9]+"),
  ("element", fun _ =>
    .ok (oneOf [.ref "rulename", .ref "group", .ref "option", .ref "char_val", .ref "num_val"])),
  ("group", fun _ => .ok (enclosed "(" ")")),
  ("option", fun _ => .ok (enclosed "[" "]")),
  ("char_val", fun _ => pattern "\"[\\x20\\x21\\x23-\\x7E]*\""),
  ("num_val", fun _ =>
    .ok ((lit "%").andThen (oneOf [.ref "bin_val", .ref "dec_val", .ref "hex_val"]))),
  ("bin_val", fun token? => do return basedValue "b" (← requireToken token? "BIT")),
  ("dec_val", fun token? => do return basedValue "d" (← requireToken token? "DIGIT")),
  ("hex_val", fun token? => do return basedValue "x" (← requireToken token? "HEXDIG"))]

/-- The grammar of ABNF texts, which starts with a list of rules. -/
def grammar : Except PegTree.Error PegTree.Grammar := do
  let empty : PegTree.Grammar := { options := { stripWhitespace := false }, start := some "rulelist" }
  let withTokens ← (← coreTokens).foldlM (fun g (name, e) => g.addToken name e) empty
  let withRules ← rules.foldlM (fun g (name, body) => g.addRule ⟨name, {}, body⟩) withTokens
  withRules.checked

end PegTree.Abnf
