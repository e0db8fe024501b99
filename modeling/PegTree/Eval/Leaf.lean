import PegTree.Eval.Basic

/-!
# Evaluation of leaves

Literals, ends of lines and the end of the input need no other evaluation.
-/

namespace PegTree.Scope

variable {σ : Type}

def literal (s : Scope σ) (asserted : Bool) (matchers : List Matcher) (caseSensitive : Option Bool)
    (offset : Nat) : Except Fault Node := do
  let start := (Cursor.ofOffset s.input offset).skip s.options
  let caseSensitive := caseSensitive.getD s.options.caseSensitive
  if matchers.isEmpty then return .matched .literal [] start.offset start.offset []
  match ← start.accept? fun t => matchers.findSome? (·.leading? caseSensitive t) with
  | some (t, stop) => return .matched .literal t start.offset stop.offset []
  | none =>
    refuse s.input asserted start.offset ("Expected " ++ String.ofList (Matcher.describe matchers))
      (.failed .literal start.offset [])

/-- A line feed, also after a carriage return, at the offset itself. -/
def leadingNewline? (t : Text) : Option Text :=
  leadingText? ['\n'] true t <|> leadingText? ['\r', '\n'] true t

/-- Takes a newline, or else skips whitespace up to the end of the input. -/
def endOfLine (s : Scope σ) (asserted : Bool) (offset : Nat) : Except Fault Node := do
  let start := Cursor.ofOffset s.input offset
  match ← start.accept? leadingNewline? with
  | some (t, stop) => return .matched .endOfLine t offset stop.offset []
  | none =>
    let stop := start.skip s.options
    if stop.atEnd then return .matched .endOfLine [] offset stop.offset []
    refuse s.input asserted offset ("Expected end of line but encountered " ++ s.input.describeAt offset)
      (.failed .endOfLine offset [])

def endOfInput (s : Scope σ) (asserted : Bool) (offset : Nat) : Except Fault Node :=
  let stop := s.skip offset
  if s.input.size ≤ stop then .ok (.matched .endOfInput [] offset stop [])
  else
    refuse s.input asserted stop ("Expected end of input but encountered " ++ s.input.describeAt stop)
      (.failed .endOfInput offset [])

end PegTree.Scope
