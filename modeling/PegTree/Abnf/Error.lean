import PegTree.Error

/-!
# Errors of ABNF texts

What can be wrong with an ABNF text, from its layout to the numbers in it.
-/

namespace PegTree.Abnf

/-- What a numeral was expected to have, or have been followed by. -/
inductive DecodeCause where
  | mark
  | digits
  | count
  | size
  | stop
deriving DecidableEq

/-- Why a numeral cannot be decoded, and the text from there on. -/
structure DecodeError where
  rest : Text
  cause : DecodeCause
deriving DecidableEq

inductive InvalidValue where
  | emptyRange (text : Text)
  | noCharacter (code : Nat)
  | emptyBounds (text : Text)
deriving DecidableEq

inductive Misshape where
  | missing (owner child : String)
  | emptyElement
  | unquoted (text : Text)
  | unexpected (label : String)
deriving DecidableEq

inductive Error where
  | fault (f : Fault)
  | invalidOperator (rule operator : String)
  | undefinedIncrement (rule : String)
  | invalidValue (v : InvalidValue)
  | decode (e : DecodeError)
  | malformed (m : Misshape)
deriving DecidableEq

def Error.ofGrammar (e : PegTree.Error) : Error := .fault (.error e)

def DecodeCause.label : DecodeCause → String
  | .mark => "Tag"
  | .digits => "TakeWhile1"
  | .count => "Digit"
  | .size => "MapRes"
  | .stop => "Eof"

def DecodeError.message (e : DecodeError) : String :=
  "Error(Error \x7b input: \"" ++ String.ofList e.rest ++ "\", code: " ++ e.cause.label ++ " \x7d)"

def InvalidValue.message : InvalidValue → String
  | .emptyRange text => "empty range " ++ String.ofList text
  | .noCharacter code => "0x" ++ String.ofList (Nat.toDigits 16 code) ++ " is not a character"
  | .emptyBounds text => "repeat '" ++ String.ofList text ++ "' has a maximum below its minimum"

def Misshape.message : Misshape → String
  | .missing owner child => s!"'{owner}' has no {child}"
  | .emptyElement => "empty element"
  | .unquoted text => "unquoted string " ++ String.ofList text
  | .unexpected label => s!"unexpected element '{label}'"

def Error.message : Error → String
  | .fault (.error e) => e.message
  | .fault (.insideCharacter offset) => s!"match inside a character at {offset}"
  | .fault .exhausted => "evaluation ran out of fuel"
  | .invalidOperator rule operator => s!"Invalid operator '{operator}' for rule '{rule}'."
  | .undefinedIncrement rule => s!"Rule '{rule}' extended with '=/' before it was defined."
  | .invalidValue v => "invalid value: " ++ v.message
  | .decode e => "failed to decode: " ++ e.message
  | .malformed m => "malformed ABNF tree: " ++ m.message

end PegTree.Abnf
