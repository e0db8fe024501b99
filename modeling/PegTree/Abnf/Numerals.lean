import PegTree.Abnf.Error
import PegTree.Text.Numeral

/-!
# Numerals of ABNF texts

Numeric values such as `%x41-5A` and `%d13.10`, and the bounds of repetitions such as `1*8`.
-/

namespace PegTree.Abnf

inductive NumVal where
  | codes (values : List Nat)
  | range (low high : Nat)
deriving DecidableEq

/-- The number at the start of `t`, which must be below `limit`, and what follows it. -/
def readNumber (base limit : Nat) (missing : DecodeCause) (t : Text) : Except DecodeError (Nat × Text) :=
  let (digits, rest) := splitDigits base t
  if digits.isEmpty then .error ⟨t, missing⟩
  else if limit ≤ numeralValue base digits then .error ⟨t, .size⟩
  else .ok (numeralValue base digits, rest)

def readCode (base : Nat) (t : Text) : Except DecodeError (Nat × Text) :=
  readNumber base 0x100000000 .digits t

def readCount (t : Text) : Except DecodeError (Nat × Text) := readNumber 10 0x10000000000000000 .count t

def readBase : Text → Except DecodeError (Nat × Text)
  | '%' :: t =>
    match t with
    | c :: rest =>
      if c = 'b' ∨ c = 'B' then .ok (2, rest)
      else if c = 'd' ∨ c = 'D' then .ok (10, rest)
      else if c = 'x' ∨ c = 'X' then .ok (16, rest)
      else .error ⟨t, .mark⟩
    | [] => .error ⟨t, .mark⟩
  | t => .error ⟨t, .mark⟩

def readDotted (base : Nat) : Nat → Text → List Nat × Text
  | fuel + 1, '.' :: t =>
    match readCode base t with
    | .ok (n, rest) => let (more, rest) := readDotted base fuel rest; (n :: more, rest)
    | .error _ => ([], '.' :: t)
  | _, t => ([], t)

def readNumVal (t : Text) : Except DecodeError (NumVal × Text) := do
  let (base, t) ← readBase t
  let (first, t) ← readCode base t
  let (more, rest) := readDotted base t.length t
  match t with
  | '-' :: high =>
    match readCode base high with
    | .ok (last, rest) => return (.range first last, rest)
    | .error _ => return (.codes [first], t)
  | _ => return (.codes (first :: more), rest)

def whole {α : Type} (r : Except DecodeError (α × Text)) : Except DecodeError α := do
  let (value, rest) ← r
  if rest.isEmpty then return value else throw ⟨rest, .stop⟩

def decodeNumVal (t : Text) : Except DecodeError NumVal := whole (readNumVal t)

def readCount? (t : Text) : Option Nat × Text :=
  match readCount t with
  | .ok (n, rest) => (some n, rest)
  | .error _ => (none, t)

/-- The bounds of a repetition: two counts around a star, either may be missing, or one count. -/
def readBounds (t : Text) : Except DecodeError ((Nat × Option Nat) × Text) :=
  match readCount? t with
  | (low, '*' :: rest) => let (high, rest) := readCount? rest; .ok ((low.getD 0, high), rest)
  | _ => (readCount t).map fun (n, rest) => ((n, some n), rest)

def decodeBounds (t : Text) : Except Error (Nat × Option Nat) := do
  let (low, high) ← (whole (readBounds t)).mapError Error.decode
  if high.any (· < low) then throw (.invalidValue (.emptyBounds t)) else return (low, high)

end PegTree.Abnf
