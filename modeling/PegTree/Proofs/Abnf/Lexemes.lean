import PegTree.Abnf.Compile
import PegTree.Proofs.Abnf.Syntax

/-!
# Lexemes of numbers

The digits of a numeral are taken up to the first character that is none, and their value is the value of
the numeral. So a numeric value or bounds are read as they were meant, unless a number in them is too large:
then something is left over, and that is an error.
-/

namespace PegTree

section
variable {f : Char → Bool} {u y : Text} (hu : ∀ c ∈ u, f c = true) (hy : ∀ c ∈ y.head?, f c = false)
include hu hy

theorem takeWhile_run : (u ++ y).takeWhile f = u := by
  rw [List.takeWhile_append_of_pos hu]
  cases y with
  | nil => simp
  | cons c y => simp [hy c rfl]

theorem dropWhile_run : (u ++ y).dropWhile f = y := by
  rw [List.dropWhile_append_of_pos hu]
  cases y with
  | nil => simp
  | cons c y => simp [hy c rfl]

end

theorem isDigitOf_iff {b : Nat} (hb : b ≤ 16) (c : Char) : isDigitOf b c = true ↔
    (48 ≤ c.toNat ∧ c.toNat ≤ 57 ∧ c.toNat < 48 + b) ∨ (97 ≤ c.toNat ∧ c.toNat ≤ 102 ∧ c.toNat < 87 + b) ∨
      (65 ≤ c.toNat ∧ c.toNat ≤ 70 ∧ c.toNat < 55 + b) := by
  simp [isDigitOf, digitValue]
  grind

namespace Abnf

/-! ## Lexemes -/

namespace Base

def sign (b : Base) (capital : Bool) : Char :=
  match b, capital with
  | b, false => b.letter
  | binary, true => 'B'
  | decimal, true => 'D'
  | hexadecimal, true => 'X'

theorem radix_le (b : Base) : b.radix ≤ 16 := by cases b <;> decide

end Base

/-- Whether the value of a numeral fits where codes are kept. -/
def Numeral.isCode {base : Nat} (n : Numeral base) : Bool := decide (n.value < 0x100000000)

/-- Numerals with dots between them, or one up to another. -/
inductive Numerals (base : Nat) where
  | row (first : Numeral base) (more : List (Numeral base))
  | span (low high : Numeral base)

namespace Numerals

variable {base : Nat}

def dots (more : List (Numeral base)) : Text := more.flatMap ('.' :: ·.digits)

def written : Numerals base → Text
  | row first more => first.digits ++ dots more
  | span low high => low.digits ++ '-' :: high.digits

def parts : Numerals base → List (Numeral base)
  | row first more => first :: more
  | span low high => [low, high]

def value : Numerals base → NumVal
  | row first more => .codes (first.value :: more.map (·.value))
  | span low high => .range low.value high.value

end Numerals

/-- A numeric value as it is written, whatever the numbers in it are. -/
structure ValueLexeme where
  base : Base
  capital : Bool
  numerals : Numerals base.radix

namespace ValueLexeme

def written (l : ValueLexeme) : Text := '%' :: l.base.sign l.capital :: l.numerals.written

def value (l : ValueLexeme) : NumVal := l.numerals.value

def Small (l : ValueLexeme) : Prop := ∀ n ∈ l.numerals.parts, n.value < 2 ^ 32

instance (l : ValueLexeme) : Decidable l.Small :=
  inferInstanceAs (Decidable (∀ n ∈ l.numerals.parts, n.value < 2 ^ 32))

end ValueLexeme

/-- Bounds as they are written, whatever the numbers in them are. -/
inductive BoundsLexeme where
  | exactly (n : Numeral 10)
  | within (low high : Option (Numeral 10))

namespace BoundsLexeme

def digitsOf (n : Option (Numeral 10)) : Text := (n.map (·.digits)).getD []

def written : BoundsLexeme → Text
  | exactly n => n.digits
  | within low high => digitsOf low ++ '*' :: digitsOf high

def parts : BoundsLexeme → List (Numeral 10)
  | exactly n => [n]
  | within low high => low.toList ++ high.toList

def low : BoundsLexeme → Nat
  | exactly n => n.value
  | within low _ => (low.map (·.value)).getD 0

def high : BoundsLexeme → Option Nat
  | exactly n => some n.value
  | within _ high => high.map (·.value)

def Small (l : BoundsLexeme) : Prop := ∀ n ∈ l.parts, n.value < 2 ^ 64

instance (l : BoundsLexeme) : Decidable l.Small := inferInstanceAs (Decidable (∀ n ∈ l.parts, n.value < 2 ^ 64))

end BoundsLexeme

/-! ## Numerals -/

section
variable {base limit : Nat} {missing : DecodeCause} {y : Text}

theorem readNumber_append (n : Numeral base) (hy : ∀ c ∈ y.head?, isDigitOf base c = false) :
    readNumber base limit missing (n.digits ++ y) =
      if limit ≤ n.value then .error ⟨n.digits ++ y, .size⟩ else .ok (n.value, y) := by
  have hs : splitDigits base (n.digits ++ y) = (n.digits, y) := by
    unfold splitDigits
    rw [List.span_eq_takeWhile_dropWhile, takeWhile_run n.isDigit hy, dropWhile_run n.isDigit hy]
  have he : n.digits.isEmpty = false := by simp [n.nonempty]
  unfold readNumber
  simp only [hs, he, Bool.false_eq_true, if_false]
  rfl

theorem readNumber_missing (hy : ∀ c ∈ y.head?, isDigitOf base c = false) :
    readNumber base limit missing y = .error ⟨y, missing⟩ := by
  have hs : splitDigits base y = ([], y) := by
    unfold splitDigits
    rw [List.span_eq_takeWhile_dropWhile]
    have ht := takeWhile_run (u := []) (by simp) hy
    have hd := dropWhile_run (u := []) (by simp) hy
    rw [List.nil_append] at ht hd
    rw [ht, hd]
  unfold readNumber
  simp [hs]

theorem readNumber_eq_ok {t : Text} {k : Nat} (h : readNumber base limit missing t = .ok (k, y)) :
    ∃ n : Numeral base, t = n.digits ++ y ∧ n.value = k ∧ n.value < limit := by
  unfold readNumber splitDigits at h
  rw [List.span_eq_takeWhile_dropWhile] at h
  dsimp only at h
  split at h
  · cases h
  · rename_i he
    split at h
    · cases h
    · rename_i hl
      cases h
      refine ⟨⟨t.takeWhile (isDigitOf base), by simpa using he, fun c hc => List.mem_takeWhile_imp hc⟩, ?_, rfl,
        Nat.not_le.1 hl⟩
      exact List.takeWhile_append_dropWhile.symm

/-! ## Numeric values -/

theorem isCode_iff {n : Numeral base} : n.isCode = true ↔ n.value < 2 ^ 32 := by
  simp [Numeral.isCode]

theorem readCode_append (n : Numeral base) (hy : ∀ c ∈ y.head?, isDigitOf base c = false) :
    readCode base (n.digits ++ y) =
      if n.isCode = true then .ok (n.value, y) else .error ⟨n.digits ++ y, .size⟩ := by
  unfold readCode
  rw [readNumber_append n hy]
  by_cases hn : n.isCode = true
  · have hlt : ¬ 0x100000000 ≤ n.value := Nat.not_le.2 (isCode_iff.1 hn)
    rw [if_pos hn, if_neg hlt]
  · have hle : 0x100000000 ≤ n.value := Nat.not_lt.1 fun h => hn (isCode_iff.2 h)
    rw [if_neg hn, if_pos hle]

theorem dot_not_digit (h : base ≤ 16) : ∀ c ∈ ['.', '-'], isDigitOf base c = false := by
  intro c hc
  have hv : digitValue c = 16 := by
    rcases List.mem_pair.1 hc with rfl | rfl <;> decide
  simp [isDigitOf, hv, h]

theorem Numerals.dots_cons (c : Numeral base) (more : List (Numeral base)) :
    dots (c :: more) = '.' :: (c.digits ++ dots more) := rfl

theorem Numerals.dots_before (h : base ≤ 16) (more : List (Numeral base))
    (hy : ∀ c ∈ y.head?, isDigitOf base c = false) : ∀ c ∈ (dots more ++ y).head?, isDigitOf base c = false := by
  cases more with
  | nil => exact hy
  | cons d more =>
    intro c hc
    cases hc
    exact dot_not_digit h _ (by simp)

theorem Numerals.dots_head (h : base ≤ 16) (more : List (Numeral base)) :
    ∀ c ∈ (dots more).head?, isDigitOf base c = false := by
  have hd := dots_before (y := []) h more (by simp)
  rwa [List.append_nil] at hd

theorem Numerals.length_dots (more : List (Numeral base)) : more.length ≤ (dots more).length := by
  unfold dots
  induction more with
  | nil => simp
  | cons c more ih =>
    simp only [List.flatMap_cons, List.length_append, List.length_cons]
    omega

/-- Of numerals after dots those are read that come before the first one that is too large. -/
theorem readDotted_dots (h : base ≤ 16) (more : List (Numeral base)) (fuel : Nat) (hf : more.length ≤ fuel) :
    readDotted base fuel (Numerals.dots more) =
      ((more.takeWhile (·.isCode)).map (·.value), Numerals.dots (more.dropWhile (·.isCode))) := by
  induction more generalizing fuel with
  | nil => cases fuel <;> rfl
  | cons c more ih =>
    obtain ⟨fuel, rfl⟩ := Nat.exists_eq_succ_of_ne_zero (Nat.ne_of_gt (Nat.lt_of_lt_of_le (Nat.succ_pos _) hf))
    have hr := readCode_append c (Numerals.dots_head h more)
    rw [Numerals.dots_cons]
    unfold readDotted
    cases hc : c.isCode with
    | true =>
      rw [if_pos hc] at hr
      simp only [hr, ih fuel (Nat.le_of_succ_le_succ hf), List.takeWhile_cons, List.dropWhile_cons, hc, if_true,
        List.map_cons]
    | false =>
      rw [if_neg (by simp [hc])] at hr
      simp only [hr, List.takeWhile_cons, List.dropWhile_cons, hc, Bool.false_eq_true, if_false, List.map_nil,
        Numerals.dots_cons]

theorem readDotted_eq {fuel : Nat} {t : Text} {ks : List Nat} (h : readDotted base fuel t = (ks, y)) :
    ∃ more : List (Numeral base), t = Numerals.dots more ++ y ∧ more.map (·.value) = ks ∧
      ∀ n ∈ more, n.value < 2 ^ 32 := by
  induction fuel generalizing t ks y with
  | zero =>
    cases t <;> cases h <;> exact ⟨[], rfl, rfl, List.forall_mem_nil _⟩
  | succ fuel ih =>
    unfold readDotted at h
    split at h
    · rename_i hfuel
      cases hfuel
      split at h
      · rename_i n rest hr
        obtain ⟨c, rfl, rfl, hc⟩ := readNumber_eq_ok hr
        obtain ⟨more, hrest, hvalues, hsmall⟩ := ih (Prod.eta (readDotted base fuel rest)).symm
        cases h
        refine ⟨c :: more, ?_, congrArg (_ :: ·) hvalues, List.forall_mem_cons.2 ⟨hc, hsmall⟩⟩
        rw [Numerals.dots_cons, List.cons_append, List.append_assoc, ← hrest]
      · cases h
        exact ⟨[], rfl, rfl, List.forall_mem_nil _⟩
    · cases h
      exact ⟨[], rfl, rfl, List.forall_mem_nil _⟩

end

theorem readBase_sign (b : Base) (capital : Bool) (t : Text) :
    readBase ('%' :: b.sign capital :: t) = .ok (b.radix, t) := by
  cases b <;> cases capital <;> rfl

theorem readBase_eq_ok {t u : Text} {k : Nat} (h : readBase t = .ok (k, u)) :
    ∃ (b : Base) (capital : Bool), t = '%' :: b.sign capital :: u ∧ k = b.radix := by
  unfold readBase at h
  split at h
  · split at h
    · rename_i c rest
      split_ifs at h with hb hd hx
      · cases h
        rcases hb with rfl | rfl
        · exact ⟨.binary, false, rfl, rfl⟩
        · exact ⟨.binary, true, rfl, rfl⟩
      · cases h
        rcases hd with rfl | rfl
        · exact ⟨.decimal, false, rfl, rfl⟩
        · exact ⟨.decimal, true, rfl, rfl⟩
      · cases h
        rcases hx with rfl | rfl
        · exact ⟨.hexadecimal, false, rfl, rfl⟩
        · exact ⟨.hexadecimal, true, rfl, rfl⟩
    · cases h
  · cases h

theorem whole_eq_ok {α : Type} {r : Except DecodeError (α × Text)} {a : α} :
    whole r = .ok a ↔ r = .ok (a, []) := by
  unfold whole
  cases r with
  | error e => simp [bind, Except.bind]
  | ok x =>
    obtain ⟨b, rest⟩ := x
    cases rest <;> simp [bind, Except.bind, pure, Except.pure, throw, throwThe, MonadExceptOf.throw]

/-! What is read at the start of a written value. -/

theorem readNumVal_row (b : Base) (capital : Bool) (first : Numeral b.radix) (more : List (Numeral b.radix)) :
    readNumVal (ValueLexeme.written ⟨b, capital, .row first more⟩) =
      if first.isCode = true then
        .ok (.codes (first.value :: (more.takeWhile (·.isCode)).map (·.value)),
          Numerals.dots (more.dropWhile (·.isCode)))
      else .error ⟨first.digits ++ Numerals.dots more, .size⟩ := by
  have hfirst := readCode_append first (Numerals.dots_head b.radix_le more)
  have hmore := readDotted_dots b.radix_le more _ (Numerals.length_dots more)
  unfold readNumVal ValueLexeme.written
  simp only [readBase_sign, bind, Except.bind, Numerals.written, hfirst]
  cases hc : first.isCode with
  | true =>
    simp only [if_true, hmore]
    cases more <;> rfl
  | false => rfl

theorem readNumVal_span (b : Base) (capital : Bool) (low high : Numeral b.radix) :
    readNumVal (ValueLexeme.written ⟨b, capital, .span low high⟩) =
      if low.isCode = true then
        if high.isCode = true then .ok (.range low.value high.value, [])
        else .ok (.codes [low.value], '-' :: high.digits)
      else .error ⟨low.digits ++ '-' :: high.digits, .size⟩ := by
  have hlow : readCode b.radix (low.digits ++ '-' :: high.digits) = _ := readCode_append low fun c hc => by
    cases hc
    exact dot_not_digit b.radix_le _ (by simp)
  have hhigh := readCode_append high (y := []) (by simp)
  rw [List.append_nil] at hhigh
  unfold readNumVal ValueLexeme.written
  simp only [readBase_sign, bind, Except.bind, Numerals.written, hlow]
  cases hl : low.isCode with
  | true =>
    simp only [if_true, hhigh]
    cases hh : high.isCode <;> rfl
  | false => rfl

section
variable {l : ValueLexeme}

theorem decodeNumVal_written (h : l.Small) : decodeNumVal l.written = .ok l.value := by
  refine whole_eq_ok.2 ?_
  obtain ⟨b, capital, ⟨first, more⟩ | ⟨low, high⟩⟩ := l
  · obtain ⟨hfirst, hmore⟩ := List.forall_mem_cons.1 h
    have hall : ∀ n ∈ more, n.isCode = true := fun n hn => isCode_iff.2 (hmore n hn)
    rw [readNumVal_row, List.takeWhile_eq_self_iff.2 hall, List.dropWhile_eq_nil_iff.2 hall,
      if_pos (isCode_iff.2 hfirst)]
    rfl
  · obtain ⟨hlow, hhigh⟩ := List.forall_mem_cons.1 h
    have hhigh : high.value < 2 ^ 32 := hhigh high (List.mem_singleton.2 rfl)
    rw [readNumVal_span, if_pos (isCode_iff.2 hlow), if_pos (isCode_iff.2 hhigh)]
    rfl

/-- A number that is too large is left over, or it is the first and cannot be read. -/
theorem decodeNumVal_large (h : ¬ l.Small) : ∃ e, decodeNumVal l.written = .error e := by
  cases hd : decodeNumVal l.written with
  | error e => exact ⟨e, rfl⟩
  | ok v =>
    refine absurd ?_ h
    have hr := whole_eq_ok.1 hd
    obtain ⟨b, capital, ⟨first, more⟩ | ⟨low, high⟩⟩ := l
    · rw [readNumVal_row] at hr
      split at hr
      · rename_i hfirst
        -- the numerals from the first one on that is too large would be left over
        have hrest : Numerals.dots (more.dropWhile (·.isCode)) = [] := congrArg Prod.snd (Except.ok.inj hr)
        have hmore : more.dropWhile (·.isCode) = [] := by
          cases hw : more.dropWhile (·.isCode) with
          | nil => rfl
          | cons c cs =>
            rw [hw] at hrest
            cases hrest
        exact List.forall_mem_cons.2 ⟨isCode_iff.1 hfirst, fun n hn =>
          isCode_iff.1 (List.dropWhile_eq_nil_iff.1 hmore n hn)⟩
      · cases hr
    · rw [readNumVal_span] at hr
      split_ifs at hr with hlow hhigh
      · exact List.forall_mem_cons.2 ⟨isCode_iff.1 hlow, List.forall_mem_singleton.2 (isCode_iff.1 hhigh)⟩
      · cases hr

end

theorem decodeNumVal_eq_ok {t : Text} {v : NumVal} (h : decodeNumVal t = .ok v) :
    ∃ l : ValueLexeme, l.written = t ∧ l.Small := by
  have hr := whole_eq_ok.1 h
  unfold readNumVal at hr
  simp only [bind, Except.bind] at hr
  split at hr
  · cases hr
  · rename_i x hx
    obtain ⟨k, u⟩ := x
    obtain ⟨b, capital, rfl, rfl⟩ := readBase_eq_ok hx
    dsimp only at hr
    split at hr
    · cases hr
    · rename_i y hy
      obtain ⟨j, w⟩ := y
      obtain ⟨first, rfl, rfl, hfirst⟩ := readNumber_eq_ok hy
      dsimp only at hr
      split at hr
      · rename_i high
        split at hr
        · rename_i z hz
          cases hr
          obtain ⟨last, rfl, rfl, hlast⟩ := readNumber_eq_ok hz
          refine ⟨⟨b, capital, .span first last⟩, ?_, ?_⟩
          · simp [ValueLexeme.written, Numerals.written]
          · exact List.forall_mem_cons.2 ⟨hfirst, List.forall_mem_singleton.2 hlast⟩
        · cases hr
      · have hrest : (readDotted b.radix w.length w).2 = [] := congrArg Prod.snd (Except.ok.inj hr)
        obtain ⟨more, hw, _, hmore⟩ := readDotted_eq (Prod.eta (readDotted b.radix w.length w)).symm
        refine ⟨⟨b, capital, .row first more⟩, ?_, List.forall_mem_cons.2 ⟨hfirst, hmore⟩⟩
        rw [hrest, List.append_nil] at hw
        rw [hw]
        rfl

/-! ## Bounds -/

section
variable {y : Text} (hy : ∀ c ∈ y.head?, isDigitOf 10 c = false)
include hy

theorem readCount_append (n : Numeral 10) : readCount (n.digits ++ y) =
    if 2 ^ 64 ≤ n.value then .error ⟨n.digits ++ y, .size⟩ else .ok (n.value, y) :=
  readNumber_append n hy

theorem readCount?_digitsOf {n : Option (Numeral 10)} (hn : ∀ m ∈ n, m.value < 2 ^ 64) :
    readCount? (BoundsLexeme.digitsOf n ++ y) = (n.map (·.value), y) := by
  unfold readCount?
  cases n with
  | some n =>
    rw [show BoundsLexeme.digitsOf (some n) = n.digits from rfl, readCount_append hy,
      if_neg (Nat.not_le.2 (hn n rfl))]
    rfl
  | none =>
    unfold readCount
    rw [show BoundsLexeme.digitsOf none ++ y = y from rfl, readNumber_missing hy]
    rfl

theorem readCount?_large {n : Numeral 10} (hn : 2 ^ 64 ≤ n.value) :
    readCount? (n.digits ++ y) = (none, n.digits ++ y) := by
  unfold readCount?
  rw [readCount_append hy, if_pos hn]

theorem readBounds_large {n : Numeral 10} (hn : 2 ^ 64 ≤ n.value) :
    readBounds (n.digits ++ y) = .error ⟨n.digits ++ y, .size⟩ := by
  have hstar : ∀ rest, n.digits ++ y ≠ '*' :: rest := by
    intro rest he
    obtain ⟨c, cs, hc⟩ := List.exists_cons_of_ne_nil n.nonempty
    rw [hc] at he
    cases he
    exact absurd (n.isDigit '*' (by simp [hc])) (by decide)
  unfold readBounds
  rw [readCount?_large hy hn]
  split
  · rename_i he
    exact absurd (congrArg Prod.snd he) (hstar _)
  · rw [readCount_append hy, if_pos hn]
    rfl

end

theorem readCount?_eq {t y : Text} {k : Option Nat} (h : readCount? t = (k, y)) : k = none ∧ y = t ∨
    ∃ n : Numeral 10, t = n.digits ++ y ∧ k = some n.value ∧ n.value < 2 ^ 64 := by
  unfold readCount? at h
  split at h
  · rename_i m rest hr
    cases h
    obtain ⟨n, hn, rfl, hlt⟩ := readNumber_eq_ok hr
    exact .inr ⟨n, hn, rfl, hlt⟩
  · cases h
    exact .inl ⟨rfl, rfl⟩

section
variable {l : BoundsLexeme}

theorem BoundsLexeme.star_not_digit (high : Option (Numeral 10)) :
    ∀ c ∈ ('*' :: digitsOf high).head?, isDigitOf 10 c = false := by
  intro c hc
  cases hc
  decide

theorem readBounds_written (h : l.Small) : readBounds l.written = .ok ((l.low, l.high), []) := by
  cases l with
  | exactly n =>
    have hn : n.value < 2 ^ 64 := h n (List.mem_singleton.2 rfl)
    have hcount := readCount_append (y := []) (by simp) n
    have hcount? := readCount?_digitsOf (y := []) (by simp) (n := some n) (by simpa using hn)
    rw [if_neg (Nat.not_le.2 hn), List.append_nil] at hcount
    rw [List.append_nil] at hcount?
    unfold readBounds
    rw [show BoundsLexeme.written (.exactly n) = n.digits from rfl, hcount]
    rw [show BoundsLexeme.digitsOf (some n) = n.digits from rfl] at hcount?
    rw [hcount?]
    rfl
  | within low high =>
    have hlow := readCount?_digitsOf (BoundsLexeme.star_not_digit high) (n := low) fun m hm =>
      h m (List.mem_append_left _ (Option.mem_toList.2 hm))
    have hhigh := readCount?_digitsOf (y := []) (by simp) (n := high) fun m hm =>
      h m (List.mem_append_right _ (Option.mem_toList.2 hm))
    rw [List.append_nil] at hhigh
    unfold readBounds BoundsLexeme.written
    simp only [hlow, hhigh]
    rfl

theorem decodeBounds_written (h : l.Small) : decodeBounds l.written =
    if l.high.any (· < l.low) then .error (.invalidValue (.emptyBounds l.written)) else .ok (l.low, l.high) := by
  unfold decodeBounds
  rw [whole_eq_ok.2 (readBounds_written h)]
  rfl

/-- A number that is too large cannot be read, or it is left over. -/
theorem decodeBounds_large (h : ¬ l.Small) : ∃ e, decodeBounds l.written = .error (.decode e) := by
  have hread : ∀ b, readBounds l.written ≠ .ok (b, []) := by
    intro b hb
    refine h fun n hn => Nat.not_le.1 fun hlarge => ?_
    cases l with
    | exactly m =>
      cases List.mem_singleton.1 hn
      have hr := readBounds_large (y := []) (by simp) hlarge
      rw [List.append_nil] at hr
      cases hr.symm.trans hb
    | within low high =>
      by_cases hlow : ∀ m ∈ low, m.value < 2 ^ 64
      · have hmem : n ∈ high := by
          rcases List.mem_append.1 hn with hm | hm
          · exact absurd hlarge (Nat.not_le.2 (hlow n (Option.mem_toList.1 hm)))
          · exact Option.mem_toList.1 hm
        cases hmem
        -- the upper number counts as missing, so its digits are left over
        have hfirst := readCount?_digitsOf (BoundsLexeme.star_not_digit (some n)) hlow
        have hsecond := readCount?_large (y := []) (by simp) hlarge
        rw [List.append_nil] at hsecond
        unfold readBounds BoundsLexeme.written at hb
        rw [hfirst] at hb
        simp only [show BoundsLexeme.digitsOf (some n) = n.digits from rfl, hsecond] at hb
        exact n.nonempty (congrArg Prod.snd (Except.ok.inj hb))
      · -- the lower number counts as missing, but no star stands at its digits
        obtain ⟨m, hm, hml⟩ : ∃ m ∈ low, ¬ m.value < 2 ^ 64 := by simpa using hlow
        cases hm
        have hr := readBounds_large (BoundsLexeme.star_not_digit high) (Nat.not_lt.1 hml)
        cases hr.symm.trans hb
  unfold decodeBounds
  cases hw : whole (readBounds l.written) with
  | error e => exact ⟨e, rfl⟩
  | ok b => exact absurd (whole_eq_ok.1 hw) (hread b)

end

theorem decodeBounds_eq_ok {t : Text} {b : Nat × Option Nat} (h : decodeBounds t = .ok b) :
    ∃ l : BoundsLexeme, l.written = t ∧ l.Small := by
  have hr : ∃ b', readBounds t = .ok (b', []) := by
    unfold decodeBounds at h
    cases hw : whole (readBounds t) with
    | error e =>
      rw [hw] at h
      cases h
    | ok b' => exact ⟨b', whole_eq_ok.1 hw⟩
  obtain ⟨b', hr⟩ := hr
  unfold readBounds at hr
  split at hr
  · rename_i low rest hlow
    cases hhigh : readCount? rest with
    | mk high rest' =>
      rw [hhigh] at hr
      cases hr
      rcases readCount?_eq hlow with ⟨rfl, ht⟩ | ⟨n, ht, rfl, hn⟩ <;>
        rcases readCount?_eq hhigh with ⟨rfl, hrest⟩ | ⟨m, hrest, rfl, hm⟩
      · exact ⟨.within none none, by rw [← ht, ← hrest]; rfl, List.forall_mem_nil _⟩
      · exact ⟨.within none (some m), by rw [← ht, hrest, List.append_nil]; rfl, List.forall_mem_singleton.2 hm⟩
      · exact ⟨.within (some n) none, by rw [ht, ← hrest]; rfl, List.forall_mem_singleton.2 hn⟩
      · refine ⟨.within (some n) (some m), by rw [ht, hrest, List.append_nil]; rfl, ?_⟩
        exact List.forall_mem_cons.2 ⟨hn, List.forall_mem_singleton.2 hm⟩
  · cases hcount : readCount t with
    | error e =>
      rw [hcount] at hr
      cases hr
    | ok x =>
      obtain ⟨k, rest⟩ := x
      rw [hcount] at hr
      cases hr
      obtain ⟨n, rfl, _, hn⟩ := readNumber_eq_ok hcount
      exact ⟨.exactly n, (List.append_nil _).symm, List.forall_mem_singleton.2 hn⟩

end Abnf

end PegTree
