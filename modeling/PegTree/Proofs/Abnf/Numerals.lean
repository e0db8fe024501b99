import PegTree.Proofs.Abnf.Operator

/-!
# The decoders and the grammar

The rules for numeric values and for bounds match a whole text exactly if it is a lexeme, and the decoders take
exactly the lexemes in which no number is too large. So both read the same language, though the decoders try
things in another order and let a number that is too large pass as one that is missing.
-/

namespace PegTree

open Eval

def Grammar.Consumes (g : Grammar) (name : String) (t : Text) : Prop :=
  ∃ n, (g.evaluate name t {}).1 = .ok n ∧ n.stop = some (byteSize t)

/-! ## Letters of either case -/

theorem Shift.source?_of_image? {s : Shift} {code image : Nat} (h : s.image? code = some image) (hi : 0 < image) :
    s.source? image = some code := by
  unfold image? at h
  split at h
  · rename_i hc
    have hs : (image - s.distance).toNat = code := by
      have := Option.some.inj h
      omega
    unfold source?
    simp only [hs, hc, if_true]
  · cases h

namespace Abnf

namespace Base

/-- No character but a letter and its capital has the letter for its lower case. -/
theorem sign_of_caseless (b : Base) {c : Char} (h : sameCaseless b.letter c = true) :
    ∃ capital, c = b.sign capital := by
  have hl : lowerCase c = [b.letter] := by
    have hb : lowerCase b.letter = [b.letter] := by cases b <;> rfl
    rw [← hb]
    exact (beq_iff_eq.1 h).symm
  unfold lowerCase at hl
  split_ifs at hl with hascii hdot
  · have hall : ∀ k < 128, (Char.ofNat k).toLower = b.letter →
        Char.ofNat k = b.sign false ∨ Char.ofNat k = b.sign true := by
      cases b <;> decide
    rw [← Char.ofNat_toNat c] at hl ⊢
    rcases hall _ hascii (List.singleton_inj.1 hl) with hc | hc
    · exact ⟨_, hc⟩
    · exact ⟨_, hc⟩
  · cases b <;> cases hl
  · -- only the ascii capital is moved to the letter
    have hmoved : ∀ s ∈ lowerShifts, ∀ k ∈ s.source? b.letter.toNat, k < 128 := by cases b <;> decide +kernel
    have hl := List.singleton_inj.1 hl
    cases hf : lowerShifts.findSome? (·.image? c.toNat) with
    | none =>
      rw [hf] at hl
      exact ⟨false, hl⟩
    | some k =>
      rw [hf] at hl
      have hk : k = b.letter.toNat := by
        have hl : Char.ofNat k = b.letter := hl
        by_cases hv : k.isValidChar
        · rw [← hl, toNat_ofNat hv]
        · rw [Char.ofNat, dif_neg hv] at hl
          cases b <;> cases hl
      obtain ⟨s, hs, hi⟩ := List.exists_of_findSome?_eq_some hf
      have hsource := Shift.source?_of_image? hi (by cases b <;> simp [hk] <;> decide)
      exact absurd (hmoved s hs _ (hk ▸ hsource)) hascii

theorem leading_sign (b : Base) {u y : Text} (h : firstLeading? [.text b.mark.toList] false y = some u) :
    ∃ capital, u = [b.sign capital] := by
  have hm : b.mark.toList = [b.letter] := by cases b <;> rfl
  have hs : leading? sameCaseless [b.letter] y = some u := by
    rw [hm, firstLeading?_single] at h
    exact h
  cases y with
  | nil => cases hs
  | cons c y =>
    unfold leading? at hs
    split at hs
    · rename_i hc
      obtain ⟨capital, rfl⟩ := b.sign_of_caseless hc
      exact ⟨capital, (Option.some.inj hs).symm⟩
    · cases hs

end Base

/-! ## What the rules match -/

section
variable {t : Text} {p q : Nat} {ns : List Node}

theorem span_sign {b : Base} (h : (reading t).Matches ((lit b.mark).withCase false) p q ns) :
    ∃ capital, (reading t).input.Span p q [b.sign capital] := by
  have hx := Input.suffix?_of_isBoundary h.1
  obtain ⟨u, hu, rfl, _⟩ := (Reading.matches_literal hx).1 h
  obtain ⟨rest, hrest⟩ := firstLeading?_append hu
  obtain ⟨capital, rfl⟩ := b.leading_sign hu
  exact ⟨capital, .of_rest h.1 hrest⟩

theorem span_digit {b : Base} (h : (reading t).Matches b.digit p q ns) :
    ∃ c, isDigitOf b.radix c = true ∧ (reading t).input.Span p q [c] := by
  cases b with
  | binary =>
    have hbit : (reading t).Matches (.texts ["0".toList, "1".toList]) p q ns := h
    obtain ⟨u, hu, hspan⟩ := span_texts (List.cons_ne_nil _ _) hbit
    have hu : u = ['0'] ∨ u = ['1'] := by simpa using hu
    rcases hu with rfl | rfl
    · exact ⟨'0', by decide, hspan⟩
    · exact ⟨'1', by decide, hspan⟩
  | decimal =>
    obtain ⟨c, hc, hspan⟩ := span_found (f := decimal) rfl h
    exact ⟨c, (decimal_contains c).symm.trans hc, hspan⟩
  | hexadecimal =>
    obtain ⟨c, hc, hspan⟩ := span_found (f := hexadecimal) rfl h
    exact ⟨c, (hexadecimal_contains c).symm.trans hc, hspan⟩

theorem span_digits {b : Base} (h : (reading t).Matches b.digit.many1 p q ns) :
    ∃ n : Numeral b.radix, (reading t).input.Span p q n.digits := by
  obtain ⟨k, hrep, hk⟩ := Reading.matches_repetition.1 h
  cases hrep with
  | refused _ => exact absurd hk.1 (by decide)
  | still hm =>
    obtain ⟨c, hc, hspan⟩ := span_digit hm
    exact ⟨⟨[c], List.cons_ne_nil _ _, List.forall_mem_singleton.2 hc⟩, hspan⟩
  | cons hm _ hrest =>
    obtain ⟨c, hc, hspan⟩ := span_digit hm
    have hone : ∀ {p q : Nat} {ns : List Node}, (reading t).Matches b.digit p q ns →
        ∃ u, (reading t).input.Span p q u ∧ ∀ c ∈ u, isDigitOf b.radix c = true := by
      intro p q ns hm
      obtain ⟨d, hd, hspan⟩ := span_digit hm
      exact ⟨[d], hspan, List.forall_mem_singleton.2 hd⟩
    obtain ⟨u, hu, hall⟩ :=
      hrest.span_of (L := fun u => ∀ c ∈ u, isDigitOf b.radix c = true) (List.forall_mem_nil _)
      (fun hu hv => List.forall_mem_append.2 ⟨hu, hv⟩) hone hm.boundary
    exact ⟨⟨c :: u, List.cons_ne_nil _ _, List.forall_mem_cons.2 ⟨hc, hall⟩⟩, hspan.append hu⟩

theorem span_lit {s : String} {c : Char} (hs : s.toList = [c]) (h : (reading t).Matches (lit s) p q ns) :
    (reading t).input.Span p q [c] := by
  have ht : (reading t).Matches (.texts [s.toList]) p q ns := h
  obtain ⟨u, hu, hspan⟩ := span_texts (List.cons_ne_nil _ _) ht
  rw [hs] at hu
  rwa [List.mem_singleton.1 hu] at hspan

theorem span_after {b : Base} {s : String} {c : Char} (hs : s.toList = [c])
    (h : (reading t).Matches (row [lit s, b.digit.many1]) p q ns) :
    ∃ n : Numeral b.radix, (reading t).input.Span p q (c :: n.digits) := by
  obtain ⟨_, _, _, hmark, ⟨_, _, _, hdigits, ⟨_, rfl, _⟩, _⟩, _⟩ := Reading.matches_sequence.1 h
  obtain ⟨n, hn⟩ := span_digits hdigits
  exact ⟨n, (span_lit hs hmark).append hn⟩

theorem span_dots {b : Base} (h : (reading t).Matches (dotted b).many1 p q ns) :
    ∃ more : List (Numeral b.radix), (reading t).input.Span p q (Numerals.dots more) := by
  obtain ⟨k, hrep, _⟩ := Reading.matches_repetition.1 h
  have hspan : ∃ u, (reading t).input.Span p q u ∧ ∃ more : List (Numeral b.radix), u = Numerals.dots more := by
    refine hrep.span_of ⟨[], rfl⟩ (fun hu hv => ?_) (fun hm => ?_) h.1
    · obtain ⟨more, rfl⟩ := hu
      obtain ⟨more', rfl⟩ := hv
      exact ⟨more ++ more', List.flatMap_append.symm⟩
    · obtain ⟨n, hn⟩ := span_after (s := ".") (c := '.') rfl hm
      exact ⟨_, hn, [n], by simp [Numerals.dots]⟩
  obtain ⟨u, hu, more, rfl⟩ := hspan
  exact ⟨more, hu⟩

theorem span_numerals {b : Base} (h : (reading t).Matches (basedValue b.mark b.digit) p q ns) :
    ∃ (capital : Bool) (n : Numerals b.radix), (reading t).input.Span p q (b.sign capital :: n.written) := by
  obtain ⟨_, _, _, hsign, ⟨_, _, _, hdigits, ⟨_, _, _, hmaybe, ⟨_, rfl, _⟩, _⟩, _⟩, _⟩ :=
    Reading.matches_sequence.1 h
  obtain ⟨capital, hs⟩ := span_sign hsign
  obtain ⟨first, hfirst⟩ := span_digits hdigits
  have hstart := hs.append hfirst
  rcases Reading.matches_optional.1 hmaybe with hm | ⟨_, rfl, _⟩
  · have hm : (reading t).Matches (further b) _ _ _ := hm
    rcases Reading.matches_choice.1 hm with hdots | ⟨_, hdash | ⟨_, hf⟩⟩
    · obtain ⟨more, hmore⟩ := span_dots hdots
      exact ⟨capital, .row first more, hstart.append hmore⟩
    · obtain ⟨last, hlast⟩ := span_after (s := "-") (c := '-') rfl hdash
      refine ⟨capital, .span first last, ?_⟩
      simpa [Numerals.written] using hstart.append hlast
    · exact hf.elim
  · exact ⟨capital, .row first [], by simpa [Numerals.written, Numerals.dots] using hstart⟩

theorem span_value (h : (reading t).Matches (.ref "num_val") p q ns) :
    ∃ l : ValueLexeme, (reading t).input.Span p q l.written := by
  obtain ⟨inner, _, hbody, _⟩ := (matches_body rfl rfl).1 h
  obtain ⟨m, _, _, hpercent, ⟨_, _, _, hpick, ⟨_, rfl, _⟩, _⟩, _⟩ := Reading.matches_sequence.1 hbody
  have hbase : ∃ (b : Base) (ns' : _), (reading t).Matches (.ref b.ruleName) m q ns' := by
    rcases Reading.matches_choice.1 hpick with hb | ⟨_, hd | ⟨_, hx | ⟨_, hf⟩⟩⟩
    · exact ⟨.binary, _, hb⟩
    · exact ⟨.decimal, _, hd⟩
    · exact ⟨.hexadecimal, _, hx⟩
    · exact hf.elim
  obtain ⟨b, ns', hb⟩ := hbase
  obtain ⟨_, _, hvalue, _⟩ := (matches_body b.body (by cases b <;> rfl)).1 hb
  obtain ⟨capital, n, hn⟩ := span_numerals hvalue
  exact ⟨⟨b, capital, n⟩, (span_lit (s := "%") (c := '%') rfl hpercent).append hn⟩

theorem exists_digitsOf (y : Text) : ∃ n, BoundsLexeme.digitsOf n = y.takeWhile decimal.contains := by
  have hdigits : ∀ c ∈ y.takeWhile decimal.contains, isDigitOf 10 c = true := fun c hc =>
    (decimal_contains c).symm.trans (List.mem_takeWhile_imp hc)
  by_cases hne : y.takeWhile decimal.contains = []
  · exact ⟨none, hne.symm⟩
  · exact ⟨some ⟨_, hne, hdigits⟩, rfl⟩

theorem bounds_of_leading {y u : Text} (h : boundsPattern.exact.leading? y = some u) :
    ∃ l : BoundsLexeme, l.written = u := by
  have hl : boundsPattern.exact.leading? y = _ := Regex.leading?_around fun _ => not_star_of_decimal
  rw [hl] at h
  dsimp only at h
  obtain ⟨low, hlow⟩ := exists_digitsOf y
  rw [← hlow] at h
  -- without a star the run of digits must not be empty
  have hplain : (if (BoundsLexeme.digitsOf low).isEmpty = true then none else some (BoundsLexeme.digitsOf low)) =
      some u → ∃ l : BoundsLexeme, l.written = u := by
    intro h
    cases low with
    | none => cases h
    | some n =>
      split_ifs at h
      exact ⟨.exactly n, Option.some.inj h⟩
  split at h
  · rename_i c z _
    by_cases hc : (CharClass.single '*').contains c = true
    · obtain ⟨high, hhigh⟩ := exists_digitsOf z
      rw [if_pos hc, ← hhigh] at h
      cases CharClass.contains_single.1 hc
      exact ⟨.within low high, Option.some.inj h⟩
    · rw [if_neg hc] at h
      exact hplain h
  · exact hplain h

theorem span_bounds (h : (reading t).Matches (.ref "repeat") p q ns) :
    ∃ l : BoundsLexeme, (reading t).input.Span p q l.written := by
  obtain ⟨inner, _, hbody, _⟩ := (matches_body rfl rfl).1 h
  obtain ⟨u, hspan, hu⟩ := span_literal hbody
  rw [firstLeading?_pattern] at hu
  obtain ⟨l, rfl⟩ := bounds_of_leading hu
  exact ⟨l, hspan⟩

end

/-! ## Whole texts -/

theorem span_whole {t u : Text} (h : (reading t).input.Span 0 (byteSize t) u) : u = t :=
  h.unique ⟨[], [], (List.append_nil t).symm, rfl, (Nat.zero_add _).symm⟩

theorem consumes_iff {name : String} {t : Text} :
    abnf.Consumes name t ↔ ∃ ns, (reading t).Matches (.ref name) 0 (byteSize t) ns := by
  have hp := Input.isBoundary_zero (Input.ofText t)
  constructor
  · rintro ⟨n, hn, hstop⟩
    have hn : ((Expr.ref name).eval (abnf.scope (.ofText t) abnf.options 0) 0 {}).1 = .ok n := hn
    exact ⟨_, hp, n, abnf.after_derives [] [] hp hn, hstop, rfl⟩
  · rintro ⟨ns, _, n, hn, hstop, _⟩
    exact ⟨n, hn.evaluate start_sound rfl, hstop⟩

theorem consumes_of_reads {name : String} {t : Text} {P : List Node → Prop}
    (h : (reading t).Reads (.ref name) t [] P) : abnf.Consumes name t := by
  obtain ⟨ns, hm, _⟩ := h 0 (Input.suffix?_eq_some_iff.2 ⟨[], (List.append_nil t).symm, rfl⟩)
  rw [Nat.zero_add] at hm
  exact consumes_iff.2 ⟨ns, hm⟩

theorem consumes_value {t : Text} : abnf.Consumes "num_val" t ↔ ∃ l : ValueLexeme, l.written = t := by
  constructor
  · intro h
    obtain ⟨ns, hm⟩ := consumes_iff.1 h
    obtain ⟨l, hl⟩ := span_value hm
    exact ⟨l, span_whole hl⟩
  · rintro ⟨l, rfl⟩
    exact consumes_of_reads (reads_valueLexeme l fun c hc => by cases hc)

theorem consumes_bounds {t : Text} : abnf.Consumes "repeat" t ↔ ∃ l : BoundsLexeme, l.written = t := by
  constructor
  · intro h
    obtain ⟨ns, hm⟩ := consumes_iff.1 h
    obtain ⟨l, hl⟩ := span_bounds hm
    exact ⟨l, span_whole hl⟩
  · rintro ⟨l, rfl⟩
    exact consumes_of_reads (reads_boundsLexeme l fun c hc => by cases hc)

/-! ## Values of digits -/

theorem numeralValue_eq_ofDigits (base : Nat) (digits : Text) :
    numeralValue base digits = Nat.ofDigits base (digits.reverse.map digitValue) := by
  induction digits using List.reverseRecOn with
  | nil => rfl
  | append_singleton digits c ih =>
    rw [numeralValue_concat, ih, List.reverse_append, List.reverse_singleton, List.singleton_append, List.map_cons,
      Nat.ofDigits_cons]
    ring

theorem numeralValue_zeros (base k : Nat) (digits : Text) :
    numeralValue base (List.replicate k '0' ++ digits) = numeralValue base digits := by
  have hzero : digitValue '0' = 0 := rfl
  simp only [numeralValue_eq_ofDigits, List.reverse_append, List.reverse_replicate, List.map_append,
    List.map_replicate, hzero, Nat.ofDigits_append_replicate_zero]

theorem digitValue_toUpper (c : Char) : digitValue c.toUpper = digitValue c := by
  by_cases hc : c.toNat < 128
  · have hall : ∀ k < 128, digitValue (Char.ofNat k).toUpper = digitValue (Char.ofNat k) := by decide
    have h := hall _ hc
    rwa [Char.ofNat_toNat] at h
  · have hup : c.toUpper = c := by
      unfold Char.toUpper
      rw [dif_neg]
      rintro ⟨_, hz⟩
      have hz : c.toNat ≤ 122 := UInt32.le_iff_toNat_le.1 hz
      omega
    rw [hup]

theorem numeralValue_toUpper (base : Nat) (digits : Text) :
    numeralValue base (digits.map Char.toUpper) = numeralValue base digits := by
  have hcomp : digitValue ∘ Char.toUpper = digitValue := funext digitValue_toUpper
  simp only [numeralValue_eq_ofDigits, ← List.map_reverse, List.map_map, hcomp]

/-! ## Rendering -/

def Numeral.ofNat (b : Base) (n : Nat) : Numeral b.radix where
  digits := Nat.toDigits b.radix n
  nonempty := Nat.toDigits_ne_nil
  isDigit := (numeralValue_toDigits (by cases b <;> decide) b.radix_le n).2

theorem Numeral.value_ofNat (b : Base) (n : Nat) : (Numeral.ofNat b n).value = n :=
  (numeralValue_toDigits (by cases b <;> decide) b.radix_le n).1

namespace NumVal

def rendered (b : Base) (capital : Bool) : NumVal → Text
  | codes values => '%' :: b.sign capital :: ['.'].intercalate (values.map (Nat.toDigits b.radix))
  | range low high => '%' :: b.sign capital :: (Nat.toDigits b.radix low ++ '-' :: Nat.toDigits b.radix high)

/-- A value that fits where codes are kept, and of which something can be written. -/
def Small : NumVal → Prop
  | codes values => values ≠ [] ∧ ∀ n ∈ values, n < 2 ^ 32
  | range low high => low < 2 ^ 32 ∧ high < 2 ^ 32

theorem intercalate_dots (b : Base) (first : Nat) (more : List Nat) :
    ['.'].intercalate ((first :: more).map (Nat.toDigits b.radix)) =
      (Numeral.ofNat b first).digits ++ Numerals.dots (more.map (Numeral.ofNat b)) := by
  induction more generalizing first with
  | nil => simp [Numerals.dots, Numeral.ofNat]
  | cons second more ih =>
    show Nat.toDigits b.radix first ++ '.' :: ['.'].intercalate ((second :: more).map (Nat.toDigits b.radix)) = _
    rw [ih second]
    rfl

theorem exists_lexeme (b : Base) (capital : Bool) (v : NumVal) (h : v ≠ .codes []) :
    ∃ l : ValueLexeme, l.written = v.rendered b capital ∧ l.value = v ∧ (l.Small ↔ v.Small) := by
  have hvalue : ∀ n, (Numeral.ofNat b n).value = n := Numeral.value_ofNat b
  cases v with
  | codes values =>
    cases values with
    | nil => exact absurd rfl h
    | cons first more =>
      refine ⟨⟨b, capital, .row (.ofNat b first) (more.map (.ofNat b))⟩, ?_, ?_, ?_⟩
      · show '%' :: b.sign capital :: _ = '%' :: b.sign capital :: _
        rw [intercalate_dots]
        rfl
      · simp [ValueLexeme.value, Numerals.value, hvalue, Function.comp_def]
      · simp [ValueLexeme.Small, Numerals.parts, Small, hvalue]
  | range low high =>
    refine ⟨⟨b, capital, .span (.ofNat b low) (.ofNat b high)⟩, rfl, ?_, ?_⟩
    · simp [ValueLexeme.value, Numerals.value, hvalue]
    · simp [ValueLexeme.Small, Numerals.parts, Small, hvalue]

theorem decode_rendered (b : Base) (capital : Bool) (v : NumVal) :
    decodeNumVal (v.rendered b capital) = .ok v ↔ v.Small := by
  by_cases hv : v = .codes []
  · subst hv
    refine iff_of_false (fun h => ?_) fun h => h.1 rfl
    cases b <;> cases capital <;> cases h
  · obtain ⟨l, hl, rfl, hsmall⟩ := v.exists_lexeme b capital hv
    rw [← hl, ← hsmall]
    constructor
    · intro h
      by_contra hlarge
      obtain ⟨e, he⟩ := decodeNumVal_large hlarge
      cases he.symm.trans h
    · exact decodeNumVal_written

end NumVal

/-! ## Agreement -/

/-- Bounds that fit where counts are kept, and of which the upper is not below the lower. -/
def BoundsLexeme.Fits (l : BoundsLexeme) : Prop := l.Small ∧ ∀ m ∈ l.high, l.low ≤ m

theorem BoundsLexeme.fits_exactly {n : Numeral 10} : (exactly n).Fits ↔ n.value < 2 ^ 64 := by
  simp [Fits, Small, parts, low, high]

theorem BoundsLexeme.fits_within {low : Numeral 10} {high : Option (Numeral 10)} :
    (within (some low) high).Fits ↔ low.value < 2 ^ 64 ∧ ∀ m ∈ high, low.value ≤ m.value ∧ m.value < 2 ^ 64 := by
  cases high with
  | none => simp [Fits, Small, parts, BoundsLexeme.high]
  | some m =>
    simp [Fits, Small, parts, BoundsLexeme.low, BoundsLexeme.high]
    tauto

section
variable {l : BoundsLexeme}

theorem decodeBounds_fits (h : l.Fits) : decodeBounds l.written = .ok (l.low, l.high) := by
  have hle : l.high.any (· < l.low) = false := by
    cases hm : l.high with
    | none => rfl
    | some m => exact decide_eq_false (Nat.not_lt.2 (h.2 m hm))
  rw [decodeBounds_written h.1, hle]
  rfl

theorem decodeBounds_empty (h : l.Small) (hempty : ∃ m ∈ l.high, m < l.low) :
    decodeBounds l.written = .error (.invalidValue (.emptyBounds l.written)) := by
  obtain ⟨m, hm, hlt⟩ := hempty
  rw [decodeBounds_written h, Option.mem_def.1 hm, if_pos (by simpa using hlt)]

theorem decodeBounds_lexeme : decodeBounds l.written = .ok (l.low, l.high) ↔ l.Fits := by
  refine ⟨fun h => ?_, decodeBounds_fits⟩
  by_cases hsmall : l.Small
  · refine ⟨hsmall, fun m hm => Nat.not_lt.1 fun hlt => ?_⟩
    cases (decodeBounds_empty hsmall ⟨m, hm, hlt⟩).symm.trans h
  · obtain ⟨e, he⟩ := decodeBounds_large hsmall
    cases he.symm.trans h

theorem decodeBounds_unfit (h : ¬ l.Fits) : ∃ e, decodeBounds l.written = .error e := by
  by_cases hsmall : l.Small
  · have hempty : ∃ m ∈ l.high, m < l.low := by
      by_contra hne
      exact h ⟨hsmall, fun m hm => Nat.not_lt.1 fun hlt => hne ⟨m, hm, hlt⟩⟩
    exact ⟨_, decodeBounds_empty hsmall hempty⟩
  · obtain ⟨e, he⟩ := decodeBounds_large hsmall
    exact ⟨_, he⟩

end

/-! Bounds in decimal digits. -/

def Numeral.decimal (n : Nat) : Numeral 10 := .ofNat .decimal n

theorem Numeral.value_decimal (n : Nat) : (decimal n).value = n := value_ofNat .decimal n

theorem decodeBounds_count (n : Nat) : decodeBounds (Nat.toDigits 10 n) = .ok (n, some n) ↔ n < 2 ^ 64 := by
  have h := decodeBounds_lexeme (l := .exactly (.decimal n))
  simp only [BoundsLexeme.fits_exactly, BoundsLexeme.low, BoundsLexeme.high, Numeral.value_decimal] at h
  exact h

theorem decodeBounds_around (low : Nat) (high : Option Nat) :
    decodeBounds (Nat.toDigits 10 low ++ '*' :: (high.map (Nat.toDigits 10)).getD []) = .ok (low, high) ↔
      low < 2 ^ 64 ∧ ∀ m ∈ high, low ≤ m ∧ m < 2 ^ 64 := by
  have h := decodeBounds_lexeme (l := .within (some (.decimal low)) (high.map .decimal))
  have hlow : (BoundsLexeme.within (some (.decimal low)) (high.map .decimal)).low = low :=
    Numeral.value_decimal low
  have hhigh : (BoundsLexeme.within (some (.decimal low)) (high.map .decimal)).high = high := by
    cases high <;> simp [BoundsLexeme.high, Numeral.value_decimal]
  rw [hlow, hhigh, BoundsLexeme.fits_within] at h
  simp only [Option.forall_mem_map, Numeral.value_decimal] at h
  cases high <;> exact h

/-! The decoders of both rules. -/

/-- A decoder takes the texts that a rule matches whole, unless something that is written there does not fit,
and gives the value of what is written. -/
structure Agrees {L ε α : Type} (g : Grammar) (name : String) (decode : Text → Except ε α) (written : L → Text)
    (Fits : L → Prop) (value : L → α) : Prop where
  consumes (t : Text) : g.Consumes name t ↔ ∃ l, written l = t
  decodes (t : Text) : (∃ a, decode t = .ok a) ↔ g.Consumes name t ∧ ∀ l, written l = t → Fits l
  value (l : L) : Fits l → decode (written l) = .ok (value l)

theorem Agrees.of_lexemes {L ε α : Type} {g : Grammar} {name : String} {decode : Text → Except ε α}
    {written : L → Text} {Fits : L → Prop} {value : L → α}
    (hconsumes : ∀ t, g.Consumes name t ↔ ∃ l, written l = t)
    (hvalue : ∀ l, Fits l → decode (written l) = .ok (value l))
    (hunfit : ∀ l, ¬ Fits l → ∃ e, decode (written l) = .error e)
    (hok : ∀ t a, decode t = .ok a → ∃ l, written l = t) : Agrees g name decode written Fits value where
  consumes := hconsumes
  value := hvalue
  decodes t := by
    constructor
    · rintro ⟨a, ha⟩
      refine ⟨(hconsumes t).2 (hok t a ha), fun l hl => ?_⟩
      by_contra hl'
      obtain ⟨e, he⟩ := hunfit l hl'
      rw [hl, ha] at he
      cases he
    · rintro ⟨hc, hfits⟩
      obtain ⟨l, rfl⟩ := (hconsumes t).1 hc
      exact ⟨_, hvalue l (hfits l rfl)⟩

/-- The decoders and the grammar agree: what a rule matches whole is decoded unless a number in it is too large
or an upper bound is below the lower one, and rendered values are decoded to themselves. -/
theorem decoders_agree : ∃ g, grammar = .ok g ∧
    Agrees g "num_val" decodeNumVal ValueLexeme.written ValueLexeme.Small ValueLexeme.value ∧
    Agrees g "repeat" decodeBounds BoundsLexeme.written BoundsLexeme.Fits (fun l => (l.low, l.high)) ∧
    (∀ l : ValueLexeme, ¬ l.Small → ∃ e, decodeNumVal l.written = .error e) ∧
    (∀ l : BoundsLexeme, ¬ l.Small → ∃ e, decodeBounds l.written = .error (.decode e)) ∧
    (∀ l : BoundsLexeme, l.Small → (∃ m ∈ l.high, m < l.low) →
      decodeBounds l.written = .error (.invalidValue (.emptyBounds l.written))) ∧
    (∀ base zeros digits, numeralValue base (List.replicate zeros '0' ++ digits) = numeralValue base digits ∧
      numeralValue base (digits.map Char.toUpper) = numeralValue base digits ∧
      numeralValue base digits = Nat.ofDigits base (digits.reverse.map digitValue)) ∧
    (∀ b capital (v : NumVal), decodeNumVal (v.rendered b capital) = .ok v ↔ v.Small) ∧
    (∀ n, decodeBounds (Nat.toDigits 10 n) = .ok (n, some n) ↔ n < 2 ^ 64) ∧
    ∀ low high, decodeBounds (Nat.toDigits 10 low ++ '*' :: (high.map (Nat.toDigits 10)).getD []) =
      .ok (low, high) ↔
      low < 2 ^ 64 ∧ ∀ m ∈ high, low ≤ m ∧ m < 2 ^ 64 := by
  refine ⟨abnf, grammar_eq, ?_, ?_, fun l => decodeNumVal_large, fun l => decodeBounds_large,
    fun l => decodeBounds_empty, ?_, fun b capital v => v.decode_rendered b capital, decodeBounds_count,
    decodeBounds_around⟩
  · exact .of_lexemes (fun t => consumes_value) (fun l => decodeNumVal_written) (fun l => decodeNumVal_large)
      fun t a h => (decodeNumVal_eq_ok h).imp fun _ hl => hl.1
  · exact .of_lexemes (fun t => consumes_bounds) (fun l => decodeBounds_fits) (fun l => decodeBounds_unfit)
      fun t a h => (decodeBounds_eq_ok h).imp fun _ hl => hl.1
  · intro base zeros digits
    exact ⟨numeralValue_zeros base zeros digits, numeralValue_toUpper base digits,
      numeralValue_eq_ofDigits base digits⟩

/-- A range with a capital mark and a leading zero, bounds the wrong way round, and a count that is too large. -/
theorem decoders_agree_capitals : (∃ g, grammar = .ok g ∧ g.Consumes "num_val" "%X041-5a".toList) ∧
    decodeNumVal "%X041-5a".toList = .ok (.range 65 90) ∧
    decodeBounds "3*2".toList = .error (.invalidValue (.emptyBounds "3*2".toList)) ∧
    ∃ e, decodeBounds "18446744073709551616*".toList = .error (.decode e) := by
  let range : ValueLexeme := ⟨.hexadecimal, true, .span ⟨"041".toList, by decide, List.all_eq_true.1 (by decide)⟩
    ⟨"5a".toList, by decide, List.all_eq_true.1 (by decide)⟩⟩
  let reversed : BoundsLexeme := .within (some (.decimal 3)) (some (.decimal 2))
  let large : BoundsLexeme := .within (some (.decimal (2 ^ 64))) none
  obtain ⟨g, hg, hvalue, _, _, hlarge, hempty, _⟩ := decoders_agree
  have hreversed := hempty reversed (by decide) ⟨2, rfl, by decide⟩
  have hcount := hlarge large (by decide)
  exact ⟨⟨g, hg, (hvalue.consumes _).2 ⟨range, rfl⟩⟩, hvalue.value range (by decide), hreversed, hcount⟩

end Abnf

end PegTree
