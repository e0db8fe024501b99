import PegTree.Proofs.Abnf.Decoding
import PegTree.Proofs.Abnf.Shape
import PegTree.Proofs.Reads

/-!
# What the tokens of ABNF read

Names, bounds, quotations and numeric values are read whole before anything that cannot go on with
them, and layout is read up to the first character that is none of it.
-/

namespace PegTree.Abnf

/-- A node of a rule alone, and what is true of it. -/
def Lone (name : String) (F : Node → Prop) (ns : List Node) : Prop :=
  ∃ n, ns = [n] ∧ n.name? = some name ∧ F n

section
variable {t u y : Text} {name : String} {e : Expr} {P : List Node → Prop}

theorem Lone.imp {F G : Node → Prop} {ns : List Node} (h : Lone name F ns) (hfg : ∀ n, F n → G n) :
    Lone name G ns := by
  obtain ⟨n, rfl, hn, hF⟩ := h
  exact ⟨n, rfl, hn, hfg n hF⟩

/-! ## Rules -/

theorem reads_rule (h : bodies.lookup name = some e) (hd : dropped name = false) (he : (reading t).Reads e u y P) :
    (reading t).Reads (.ref name) u y (Lone name fun n => n.text = u ∧ P n.children) := by
  intro p hp
  obtain ⟨inner, hm, hin⟩ := he p hp
  exact ⟨_, (matches_body h hd).2 ⟨inner, u, hm, .of_suffix? hp, rfl⟩, _, rfl, rfl, rfl, hin⟩

theorem reads_dropped (h : bodies.lookup name = some e) (hd : dropped name = true)
    (he : (reading t).Reads e u y P) :
    (reading t).Reads (.ref name) u y (· = []) := by
  intro p hp
  obtain ⟨inner, hm, _⟩ := he p hp
  exact ⟨[], (matches_dropped h hd).2 ⟨⟨inner, hm⟩, rfl⟩, rfl⟩

theorem stalls_rule (h : bodies.lookup name = some e) (he : (reading t).Stalls e y) :
    (reading t).Stalls (.ref name) y :=
  fun p hp => (refuses_body h).2 (he p hp)

/-! ## Characters -/

theorem firstLeading?_chars {cs : List Char} (hcs : cs ≠ []) (hy : ∀ c ∈ y.head?, c ∉ cs) :
    firstLeading? (cs.map fun c => .text [c]) true y = none := by
  have he : (cs.map fun c => Matcher.text [c]).isEmpty = false := by simp [hcs]
  rw [firstLeading?, he]
  simp only [Bool.false_eq_true, if_false, List.findSome?_eq_none_iff, List.forall_mem_map]
  intro a ha
  cases y with
  | nil => rfl
  | cons c y =>
    have hac : a ≠ c := fun h => hy c rfl (h ▸ ha)
    simp [Matcher.leading?, leadingText?, leading?, hac]

theorem stalls_chars {cs : List Char} (hcs : cs ≠ []) (hy : ∀ c ∈ y.head?, c ∉ cs) :
    (reading t).Stalls (.literal false (cs.map fun c => .text [c]) none) y :=
  Reading.stalls_literal (firstLeading?_chars hcs hy)

theorem stalls_lit {s : String} {a : Char} (hs : s.toList = [a]) (hy : ∀ c ∈ y.head?, c ≠ a) :
    (reading t).Stalls (lit s) y := by
  have hl : lit s = .literal false ([a].map fun c => .text [c]) none := by rw [lit, hs]; rfl
  rw [hl]
  exact stalls_chars (List.cons_ne_nil _ _) fun c hc => by simpa using hy c hc

theorem reads_lit {s : String} {a : Char} (hs : s.toList = [a]) : (reading t).Reads (lit s) [a] y Silent := by
  rw [lit, hs]
  exact Reading.reads_literal (firstLeading?_single.trans (leadingText?_self [a] y))

theorem reads_found {p : Pattern} (h : p.exact.leading? (u ++ y) = some u) :
    (reading t).Reads (found p) u y Silent :=
  Reading.reads_literal (firstLeading?_pattern.trans h)

theorem stalls_found {p : Pattern} (h : p.exact.leading? y = none) : (reading t).Stalls (found p) y :=
  Reading.stalls_literal (firstLeading?_pattern.trans h)

/-! ## Names, bounds and quotations -/

theorem reads_name (n : Name) (hy : ∀ c ∈ y.head?, nameChar.contains c = false) :
    (reading t).Reads (.ref "rulename") n.written y (Lone "rulename" (·.text = n.written)) := by
  have hl : namePattern.exact.leading? (n.written ++ y) = _ := Regex.leading?_word
  have hfound : (reading t).Reads (found namePattern) n.written y Silent := by
    refine reads_found (hl.trans ?_)
    simp [Name.written, n.head_letter, takeWhile_run n.tail_nameChar hy]
  exact (reads_rule rfl rfl hfound).imp fun _ h => h.imp fun _ hm => hm.1

theorem stalls_name (hy : ∀ c ∈ y.head?, letter.contains c = false) : (reading t).Stalls (.ref "rulename") y := by
  have hl : namePattern.exact.leading? y = _ := Regex.leading?_word
  refine stalls_rule rfl (stalls_found (hl.trans ?_))
  cases y with
  | nil => rfl
  | cons c y => simp [hy c rfl]

theorem decimal_contains (c : Char) : decimal.contains c = isDigitOf 10 c := by
  rw [Bool.eq_iff_iff, isDigitOf_iff (by decide)]
  simp [decimal, CharClass.contains]
  omega

theorem not_star_of_decimal {c : Char} (h : decimal.contains c = true) :
    (CharClass.single '*').contains c = false := by
  rw [← Bool.not_eq_true, CharClass.contains_single]
  rintro rfl
  exact absurd h (by decide)

theorem digitsOf_decimal (n : Option (Numeral 10)) : ∀ c ∈ BoundsLexeme.digitsOf n, decimal.contains c = true := by
  intro c hc
  rw [decimal_contains]
  cases n with
  | none => cases hc
  | some n => exact n.isDigit c hc

theorem boundsPattern_leading (l : BoundsLexeme) (hy : ∀ c ∈ y.head?, decimal.contains c = false ∧ c ≠ '*') :
    boundsPattern.exact.leading? (l.written ++ y) = some l.written := by
  have hl : boundsPattern.exact.leading? (l.written ++ y) = _ := Regex.leading?_around fun _ => not_star_of_decimal
  have hdec : ∀ c ∈ y.head?, decimal.contains c = false := fun c hc => (hy c hc).1
  rw [hl]
  cases l with
  | exactly n =>
    have hn : ∀ c ∈ n.digits, decimal.contains c = true := digitsOf_decimal (some n)
    have he : n.digits.isEmpty = false := by simp [n.nonempty]
    simp only [BoundsLexeme.written, takeWhile_run hn hdec, dropWhile_run hn hdec, he]
    cases y with
    | nil => rfl
    | cons c y =>
      have hc : (CharClass.single '*').contains c = false := by
        rw [← Bool.not_eq_true, CharClass.contains_single]
        exact (hy c rfl).2
      simp [hc]
  | within low high =>
    have hstar : ∀ c ∈ ('*' :: (BoundsLexeme.digitsOf high ++ y)).head?, decimal.contains c = false := by
      intro c hc
      cases hc
      decide
    have hc : (CharClass.single '*').contains '*' = true := by decide
    simp only [BoundsLexeme.written, List.append_assoc, List.cons_append,
      takeWhile_run (digitsOf_decimal low) hstar,
      dropWhile_run (digitsOf_decimal low) hstar, takeWhile_run (digitsOf_decimal high) hdec, hc, if_true]

theorem reads_boundsLexeme (l : BoundsLexeme) (hy : ∀ c ∈ y.head?, decimal.contains c = false ∧ c ≠ '*') :
    (reading t).Reads (.ref "repeat") l.written y (Lone "repeat" (·.text = l.written)) :=
  (reads_rule rfl rfl (reads_found (boundsPattern_leading l hy))).imp fun _ h => h.imp fun _ hm => hm.1

theorem reads_bounds (b : Bounds) (hy : ∀ c ∈ y.head?, decimal.contains c = false ∧ c ≠ '*') :
    (reading t).Reads (.ref "repeat") b.written y (Lone "repeat" (·.text = b.written)) :=
  b.written_lexeme ▸ reads_boundsLexeme b.lexeme hy

theorem stalls_bounds (hy : ∀ c ∈ y.head?, decimal.contains c = false ∧ c ≠ '*') :
    (reading t).Stalls (.ref "repeat") y := by
  have hl : boundsPattern.exact.leading? y = _ := Regex.leading?_around fun _ => not_star_of_decimal
  refine stalls_rule rfl (stalls_found (hl.trans ?_))
  cases y with
  | nil => rfl
  | cons c y =>
    have hc : (CharClass.single '*').contains c = false := by
      rw [← Bool.not_eq_true, CharClass.contains_single]
      exact (hy c rfl).2
    simp [(hy c rfl).1, hc]

theorem reads_quotation (q : Quotation) :
    (reading t).Reads (.ref "char_val") q.written y (Lone "char_val" (·.text = q.written)) := by
  have hl : quotedPattern.exact.leading? (q.written ++ y) = _ :=
    Regex.leading?_quoted fun _ => not_quote_of_quotable
  have hq : ∀ c ∈ ('"' :: y).head?, quotable.contains c = false := by
    intro c hc
    cases hc
    decide
  have hc : (CharClass.single '"').contains '"' = true := by decide
  have hfound : (reading t).Reads (found quotedPattern) q.written y Silent := by
    refine reads_found (hl.trans ?_)
    simp [Quotation.written, takeWhile_run q.isQuotable hq, dropWhile_run q.isQuotable hq, hc]
  exact (reads_rule rfl rfl hfound).imp fun _ h => h.imp fun _ hm => hm.1

theorem stalls_quotation (hy : ∀ c ∈ y.head?, c ≠ '"') : (reading t).Stalls (.ref "char_val") y := by
  have hl : quotedPattern.exact.leading? y = _ := Regex.leading?_quoted fun _ => not_quote_of_quotable
  refine stalls_rule rfl (stalls_found (hl.trans ?_))
  cases y with
  | nil => rfl
  | cons c y =>
    have hc : (CharClass.single '"').contains c = false := by
      rw [← Bool.not_eq_true, CharClass.contains_single]
      exact hy c rfl
    simp [hc]

/-! ## Numeric values -/

theorem hexadecimal_contains (c : Char) : hexadecimal.contains c = isDigitOf 16 c := by
  rw [Bool.eq_iff_iff, isDigitOf_iff (Nat.le_refl 16)]
  simp [hexadecimal, decimal, CharClass.contains]
  omega

theorem bit_contains (c : Char) : c ∈ ['0', '1'] ↔ isDigitOf 2 c = true := by
  rw [isDigitOf_iff (by decide)]
  simp [← Char.toNat_inj]
  omega

namespace Base

def digit : Base → Expr
  | binary => bit
  | decimal => found decimalPattern
  | hexadecimal => found hexadecimalPattern

def ruleName : Base → String
  | binary => "bin_val"
  | decimal => "dec_val"
  | hexadecimal => "hex_val"

def mark : Base → String
  | binary => "b"
  | decimal => "d"
  | hexadecimal => "x"

theorem body (b : Base) : bodies.lookup b.ruleName = some (basedValue b.mark b.digit) := by cases b <;> rfl

theorem reads_digit (b : Base) {c : Char} (hc : isDigitOf b.radix c = true) :
    (reading t).Reads b.digit [c] y Silent := by
  cases b with
  | binary =>
    have hbit : (reading t).Reads (.literal false (['0', '1'].map fun c => .text [c]) none) [c] y Silent := by
      refine Reading.reads_literal ?_
      have hmem := (bit_contains c).2 hc
      simp only [List.mem_cons, List.not_mem_nil, or_false] at hmem
      rcases hmem with rfl | rfl <;> rfl
    exact hbit
  | decimal =>
    have hl : decimalPattern.exact.leading? ([c] ++ y) = _ := Regex.leading?_single
    exact reads_found (hl.trans (by simp [(decimal_contains c).trans hc]))
  | hexadecimal =>
    have hl : hexadecimalPattern.exact.leading? ([c] ++ y) = _ := Regex.leading?_single
    exact reads_found (hl.trans (by simp [(hexadecimal_contains c).trans hc]))

theorem stalls_digit (b : Base) (hy : ∀ c ∈ y.head?, isDigitOf b.radix c = false) :
    (reading t).Stalls b.digit y := by
  cases b with
  | binary =>
    have hbit : (reading t).Stalls (.literal false (['0', '1'].map fun c => .text [c]) none) y := by
      refine stalls_chars (List.cons_ne_nil _ _) fun c hc hmem => ?_
      have hd := (bit_contains c).1 hmem
      rw [show isDigitOf 2 c = false from hy c hc] at hd
      cases hd
    exact hbit
  | decimal =>
    have hl : decimalPattern.exact.leading? y = _ := Regex.leading?_single
    refine stalls_found (hl.trans ?_)
    cases y with
    | nil => rfl
    | cons c y => simp [(decimal_contains c).trans (hy c rfl)]
  | hexadecimal =>
    have hl : hexadecimalPattern.exact.leading? y = _ := Regex.leading?_single
    refine stalls_found (hl.trans ?_)
    cases y with
    | nil => rfl
    | cons c y => simp [(hexadecimal_contains c).trans (hy c rfl)]

theorem reads_digits (b : Base) (n : Numeral b.radix) (hy : ∀ c ∈ y.head?, isDigitOf b.radix c = false) :
    (reading t).Reads b.digit.many1 n.digits y Silent := by
  have hruns := Reading.runs_chars (u := n.digits) (fun c y hc => reads_digit (t := t) (y := y) b hc)
    (stalls_digit b hy) n.isDigit
  obtain ⟨k, hk⟩ := Nat.exists_eq_succ_of_ne_zero (Nat.ne_of_gt (List.length_pos_iff.2 n.nonempty))
  rw [hk] at hruns
  exact hruns.many1

theorem leading_mark (b b' : Base) (capital : Bool) :
    firstLeading? [.text b.mark.toList] false (b'.sign capital :: y) =
      if b = b' then some [b'.sign capital] else none := by
  cases b <;> cases b' <;> cases capital <;> rfl

theorem reads_mark (b : Base) (capital : Bool) :
    (reading t).Reads ((lit b.mark).withCase false) [b.sign capital] y Silent :=
  Reading.reads_literal ((b.leading_mark b capital).trans (if_pos rfl))

theorem stalls_other (b b' : Base) (capital : Bool) (h : b ≠ b') :
    (reading t).Stalls (.ref b.ruleName) (b'.sign capital :: y) :=
  stalls_rule b.body (Reading.stalls_literal ((b.leading_mark b' capital).trans (if_neg h))).sequence

end Base

/-! What follows the first number of a value: numbers after dots, or one after a dash, or nothing. -/

def dotted (b : Base) : Expr := row [lit ".", b.digit.many1]

def dashed (b : Base) : Expr := row [lit "-", b.digit.many1]

def further (b : Base) : Expr := oneOf [(dotted b).many1, dashed b]

/-- What ends a value: no further digit, dot or dash. -/
def Past (b : Base) (y : Text) : Prop := ∀ c ∈ y.head?, isDigitOf b.radix c = false ∧ c ≠ '.' ∧ c ≠ '-'

theorem runs_dotted {b : Base} (more : List (Numeral b.radix)) (hy : Past b y) :
    (reading t).Runs (dotted b) (Numerals.dots more) y more.length Silent := by
  induction more with
  | nil =>
    have hs : (reading t).Stalls (dotted b) y := (stalls_lit rfl fun c hc => (hy c hc).2.1).sequence
    exact hs.runs.imp fun _ h => h ▸ Silent.nil
  | cons c more ih =>
    have hnext := Numerals.dots_before b.radix_le more fun c hc => (hy c hc).1
    have hrow := (reads_lit (t := t) (s := ".") rfl).row (b.reads_digits c hnext).last
    have hstep : (reading t).Reads (dotted b) ('.' :: c.digits) (Numerals.dots more ++ y) Silent :=
      hrow.sequence.imp fun _ h => h.silent
    exact (hstep.runs (List.cons_ne_nil _ _) ih).imp fun _ h => h.silent

theorem stalls_further {b : Base} (hy : Past b y) : (reading t).Stalls (further b) y := by
  have hdot : (reading t).Stalls (dotted b) y := (stalls_lit rfl fun c hc => (hy c hc).2.1).sequence
  have hdash : (reading t).Stalls (dashed b) y := (stalls_lit rfl fun c hc => (hy c hc).2.2).sequence
  refine Reading.stalls_choice fun e he => ?_
  simp only [List.mem_cons, List.not_mem_nil, or_false] at he
  rcases he with rfl | rfl
  · exact hdot.many1
  · exact hdash

theorem reads_body (l : ValueLexeme) (hy : Past l.base y) :
    (reading t).Reads (basedValue l.base.mark l.base.digit) (l.base.sign l.capital :: l.numerals.written) y
      fun _ => True := by
  obtain ⟨b, capital, numerals⟩ := l
  have hrow : ∀ {v : Text} {n : Numeral b.radix} {P : List Node → Prop},
      (∀ c ∈ (v ++ y).head?, isDigitOf b.radix c = false) → (reading t).Reads (further b).maybe v y P →
      (reading t).Reads (basedValue b.mark b.digit) (b.sign capital :: (n.digits ++ v)) y fun _ => True := by
    intro v n P hv hfurther
    have h := (b.reads_mark (t := t) capital).row ((b.reads_digits n hv).row hfurther.last)
    exact h.sequence.imp fun _ _ => trivial
  cases numerals with
  | row first more =>
    have hfirst := Numerals.dots_before b.radix_le more fun c hc => (hy c hc).1
    cases more with
    | nil => exact hrow hfirst (stalls_further (t := t) hy).maybe
    | cons c more =>
      have hd : (reading t).Reads (further b) _ y Silent := (runs_dotted (c :: more) hy).many1.choice
      exact hrow hfirst hd.maybe
  | span low high =>
    have hdash := (reads_lit (t := t) (s := "-") rfl).row (b.reads_digits high fun c hc => (hy c hc).1).last
    have hdot : (reading t).Stalls (dotted b) (['-'] ++ high.digits ++ y) := by
      refine (stalls_lit rfl fun c hc => ?_).sequence
      cases hc
      decide
    have hf : (reading t).Reads (further b) ('-' :: high.digits) y _ := hdot.many1.choice hdash.sequence.choice
    refine hrow (fun d hd => ?_) hf.maybe
    cases hd
    exact dot_not_digit b.radix_le _ (by simp)

theorem reads_valueLexeme (l : ValueLexeme) (hy : Past l.base y) :
    (reading t).Reads (.ref "num_val") l.written y (Lone "num_val" (·.text = l.written)) := by
  have hbody : (reading t).Reads (.ref l.base.ruleName) (l.base.sign l.capital :: l.numerals.written) y
      fun _ => True :=
    (reads_rule l.base.body (by cases l.base <;> rfl) (reads_body l hy)).imp fun _ _ => trivial
  have hpick : (reading t).Reads (oneOf [.ref "bin_val", .ref "dec_val", .ref "hex_val"])
      (l.base.sign l.capital :: l.numerals.written) y fun _ => True := by
    generalize l.numerals.written = u at hbody
    generalize l.base = b at hbody
    cases b with
    | binary => exact hbody.choice
    | decimal => exact (Base.stalls_other .binary .decimal _ (by decide)).choice hbody.choice
    | hexadecimal =>
      refine (Base.stalls_other .binary .hexadecimal _ (by decide)).choice ?_
      exact (Base.stalls_other .decimal .hexadecimal _ (by decide)).choice hbody.choice
  have h : (reading t).Reads (.ref "num_val") l.written y _ :=
    reads_rule rfl rfl ((reads_lit (t := t) (s := "%") rfl).row hpick.last).sequence
  exact h.imp fun _ h => h.imp fun _ hm => hm.1

theorem stalls_value (hy : ∀ c ∈ y.head?, c ≠ '%') : (reading t).Stalls (.ref "num_val") y :=
  stalls_rule rfl (stalls_lit rfl hy).sequence

/-! ## Layout -/

/-- A text that does not start with layout: a line feed counts only if a blank comes after it. -/
structure Bare (y : Text) : Prop where
  start : ∀ c ∈ y.head?, c ∉ [' ', '\t', ';', '\r']
  line : ∀ z, y = '\n' :: z → ∀ c ∈ z.head?, c ∉ [' ', '\t']

theorem Bare.of_head {c : Char} {z : Text} (h : c ∉ [' ', '\t', ';', '\r', '\n']) : Bare (c :: z) where
  start d hd := by
    cases hd
    simp_all
  line w hw := by
    cases hw
    simp at h

theorem Bare.line_feed {z : Text} (h : ∀ c ∈ z.head?, c ∉ [' ', '\t']) : Bare ('\n' :: z) where
  start c hc := by
    cases hc
    decide
  line w hw := by
    cases hw
    exact h

theorem stalls_blank (hy : ∀ c ∈ y.head?, c ∉ [' ', '\t']) : (reading t).Stalls blank y := by
  have h : (reading t).Stalls (.literal false ([' ', '\t'].map fun c => .text [c]) none) y :=
    stalls_chars (List.cons_ne_nil _ _) hy
  exact h

theorem stalls_comment (hy : ∀ c ∈ y.head?, c ≠ ';') : (reading t).Stalls (.ref "comment") y :=
  stalls_rule rfl (stalls_lit rfl hy).sequence

/-- Where no comment starts the end of a line is what ends a line. -/
theorem reads_lineEnd (hy : ∀ c ∈ (u ++ y).head?, c ≠ ';') (h : lineEnd? (u ++ y) = some u) :
    (reading t).Reads (.ref "c_nl") u y (· = []) :=
  reads_dropped rfl rfl ((stalls_comment hy).choice (Reading.reads_endOfLine h).choice)

theorem stalls_lineEnd {c : Char} {z : Text} (hc : c ∉ [';', '\r', '\n']) :
    (reading t).Stalls (.ref "c_nl") (c :: z) := by
  simp only [List.mem_cons, List.not_mem_nil, or_false, not_or] at hc
  have hnone : lineEnd? (c :: z) = none := by
    simp [lineEnd?, Scope.leadingNewline?, leadingText?, leading?, Ne.symm hc.2.1, Ne.symm hc.2.2]
  refine stalls_rule rfl (Reading.stalls_choice fun e he => ?_)
  simp only [List.mem_cons, List.not_mem_nil, or_false] at he
  rcases he with rfl | rfl
  · exact stalls_comment fun d hd => by cases hd; exact hc.1
  · exact Reading.stalls_endOfLine hnone

/-- Layout that goes over the end of a line needs a blank on the next. -/
theorem stalls_layout (hy : Bare y) : (reading t).Stalls (.ref "c_wsp") y := by
  have hblank : (reading t).Stalls blank y := stalls_blank fun c hc => by
    have := hy.start c hc
    simp_all
  have hline : (reading t).Stalls (row [.ref "c_nl", blank]) y := by
    cases y with
    | nil =>
      have hend : (reading t).Reads (.ref "c_nl") [] [] (· = []) := reads_lineEnd (by simp) rfl
      exact hend.stalls (stalls_blank (by simp)).sequence
    | cons c z =>
      by_cases hc : c = '\n'
      · subst hc
        have hend : (reading t).Reads (.ref "c_nl") ['\n'] z (· = []) := reads_lineEnd (by simp) rfl
        exact hend.stalls (stalls_blank (hy.line z rfl)).sequence
      · have := hy.start c rfl
        exact (stalls_lineEnd (by simp_all)).sequence
  refine stalls_rule rfl (Reading.stalls_choice fun e he => ?_)
  simp only [List.mem_cons, List.not_mem_nil, or_false] at he
  rcases he with rfl | rfl
  · exact hblank
  · exact hline

theorem reads_layout : (reading t).Reads (.ref "c_wsp") [' '] y (· = []) := by
  have hblank : (reading t).Reads blank [' '] y Silent := Reading.reads_literal rfl
  exact reads_dropped rfl rfl hblank.choice

theorem runs_space (hy : Bare y) : (reading t).Runs (.ref "c_wsp") [' '] y 1 (· = []) :=
  reads_layout.once (List.cons_ne_nil _ _) (stalls_layout hy)

theorem reads_space (hy : Bare y) : (reading t).Reads blanks [' '] y (· = []) := (runs_space hy).many

theorem reads_operator (hu : u = ['='] ∨ u = ['=', '/']) (hy : Bare y) :
    (reading t).Reads (.ref "defined_as") (' ' :: (u ++ [' '])) y
      (Lone "defined_as" (·.text = ' ' :: (u ++ [' ']))) := by
  have hop : (reading t).Reads (lits ["=/", "="]) u ([' '] ++ y) Silent := by
    refine Reading.reads_literal ?_
    rcases hu with rfl | rfl <;> rfl
  have hbare : Bare (u ++ [' '] ++ y) := by
    rcases hu with rfl | rfl <;> exact .of_head (by decide)
  have hrow := (reads_space (t := t) hbare).row (hop.row (reads_space hy).last)
  exact (reads_rule rfl rfl hrow.sequence).imp fun _ h => h.imp fun _ hn => hn.1

theorem reads_nothing (hy : Bare y) : (reading t).Reads blanks [] y (· = []) := (stalls_layout hy).runs.many

end

end PegTree.Abnf
