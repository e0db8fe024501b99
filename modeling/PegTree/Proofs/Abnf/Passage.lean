import PegTree.Proofs.Abnf.Tokens
import PegTree.Proofs.Carries

/-!
# What rules see of a text

A rule takes whole lines, and it goes on to another line only over a blank. So texts that agree up to
the end of a line are the same to the rules before it, if neither goes on with a blank after it.
-/

namespace PegTree.Abnf

/-! ## Searches within a line -/

/-- Before the end of the line `u`, what is found does not depend on what comes after it. -/
def InlineAt (find : Text → Option Text) (u : Text) : Prop :=
  ∃ o, (∀ v, o = some v → ∃ w, u = v ++ w) ∧ ∀ z, find (u ++ '\n' :: z) = o

def Inline (find : Text → Option Text) : Prop := ∀ u, InlineAt find u

section
variable {find : Text → Option Text} {u v w : Text}

theorem InlineAt.none (h : ∀ z, find (u ++ '\n' :: z) = none) : InlineAt find u :=
  ⟨_, fun v hv => (by cases hv), h⟩

theorem InlineAt.some (hu : u = v ++ w) (h : ∀ z, find (u ++ '\n' :: z) = some v) : InlineAt find u := by
  refine ⟨_, fun v' hv => ?_, h⟩
  cases hv
  exact ⟨w, hu⟩

end

theorem inline_leading {same : Char → Char → Bool} {needle : Text} (h : ∀ a ∈ needle, same a '\n' = false) :
    Inline (leading? same needle) := by
  induction needle with
  | nil => exact fun u => .some (List.nil_append u).symm fun _ => rfl
  | cons a needle ih =>
    obtain ⟨ha, hneedle⟩ := List.forall_mem_cons.1 h
    intro u
    cases u with
    | nil => exact .none fun z => by simp [leading?, ha]
    | cons c u =>
      by_cases hc : same a c = true
      · obtain ⟨o, ho, hfind⟩ := ih hneedle u
        refine ⟨o.map (c :: ·), fun v hv => ?_, fun z => by simp [leading?, hc, hfind]⟩
        obtain ⟨w, hw, rfl⟩ := Option.map_eq_some_iff.1 hv
        obtain ⟨y, rfl⟩ := ho w hw
        exact ⟨y, rfl⟩
      · exact .none fun z => by simp [leading?, hc]

theorem inline_firstLeading {ms : List Matcher} {b : Bool} (hms : ms ≠ [])
    (h : ∀ m ∈ ms, Inline (m.leading? b)) : Inline (firstLeading? ms b) := by
  have hfirst : firstLeading? ms b = fun t => ms.findSome? (·.leading? b t) := by
    funext t
    rw [firstLeading?, if_neg (by simpa using hms)]
  rw [hfirst]
  clear hms hfirst
  induction ms with
  | nil => exact fun u => .none fun _ => rfl
  | cons m ms ih =>
    obtain ⟨hm, hms⟩ := List.forall_mem_cons.1 h
    intro u
    obtain ⟨o, ho, hfind⟩ := hm u
    cases o with
    | some v => exact ⟨some v, ho, fun z => by simp [hfind]⟩
    | none =>
      obtain ⟨o, ho, hrest⟩ := ih hms u
      exact ⟨o, ho, fun z => by simpa [hfind] using hrest z⟩

theorem inline_texts (ts : List Text) (hts : ts ≠ []) (h : ∀ t ∈ ts, '\n' ∉ t) :
    Inline (firstLeading? (ts.map .text) true) := by
  refine inline_firstLeading (by simpa using hts) fun m hm => ?_
  obtain ⟨t, ht, rfl⟩ := List.mem_map.1 hm
  refine inline_leading fun a ha => ?_
  have hne : a ≠ '\n' := fun hn => h t ht (hn ▸ ha)
  simpa using hne

section
variable {f : Char → Bool} {u z : Text}

theorem takeWhile_lineFeed (h : f '\n' = false) : (u ++ '\n' :: z).takeWhile f = u.takeWhile f := by
  induction u with
  | nil => simp [h]
  | cons c u ih => simp [List.takeWhile_cons, ih]

theorem dropWhile_lineFeed (h : f '\n' = false) : (u ++ '\n' :: z).dropWhile f = u.dropWhile f ++ '\n' :: z := by
  induction u with
  | nil => simp [h]
  | cons c u ih =>
    rw [List.cons_append, List.dropWhile_cons, List.dropWhile_cons, ih]
    split <;> rfl

end

section
variable {p : Pattern} {head tail mark inner : CharClass}

theorem inline_found (h : Inline p.exact.leading?) : Inline (firstLeading? [.pattern p] true) :=
  inline_firstLeading (List.cons_ne_nil _ _) (List.forall_mem_singleton.2 h)

theorem inline_single (h : head.contains '\n' = false) : Inline (single head).leading? := by
  intro u
  have hl : ∀ y, (single head).leading? y = _ := fun y => Regex.leading?_single
  cases u with
  | nil => exact .none fun z => by rw [hl]; simp [h]
  | cons c u =>
    by_cases hc : head.contains c = true
    · exact .some (v := [c]) (w := u) rfl fun z => by rw [hl]; simp [hc]
    · exact .none fun z => by rw [hl]; simp [hc]

theorem inline_word (hh : head.contains '\n' = false) (ht : tail.contains '\n' = false) :
    Inline (word head tail).leading? := by
  intro u
  have hl : ∀ y, (word head tail).leading? y = _ := fun y => Regex.leading?_word
  cases u with
  | nil => exact .none fun z => by rw [hl]; simp [hh]
  | cons c u =>
    have hu := List.takeWhile_append_dropWhile (p := tail.contains) (l := u)
    by_cases hc : head.contains c = true
    · refine .some (v := c :: u.takeWhile tail.contains) (congrArg (c :: ·) hu.symm) fun z => ?_
      rw [hl]
      simp [hc, takeWhile_lineFeed ht]
    · exact .none fun z => by rw [hl]; simp [hc]

variable (hm : mark.contains '\n' = false) (hi : inner.contains '\n' = false)
  (h : ∀ x, inner.contains x = true → mark.contains x = false)
include hm hi h

theorem inline_quoted : Inline (quoted mark inner).leading? := by
  intro u
  have hl : ∀ y, (quoted mark inner).leading? y = _ := fun y => Regex.leading?_quoted h
  cases u with
  | nil => exact .none fun z => by rw [hl]; simp [hm]
  | cons c u =>
    have hu := List.takeWhile_append_dropWhile (p := inner.contains) (l := u)
    by_cases hc : mark.contains c = true
    · cases hd : u.dropWhile inner.contains with
      | nil => exact .none fun z => by rw [hl]; simp [hc, dropWhile_lineFeed hi, hd, hm]
      | cons d w =>
        rw [hd] at hu
        by_cases hq : mark.contains d = true
        · refine .some (v := c :: u.takeWhile inner.contains ++ [d]) (w := w) (by simp [hu]) fun z => ?_
          rw [hl]
          simp [hc, hq, dropWhile_lineFeed hi, takeWhile_lineFeed hi, hd]
        · exact .none fun z => by rw [hl]; simp [hc, hq, dropWhile_lineFeed hi, hd]
    · exact .none fun z => by rw [hl]; simp [hc]

theorem inline_around : Inline (around inner mark).leading? := by
  intro u
  have hl : ∀ y, (around inner mark).leading? y = _ := fun y => Regex.leading?_around h
  have hu := List.takeWhile_append_dropWhile (p := inner.contains) (l := u)
  have hrun :
      ∀ v, (if (u.takeWhile inner.contains).isEmpty then none else some (u.takeWhile inner.contains)) = some v →
      ∃ w, u = v ++ w := by
    intro v hv
    split at hv <;> cases hv
    exact ⟨_, hu.symm⟩
  cases hd : u.dropWhile inner.contains with
  | nil => exact ⟨_, hrun, fun z => by rw [hl]; simp [dropWhile_lineFeed hi, takeWhile_lineFeed hi, hd, hm]⟩
  | cons d w =>
    rw [hd] at hu
    have hw := List.takeWhile_append_dropWhile (p := inner.contains) (l := w)
    by_cases hc : mark.contains d = true
    · refine .some (v := u.takeWhile inner.contains ++ d :: w.takeWhile inner.contains)
        (w := w.dropWhile inner.contains)
        (by simp [hw, hu]) fun z => ?_
      rw [hl]
      simp [dropWhile_lineFeed hi, takeWhile_lineFeed hi, hd, hc]
    · exact ⟨_, hrun, fun z => by rw [hl]; simp [dropWhile_lineFeed hi, takeWhile_lineFeed hi, hd, hc]⟩

end

/-! ## Texts that look the same -/

/-- No blank comes first. -/
def Flush (z : Text) : Prop := ∀ c ∈ z.head?, c ∉ [' ', '\t']

/-- Two texts agree up to the end of a line, and neither goes on with a blank after it. -/
def SameLines (x x' : Text) : Prop := ∃ u z z', x = u ++ '\n' :: z ∧ x' = u ++ '\n' :: z' ∧ Flush z ∧ Flush z'

/-- The same at the end of that line. -/
def SameOrPast (x x' : Text) : Prop := SameLines x x' ∨ Flush x ∧ Flush x'

/-- Expressions of the grammar are carried over from places that `R` relates to such places, and over the
end of a line to places that `S` relates. -/
structure Passage (t t' : Text) (R S : Text → Text → Prop) : Prop where
  literal {ms : List Matcher} {c : Option Bool} (h : Inline (firstLeading? ms (c.getD true))) (n : Nat) :
    (reading t).Carries (reading t') n R R (.literal false ms c)
  lineEnd (n : Nat) : (reading t).Carries (reading t') n R S (.endOfLine false)
  blank (n : Nat) : (reading t).Carries (reading t') n S R blank

section
variable {t t' : Text}

theorem Passage.same : Passage t t' Eq Eq where
  literal _ n := by
    refine Reading.carries_literal rfl fun x x' hx => ?_
    subst hx
    exact ⟨rfl, fun u y _ hy => ⟨y, hy, rfl⟩⟩
  lineEnd n := by
    refine Reading.carries_endOfLine fun x x' hx => ?_
    subst hx
    exact ⟨rfl, fun u y _ hy => ⟨y, hy, rfl⟩⟩
  blank n := by
    refine Reading.carries_literal rfl fun x x' hx => ?_
    subst hx
    exact ⟨rfl, fun u y _ hy => ⟨y, hy, rfl⟩⟩

theorem inline_blank : Inline (firstLeading? ([" ", "\t"].map fun s => .text s.toList) true) :=
  inline_texts ([" ", "\t"].map String.toList) (List.cons_ne_nil _ _) (by decide)

theorem carries_inline {n : Nat} {ms : List Matcher} {c : Option Bool}
    (h : Inline (firstLeading? ms (c.getD true))) :
    (reading t).Carries (reading t') n SameLines SameLines (.literal false ms c) := by
  refine Reading.carries_literal rfl fun x x' hx => ?_
  obtain ⟨u, z, z', rfl, rfl, hz, hz'⟩ := hx
  obtain ⟨o, ho, hfind⟩ := h u
  refine ⟨(hfind z').trans (hfind z).symm, fun v y hv hy => ?_⟩
  obtain ⟨w, rfl⟩ := ho v ((hfind z).symm.trans hv)
  rw [List.append_assoc] at hy
  cases List.append_cancel_left hy
  exact ⟨w ++ '\n' :: z', by simp, w, z, z', rfl, rfl, hz, hz'⟩

/-- The end of a line is found in it or at its own end. -/
theorem lineEnd?_inline (u : Text) : ∃ o, (∀ v, o = some v → ∃ w, u ++ ['\n'] = v ++ w) ∧
    ∀ z, lineEnd? (u ++ '\n' :: z) = o := by
  cases u with
  | nil => exact ⟨_, fun v hv => ⟨[], by cases hv; rfl⟩, fun z => rfl⟩
  | cons a u =>
    by_cases ha : a = '\n'
    · subst ha
      exact ⟨_, fun v hv => ⟨u ++ ['\n'], by cases hv; rfl⟩, fun z => rfl⟩
    · by_cases hr : a = '\r'
      · subst hr
        cases u with
        | nil => exact ⟨_, fun v hv => ⟨[], by cases hv; rfl⟩, fun z => rfl⟩
        | cons c u =>
          by_cases hc : c = '\n'
          · subst hc
            exact ⟨_, fun v hv => ⟨u ++ ['\n'], by cases hv; rfl⟩, fun z => rfl⟩
          · refine ⟨none, fun v hv => (by cases hv), fun z => ?_⟩
            simp [lineEnd?, Scope.leadingNewline?, leadingText?, leading?, Ne.symm hc]
      · refine ⟨none, fun v hv => (by cases hv), fun z => ?_⟩
        simp [lineEnd?, Scope.leadingNewline?, leadingText?, leading?, Ne.symm ha, Ne.symm hr]

theorem Passage.lines : Passage t t' SameLines SameOrPast where
  literal h n := carries_inline h
  lineEnd n := by
    refine Reading.carries_endOfLine fun x x' hx => ?_
    obtain ⟨u, z, z', rfl, rfl, hz, hz'⟩ := hx
    obtain ⟨o, ho, hend⟩ := lineEnd?_inline u
    refine ⟨(hend z').trans (hend z).symm, fun v y hv hy => ?_⟩
    obtain ⟨w, hw⟩ := ho v ((hend z).symm.trans hv)
    have hcut : ∀ z, u ++ '\n' :: z = (u ++ ['\n']) ++ z := fun z => by simp
    rw [hcut, hw, List.append_assoc] at hy
    cases List.append_cancel_left hy
    refine ⟨w ++ z', by rw [hcut, hw, List.append_assoc], ?_⟩
    rcases List.eq_nil_or_concat w with rfl | ⟨w, c, rfl⟩
    · exact .inr ⟨hz, hz'⟩
    · have hc : '\n' = c := by
        rw [List.concat_eq_append, ← List.append_assoc] at hw
        simpa using List.append_inj_right' hw rfl
      subst hc
      exact .inl ⟨w, z, z', by simp, by simp, hz, hz'⟩
  blank n := by
    intro p p' x x' hlt hx hx' hs
    rcases hs with hs | ⟨hz, hz'⟩
    · exact carries_inline inline_blank p p' x x' hlt hx hx' hs
    · refine ⟨fun q ns hm => ?_, fun _ => stalls_blank hz' p' hx'⟩
      have hm' : (reading t).Matches (.literal false ([' ', '\t'].map fun c => .text [c]) none) p q ns := hm
      obtain ⟨u, hu, _⟩ := (Reading.matches_literal hx).1 hm'
      cases (firstLeading?_chars (List.cons_ne_nil ' ' ['\t']) hz).symm.trans hu

end

/-! ## Rules -/

theorem inline_lit {s : String} (h : '\n' ∉ s.toList) : Inline (firstLeading? [.text s.toList] true) :=
  inline_texts [s.toList] (List.cons_ne_nil _ _) (List.forall_mem_singleton.2 h)

theorem inline_mark (b : Base) : Inline (firstLeading? [.text b.mark.toList] false) := by
  have hmark : (b.mark.toList.all fun a => !sameCaseless a '\n') = true := by cases b <;> decide
  refine inline_firstLeading (List.cons_ne_nil _ _) (List.forall_mem_singleton.2 (inline_leading fun a ha => ?_))
  simpa using List.all_eq_true.1 hmark a ha

theorem inline_bit : Inline (firstLeading? (["0", "1"].map fun s => .text s.toList) true) :=
  inline_texts (["0", "1"].map String.toList) (List.cons_ne_nil _ _) (by decide)

section
variable {t t' : Text} {R S : Text → Text → Prop}

theorem carries_rule {n : Nat} {name : String} {e : Expr} (h : bodies.lookup name = some e)
    (he : (reading t).Carries (reading t') n R S e) : (reading t).Carries (reading t') n R S (.ref name) := by
  have hbody : (reading t).Carries (reading t') n R S (Rule.body ⟨name, {}, e⟩) := he
  exact hbody.rule (declares h) (declares h) rfl

namespace Passage

variable (h : Passage t t' R S) (n : Nat)
include h

theorem lit {s : String} (hs : '\n' ∉ s.toList) : (reading t).Carries (reading t') n R R (lit s) :=
  h.literal (inline_lit hs) n

theorem found {p : Pattern} (hp : Inline p.exact.leading?) : (reading t).Carries (reading t') n R R (found p) :=
  h.literal (inline_found hp) n

theorem comment : (reading t).Carries (reading t') n R S (.ref "comment") := by
  have hvisible : (reading t).Carries (reading t') n R R (Abnf.found visiblePattern) :=
    h.found n (inline_single (by decide))
  have hremark : (reading t).Carries (reading t') n R R (oneOf [Abnf.blank, Abnf.found visiblePattern]) := by
    refine Reading.carries_choice fun e he => ?_
    simp only [List.mem_cons, List.not_mem_nil, or_false] at he
    rcases he with rfl | rfl
    · exact h.literal inline_blank n
    · exact hvisible
  have hrow := (h.lit n (s := ";") (by decide)).row
    ((hremark.repetition 0 none).row ((h.lineEnd n).row Reading.carriesRow_nil))
  exact carries_rule rfl hrow.sequence

theorem c_nl : (reading t).Carries (reading t') n R S (.ref "c_nl") := by
  refine carries_rule rfl (Reading.carries_choice fun e he => ?_)
  simp only [List.mem_cons, List.not_mem_nil, or_false] at he
  rcases he with rfl | rfl
  · exact h.comment n
  · exact h.lineEnd n

theorem c_wsp : (reading t).Carries (reading t') n R R (.ref "c_wsp") := by
  refine carries_rule rfl (Reading.carries_choice fun e he => ?_)
  simp only [List.mem_cons, List.not_mem_nil, or_false] at he
  rcases he with rfl | rfl
  · exact h.literal inline_blank n
  · exact ((h.c_nl n).row ((h.blank n).row Reading.carriesRow_nil)).sequence

theorem blanks : (reading t).Carries (reading t') n R R blanks := (h.c_wsp n).repetition 0 none

theorem rulename : (reading t).Carries (reading t') n R R (.ref "rulename") :=
  carries_rule rfl (h.found n (inline_word (by decide) (by decide)))

theorem bounds : (reading t).Carries (reading t') n R R (.ref "repeat") :=
  carries_rule rfl (h.found n (inline_around (by decide) (by decide) fun _ => not_star_of_decimal))

theorem quotation : (reading t).Carries (reading t') n R R (.ref "char_val") :=
  carries_rule rfl (h.found n (inline_quoted (by decide) (by decide) fun _ => not_quote_of_quotable))

theorem digit (b : Base) : (reading t).Carries (reading t') n R R b.digit := by
  cases b with
  | binary => exact h.literal inline_bit n
  | decimal => exact h.found n (inline_single (by decide))
  | hexadecimal => exact h.found n (inline_single (by decide))

theorem based (b : Base) : (reading t).Carries (reading t') n R R (.ref b.ruleName) := by
  have hdigits := (h.digit n b).repetition 1 none
  have hmark : (reading t).Carries (reading t') n R R ((Abnf.lit b.mark).withCase false) :=
    h.literal (inline_mark b) n
  have hdotted : (reading t).Carries (reading t') n R R (dotted b) :=
    ((h.lit n (s := ".") (by decide)).row (hdigits.row Reading.carriesRow_nil)).sequence
  have hdashed : (reading t).Carries (reading t') n R R (dashed b) :=
    ((h.lit n (s := "-") (by decide)).row (hdigits.row Reading.carriesRow_nil)).sequence
  have hfurther : (reading t).Carries (reading t') n R R (further b) := by
    refine Reading.carries_choice fun e he => ?_
    simp only [List.mem_cons, List.not_mem_nil, or_false] at he
    rcases he with rfl | rfl
    · exact hdotted.repetition 1 none
    · exact hdashed
  exact carries_rule b.body (hmark.row (hdigits.row (hfurther.maybe.row Reading.carriesRow_nil))).sequence

theorem value : (reading t).Carries (reading t') n R R (.ref "num_val") := by
  have hpick :
      (reading t).Carries (reading t') n R R (oneOf [.ref "bin_val", .ref "dec_val", .ref "hex_val"]) := by
    refine Reading.carries_choice fun e he => ?_
    simp only [List.mem_cons, List.not_mem_nil, or_false] at he
    rcases he with rfl | rfl | rfl
    · exact h.based n .binary
    · exact h.based n .decimal
    · exact h.based n .hexadecimal
  exact carries_rule rfl ((h.lit n (s := "%") (by decide)).row (hpick.row Reading.carriesRow_nil)).sequence

theorem enclosed {opening closing : String} {a b : Char} (ha : opening.toList = [a]) (hb : closing.toList = [b])
    (hna : a ≠ '\n') (hnb : b ≠ '\n') (hin : (reading t).Carries (reading t') n R R (.ref "alternation")) :
    (reading t).Carries (reading t') (n + 1) R R (enclosed opening closing) := by
  have hopen := h.lit (n + 1) (s := opening) (by simpa [ha] using Ne.symm hna)
  have hclose := h.lit n (s := closing) (by simpa [hb] using Ne.symm hnb)
  have hrest := (h.blanks n).row (hin.row ((h.blanks n).row (hclose.row Reading.carriesRow_nil)))
  -- the opening bracket takes a character, so less is left for the alternation
  refine (hopen.then hrest fun p q ns hm => .inr ⟨Nat.le_refl _, hm.lt rfl ?_⟩).sequence
  simp [Abnf.lit, Expr.text, Expr.firm, Matcher.firm, ha]

theorem alternation : (reading t).Carries (reading t') n R R (.ref "alternation") := by
  induction n with
  | zero => exact fun _ _ _ _ hlt => absurd hlt (Nat.not_lt_zero _)
  | succ n ih =>
    have helement : (reading t).Carries (reading t') (n + 1) R R (.ref "element") := by
      refine carries_rule rfl (Reading.carries_choice fun e he => ?_)
      simp only [List.mem_cons, List.not_mem_nil, or_false] at he
      rcases he with rfl | rfl | rfl | rfl | rfl
      · exact h.rulename (n + 1)
      · exact carries_rule rfl (h.enclosed n rfl rfl (by decide) (by decide) ih)
      · exact carries_rule rfl (h.enclosed n rfl rfl (by decide) (by decide) ih)
      · exact h.quotation (n + 1)
      · exact h.value (n + 1)
    have hrepetition : (reading t).Carries (reading t') (n + 1) R R (.ref "repetition") :=
      carries_rule rfl ((h.bounds (n + 1)).maybe.row (helement.row Reading.carriesRow_nil)).sequence
    have hspaces := (h.c_wsp (n + 1)).repetition 1 none
    have hnext := (hspaces.row (hrepetition.row Reading.carriesRow_nil)).sequence
    have hconcatenation : (reading t).Carries (reading t') (n + 1) R R (.ref "concatenation") :=
      carries_rule rfl (hrepetition.row ((hnext.repetition 0 none).row Reading.carriesRow_nil)).sequence
    have hslash := h.lit (n + 1) (s := "/") (by decide)
    have hother := ((h.blanks (n + 1)).row (hslash.row ((h.blanks (n + 1)).row
      (hconcatenation.row Reading.carriesRow_nil)))).sequence
    exact carries_rule rfl (hconcatenation.row ((hother.repetition 0 none).row Reading.carriesRow_nil)).sequence

theorem elements : (reading t).Carries (reading t') n R R (.ref "elements") :=
  carries_rule rfl ((h.alternation n).row ((h.blanks n).row Reading.carriesRow_nil)).sequence

theorem operator : (reading t).Carries (reading t') n R R (.ref "defined_as") := by
  have hop : (reading t).Carries (reading t') n R R (lits ["=/", "="]) :=
    h.literal (inline_texts (["=/", "="].map String.toList) (List.cons_ne_nil _ _) (by decide)) n
  exact carries_rule rfl ((h.blanks n).row (hop.row ((h.blanks n).row Reading.carriesRow_nil))).sequence

theorem rule : (reading t).Carries (reading t') n R S (.ref "rule") :=
  carries_rule rfl ((h.rulename n).row ((h.operator n).row ((h.elements n).row ((h.c_nl n).row
    Reading.carriesRow_nil)))).sequence

theorem item (hrs : ∀ x x', R x x' → S x x') : (reading t).Carries (reading t') n R S item := by
  refine Reading.carries_choice fun e he => ?_
  simp only [List.mem_cons, List.not_mem_nil, or_false] at he
  rcases he with rfl | rfl | rfl
  · exact (h.c_wsp n).imp hrs
  · exact h.c_nl n
  · exact h.rule n

end Passage

end

end PegTree.Abnf
