import PegTree.Proofs.Abnf.Spacing

/-!
# Numeric values match their characters

A numeric value is compiled to a terminal that takes the very characters that the value stands for, whatever the
case rule around it. Values without characters are refused, also where a text is one rule with such a value.
-/

namespace PegTree

open Eval

/-! ## Terminals -/

theorem Expr.eval_terminal {σ : Type} {s : Scope σ} {st : σ} {p : Nat} {m : Matcher} {caseSensitive : Bool}
    {L : Text → Prop} (hs : s.options.stripWhitespace = false) (hp : s.input.isBoundary p = true)
    (hL : ∀ y u, m.leading? caseSensitive y = some u ↔ L u ∧ ∃ z, y = u ++ z) :
    ∃ n, (Expr.literal false [m] (some caseSensitive)).eval s p st = (.ok n, st) ∧
      ∀ q x, n.stop = some q ∧ n.text = x ↔ s.input.Span p q x ∧ L x := by
  have hl := Scope.literal_apply hs (Input.suffix?_of_isBoundary hp) [m] (some caseSensitive)
  rw [Option.getD_some, firstLeading?_single] at hl
  have hfound : ∀ {q x}, s.input.Span p q x → L x → m.leading? caseSensitive (s.input.rest p) = some x :=
    fun hspan hx => (hL _ _).2 ⟨hx, hspan.rest⟩
  cases hu : m.leading? caseSensitive (s.input.rest p) with
  | some u =>
    rw [hu] at hl
    refine ⟨_, by rw [Expr.eval, hl, ofExcept_apply], fun q x => ⟨?_, fun ⟨hspan, hx⟩ => ?_⟩⟩
    · rintro ⟨hq, rfl⟩
      obtain ⟨hLu, z, hz⟩ := (hL _ _).1 hu
      cases hq
      exact ⟨.of_rest hp hz, hLu⟩
    · cases hu.symm.trans (hfound hspan hx)
      exact ⟨congrArg some hspan.byteSize_eq.symm, rfl⟩
  | none =>
    rw [hu] at hl
    refine ⟨_, by rw [Expr.eval, hl, ofExcept_apply], fun q x => ⟨fun h => ?_, fun ⟨hspan, hx⟩ => ?_⟩⟩
    · cases h.1
    · cases hu.symm.trans (hfound hspan hx)

namespace Abnf

/-! ## What values stand for -/

namespace Numerals

variable {base : Nat}

def Denotes : Numerals base → Text → Prop
  | row first more, x => x.map Char.toNat = (first :: more).map (·.value)
  | span low high, x => ∃ c, x = [c] ∧ low.value ≤ c.toNat ∧ c.toNat ≤ high.value

def Ordered : Numerals base → Prop
  | row _ _ => True
  | span low high => low.value ≤ high.value

instance : (n : Numerals base) → Decidable n.Ordered
  | row _ _ => inferInstanceAs (Decidable True)
  | span low high => inferInstanceAs (Decidable (low.value ≤ high.value))

end Numerals

theorem map_toNat_inj {x y : Text} : x.map Char.toNat = y.map Char.toNat ↔ x = y :=
  (List.map_injective_iff.2 fun _ _ => Char.toNat_inj.1).eq_iff

theorem exists_chars {codes : List Nat} (h : ∀ n ∈ codes, n.isValidChar) :
    ∃ cs : Text, codes = cs.map Char.toNat := by
  refine ⟨codes.map Char.ofNat, ?_⟩
  rw [List.map_map]
  exact (List.map_id codes).symm.trans (List.map_congr_left fun n hn => (toNat_ofNat (h n hn)).symm)

theorem rangePattern_leading {low high : Char} {h : low.toNat ≤ high.toNat} {y u : Text} :
    (rangePattern low high h).exact.leading? y = some u ↔
      (∃ c, u = [c] ∧ low.toNat ≤ c.toNat ∧ c.toNat ≤ high.toNat) ∧ ∃ z, y = u ++ z := by
  have hl : (rangePattern low high h).exact.leading? y = _ := Regex.leading?_single
  have hc : ∀ c, CharClass.contains (.union .nothing (.range low high)) c = true ↔
      low.toNat ≤ c.toNat ∧ c.toNat ≤ high.toNat := fun c => by simp [CharClass.contains]
  rw [hl]
  constructor
  · intro hu
    split at hu
    · split_ifs at hu with hcontains
      cases hu
      exact ⟨⟨_, rfl, (hc _).1 hcontains⟩, _, rfl⟩
    · cases hu
  · rintro ⟨⟨c, rfl, hrange⟩, z, rfl⟩
    exact if_pos ((hc c).2 hrange)

theorem lt_of_isValidChar {n : Nat} (h : n.isValidChar) : n < 2 ^ 32 := by
  unfold Nat.isValidChar at h
  omega

namespace ValueLexeme

variable {l : ValueLexeme}

def Denotes (l : ValueLexeme) : Text → Prop := l.numerals.Denotes

/-- Each numeral is the code of a character, and a range has characters in it. -/
def Legal (l : ValueLexeme) : Prop := (∀ n ∈ l.numerals.parts, n.value.isValidChar) ∧ l.numerals.Ordered

instance (l : ValueLexeme) : Decidable l.Legal :=
  inferInstanceAs (Decidable ((∀ n ∈ l.numerals.parts, n.value.isValidChar) ∧ l.numerals.Ordered))

theorem Legal.small (h : l.Legal) : l.Small := fun n hn => lt_of_isValidChar (h.1 n hn)

theorem Legal.compiled (h : l.Legal) : ∃ m, numVal l.written = .ok (.literal false [m] (some true)) ∧
    ∀ y u, m.leading? true y = some u ↔ l.Denotes u ∧ ∃ z, y = u ++ z := by
  have hd := decodeNumVal_written h.small
  obtain ⟨b, capital, ⟨first, more⟩ | ⟨low, high⟩⟩ := l
  · obtain ⟨cs, hcs⟩ := exists_chars (List.forall_mem_map.2 h.1)
    refine ⟨.text cs, numVal_codes (hd.trans (congrArg (Except.ok ∘ NumVal.codes) hcs)), fun y u => ?_⟩
    have hden : Denotes ⟨b, capital, .row first more⟩ u ↔ u = cs := by
      show u.map Char.toNat = (first :: more).map (·.value) ↔ _
      rw [← map_toNat_inj, ← hcs]
      rfl
    rw [hden]
    constructor
    · intro hu
      exact ⟨eq_of_leadingText? hu, leadingText?_append hu⟩
    · rintro ⟨rfl, z, rfl⟩
      exact leadingText?_self u z
  · obtain ⟨hchars, hle⟩ := h
    obtain ⟨hlow, hhigh⟩ := List.forall_mem_cons.1 hchars
    have hhigh := hhigh high (List.mem_singleton.2 rfl)
    have hle : low.value ≤ high.value := hle
    rw [← toNat_ofNat hlow, ← toNat_ofNat hhigh] at hle
    have hd : decodeNumVal (ValueLexeme.written ⟨b, capital, .span low high⟩) =
        .ok (.range (Char.ofNat low.value).toNat (Char.ofNat high.value).toNat) := by
      rw [toNat_ofNat hlow, toNat_ofNat hhigh]
      exact hd
    refine ⟨_, numVal_range hd hle, fun y u => ?_⟩
    have hfound := rangePattern_leading (h := hle) (y := y) (u := u)
    rw [toNat_ofNat hlow, toNat_ofNat hhigh] at hfound
    exact hfound

end ValueLexeme

theorem charOf_valid {n : Nat} (h : n.isValidChar) : charOf n = .ok (Char.ofNat n) := by
  rw [charOf, charOfCode?, if_pos h]

theorem charOf_invalid {n : Nat} (h : ¬ n.isValidChar) : charOf n = .error (.invalidValue (.noCharacter n)) := by
  rw [charOf, charOfCode?, if_neg h]

theorem mapM_charOf_invalid {codes : List Nat} (h : ∃ n ∈ codes, ¬ n.isValidChar) :
    ∃ n ∈ codes, ¬ n.isValidChar ∧ codes.mapM charOf = .error (.invalidValue (.noCharacter n)) := by
  induction codes with
  | nil => simp at h
  | cons k codes ih =>
    rw [List.mapM_cons]
    by_cases hk : k.isValidChar
    · have hmore : ∃ n ∈ codes, ¬ n.isValidChar := by
        obtain ⟨n, hn, hinvalid⟩ := h
        exact ⟨n, List.mem_of_ne_of_mem (fun he => hinvalid (he ▸ hk)) hn, hinvalid⟩
      obtain ⟨n, hn, hinvalid, hm⟩ := ih hmore
      refine ⟨n, List.mem_cons_of_mem _ hn, hinvalid, ?_⟩
      rw [hm, charOf_valid hk]
      rfl
    · refine ⟨k, List.mem_cons_self, hk, ?_⟩
      rw [charOf_invalid hk]
      rfl

/-- What a value without characters is blamed for: one of its numerals, or all of it as a range. -/
def ValueLexeme.Blamed (l : ValueLexeme) : InvalidValue → Prop
  | .noCharacter code => ¬ code.isValidChar ∧ ∃ n ∈ l.numerals.parts, n.value = code
  | .emptyRange t => ¬ l.numerals.Ordered ∧ t = l.written
  | .emptyBounds _ => False

theorem numVal_illegal {l : ValueLexeme} (h : l.Small) (hs : ¬ l.Legal) :
    ∃ v, numVal l.written = .error (.invalidValue v) ∧ l.Blamed v := by
  have hd := decodeNumVal_written h
  unfold numVal
  rw [hd]
  obtain ⟨b, capital, ⟨first, more⟩ | ⟨low, high⟩⟩ := l
  · have hbad : ∃ n ∈ (first :: more).map (·.value), ¬ n.isValidChar := by
      by_contra hall
      refine hs ⟨fun n hn => ?_, trivial⟩
      by_contra hn'
      exact hall ⟨n.value, List.mem_map_of_mem hn, hn'⟩
    obtain ⟨n, hn, hinvalid, hm⟩ := mapM_charOf_invalid hbad
    refine ⟨.noCharacter n, ?_, hinvalid, List.mem_map.1 hn⟩
    show (((first :: more).map (·.value)).mapM charOf >>= _) = _
    rw [hm]
    rfl
  · simp only [ValueLexeme.value, Numerals.value, Except.mapError, bind, Except.bind]
    by_cases hlow : low.value.isValidChar
    · by_cases hhigh : high.value.isValidChar
      · have hordered : ¬ low.value ≤ high.value := fun hle =>
          hs ⟨List.forall_mem_cons.2 ⟨hlow, List.forall_mem_singleton.2 hhigh⟩, hle⟩
        have hlt := Nat.not_le.1 hordered
        refine ⟨.emptyRange _, ?_, hordered, rfl⟩
        simp only [charOf_valid hlow, charOf_valid hhigh, toNat_ofNat hlow, toNat_ofNat hhigh, if_pos hlt]
        rfl
      · refine ⟨.noCharacter high.value, ?_, hhigh, high, by simp [Numerals.parts], rfl⟩
        simp only [charOf_valid hlow, charOf_invalid hhigh]
    · refine ⟨.noCharacter low.value, ?_, hlow, low, by simp [Numerals.parts], rfl⟩
      simp only [charOf_invalid hlow]

/-! ## Values alone on the right-hand side -/

section
variable {t w y z : Text}

def Ending (z : Text) : Prop := ∀ c ∈ z.head?, c ∈ [';', '\r', '\n']

theorem Layout.past (hw : Layout w) (hz : Ending z) (b : Base) : Past b (w ++ z) := by
  have hend : [' ', '\t', ';', '\r', '\n'].all (fun c => !isDigitOf b.radix c && c != '.' && c != '-') = true := by
    cases b <;> decide
  intro c hc
  have hmem : c ∈ [' ', '\t', ';', '\r', '\n'] := by
    cases w with
    | nil => exact List.mem_cons_of_mem _ (List.mem_cons_of_mem _ (hz c hc))
    | cons d w => exact hw.head c hc
  simpa [and_assoc] using List.all_eq_true.1 hend c hmem

theorem reads_valueAlternation (l : ValueLexeme) (hy : Past l.base y) (hf : (reading t).Stalls following y)
    (ha : (reading t).Stalls alternative y) : (reading t).Reads (.ref "alternation") l.written y
      (Lone "alternation" (alternation · = numVal l.written)) := by
  have hopen : ∀ c ∈ (l.written ++ y).head?, decimal.contains c = false ∧ c ≠ '*' := fun c hc => by
    cases hc
    decide
  have hbounds := (stalls_bounds (t := t) hopen).maybe.row (reads_valueElement l hy).last
  rw [List.nil_append] at hbounds
  have hrepetition : (reading t).Reads (.ref "repetition") l.written y
      (Lone "repetition" (repetition · = numVal l.written)) := by
    refine (reads_rule rfl rfl hbounds.sequence).imp fun _ hl => hl.imp fun n hn => ?_
    obtain ⟨_, _, _, rfl, ⟨m, rfl, hm, he⟩, hchildren⟩ := hn
    exact (repetition_sole hchildren hm).trans he
  have hconcatenation : (reading t).Reads (.ref "concatenation") l.written y
      (Lone "concatenation" (concatenation · = some <$> numVal l.written)) := by
    refine (reads_rule rfl rfl (hrepetition.alone hf.runs.many.last).sequence).imp fun _ hl =>
      hl.imp fun n hn => ?_
    obtain ⟨_, m, hchildren, hm, he⟩ := hn
    rw [concatenation_sole hchildren hm, he]
  refine (reads_rule rfl rfl (hconcatenation.alone ha.runs.many.last).sequence).imp fun _ hl =>
    hl.imp fun n hn => ?_
  obtain ⟨_, m, hchildren, hm, he⟩ := hn
  exact alternation_sole hchildren hm he

theorem reads_valueElements (l : ValueLexeme) (hw : Layout w) (hstop : (reading t).Stalls (.ref "c_wsp") z)
    (hz : Ending z) : (reading t).Reads (.ref "elements") (l.written ++ w) z
      (Lone "elements" fun n => n.text = l.written ++ w ∧ alternationIn n.tag n.children = numVal l.written) := by
  obtain ⟨k, hruns, hk⟩ := hw.runs hstop
  have hending : ∀ c ∈ z.head?, starting.contains c = false :=
    fun c hc => not_contains_of_mem (by decide) (hz c hc)
  have hfollowing : (reading t).Stalls following (w ++ z) := by
    by_cases hne : w = []
    · subst hne
      exact hstop.many1.sequence
    · obtain ⟨j, rfl⟩ := hk hne
      exact hruns.many1.stalls (stalls_repetition hending).sequence
  have halternative : (reading t).Stalls alternative (w ++ z) := by
    refine hruns.many.stalls (stalls_lit rfl fun c hc => ?_).sequence
    rintro rfl
    exact absurd (hz _ hc) (by decide)
  have hrow := (reads_valueAlternation l (hw.past hz l.base) hfollowing halternative).row hruns.many.last
  refine (reads_rule rfl rfl hrow.sequence).imp fun _ hl => hl.imp fun n hn => ?_
  obtain ⟨htext, _, _, ⟨m, rfl, hm, he⟩, rfl, hchildren⟩ := hn
  exact ⟨htext, (alternationIn_sole hchildren hm).trans he⟩

def SoleRule (t rhs : Text) : Prop := ∃ tree n es w, parseTree (normalize t) = .ok tree ∧
  tree.childrenNamed "rule" = [n] ∧ child n "elements" = .ok es ∧ es.text = rhs ++ w ∧ Layout w

theorem ending_of_lineEnd {p q : Nat} {ns : List Node} (h : (reading t).Matches (.ref "c_nl") p q ns)
    (hp : (reading t).input.suffix? p = some z) : Ending z := by
  intro c hc
  by_contra hn
  cases z with
  | nil => cases hc
  | cons d z =>
    cases hc
    exact h.not_refuses rfl (stalls_lineEnd hn p hp)

/-- The walk over the right-hand side of a rule that has been read, where that is a value and layout. -/
theorem RuleRead.value {p m₁ m₂ m₃ q : Nat} {n n₁ n₂ n₃ : Node} (h : RuleRead t p m₁ m₂ m₃ q n n₁ n₂ n₃)
    {l : ValueLexeme} (htext : n₃.text = l.written ++ w) (hw : Layout w) :
    alternationIn n₃.tag n₃.children = numVal l.written := by
  obtain ⟨_, _, hspan⟩ := matches_node rfl rfl h.reads₃
  obtain ⟨z, hz⟩ := hspan.rest
  have hx := Input.suffix?_of_isBoundary h.reads₃.1
  rw [hz] at hx
  have hafter := Input.suffix?_add hx
  rw [← hspan.byteSize_eq] at hafter
  -- no gap follows what was read, so the value and the layout after it are read the same way up to there
  obtain ⟨_, _, hbody, _⟩ := (matches_body rfl rfl).1 h.reads₃
  obtain ⟨_, _, _, _, ⟨_, _, _, hblanks, ⟨_, rfl, _⟩, _⟩, _⟩ := Reading.matches_sequence.1 hbody
  have hstop := (refuses_after_blanks hblanks).stalls hafter
  rw [htext] at hx
  obtain ⟨_, hm, n, rfl, _, _, hwalk⟩ := reads_valueElements l hw hstop (ending_of_lineEnd h.ends hafter) _ hx
  cases List.singleton_inj.1 (hm.unique rfl h.reads₃).2
  exact hwalk

theorem compile_sole {l : ValueLexeme} (h : SoleRule t l.written) : ∃ name operator,
    compile t = numVal l.written >>= ({} : Definitions).define name operator := by
  obtain ⟨tree, n, es, w, htree, hrule, hchild, htext, hw⟩ := h
  rcases parseTree_cases (normalize t) with ⟨q, _, hq⟩ | ⟨x, q, ns, hm, _, hq⟩
  · cases hq.symm.trans htree
  · cases hq.symm.trans htree
    have hmem := (rule_mem (n := n) (by rw [hrule]; exact List.mem_singleton.2 rfl)).1
    obtain ⟨k, hrep⟩ := Reading.matches_many.1 hm
    obtain ⟨_, _, _, hitem, hn, _⟩ := hrep.mem hmem
    obtain ⟨_, _, _, _, n₁, n₂, n₃, hsole, r⟩ := rule_read (item_rule hitem hn).1
    cases List.singleton_inj.1 hsole
    have hes := (child_of_children r.children r.name₁ r.name₂ r.name₃).2.2
    cases Except.ok.inj (hes.symm.trans hchild)
    refine ⟨String.ofList n₁.text, String.ofList (trim n₂.text), ?_⟩
    unfold compile
    rw [htree]
    show List.foldlM Definitions.addRule {} (Node.childrenNamed _ "rule") = _
    rw [hrule, List.foldlM_cons, addRule_children r.children r.name₁ r.name₂ r.name₃, r.value htext hw]
    exact bind_pure _

end

/-! ## Values on lines -/

def ruleLine (m : Name) (rhs : Text) : Text := m.written ++ ' ' :: (['='] ++ ' ' :: rhs) ++ ['\n']

section
variable (m : Name) (l : ValueLexeme)

theorem normalize_ruleLine : normalize (ruleLine m l.written) = ruleLine m l.written := by
  have htidy : Tidy (m.written ++ ([' ', '=', ' '] ++ l.written)) := m.tidy.append l.tidy (by decide)
  simpa [ruleLine] using normalize_tidy (List.forall_mem_singleton.2 htidy)

theorem ruleLine_read : ∃ q n, (reading (ruleLine m l.written)).Matches item.many 0 q [n] ∧
    (reading (ruleLine m l.written)).input.rest q = [] ∧ n.name? = some "rule" ∧
    Defines m ['='] l.written (numVal l.written) n := by
  have hbare : Bare ['\n'] := .line_feed (by simp)
  have helements := reads_valueElements (t := ruleLine m l.written) l .nil (stalls_layout hbare)
    (by simp [Ending])
  rw [List.append_nil] at helements
  have hitem := reads_item m (.inl rfl) (bare_of_starts ⟨'%', _, rfl, by decide⟩) helements
  have hstart : (reading (ruleLine m l.written)).input.suffix? 0 = some (ruleLine m l.written ++ []) :=
    Input.suffix?_eq_some_iff.2 ⟨[], (List.append_nil _).symm, rfl⟩
  have hruns := (hitem.runs (by simp) reads_item_end.still).many
  rw [List.append_nil] at hruns
  obtain ⟨_, hm, _, _, ⟨n, rfl, hn, hdefines⟩, rfl, rfl⟩ := hruns 0 hstart
  exact ⟨_, n, hm, Input.rest_of_suffix? (Input.suffix?_add hstart), hn, hdefines⟩

theorem sole_ruleLine : SoleRule (ruleLine m l.written) l.written := by
  obtain ⟨q, n, hm, hq, hn, ⟨c, hc, htext⟩, _⟩ := ruleLine_read m l
  obtain ⟨x, htree⟩ := parseTree_all hm hq
  refine ⟨_, n, c, [], (normalize_ruleLine m l).symm ▸ htree, ?_, hc, by rw [htext, List.append_nil], .nil⟩
  show [n, _].filter (·.name? == some "rule") = [n]
  rw [List.filter_cons_of_pos (by simp [hn])]
  rfl

theorem compile_ruleLine : compile (ruleLine m l.written) = (fun e => ⟨[(m.label, e)]⟩) <$> numVal l.written := by
  obtain ⟨q, n, hm, hq, hn, _, hadd⟩ := ruleLine_read m l
  rw [compile_items (normalize_ruleLine m l) hm hq, addRules_rule _ hn, hadd]
  cases numVal l.written <;> rfl

end

/-- A numeric value whose numerals are codes of characters is compiled to a terminal that takes just the texts
that the value stands for, at any place of any input. With other codes, or with a range that has nothing in
it, a text of one rule is refused for the value. -/
theorem terminals_exact (l : ValueLexeme) :
    (l.Legal → ∃ e, numVal l.written = .ok e ∧
      (∀ m : Name, compile (ruleLine m l.written) = .ok ⟨[(m.label, e)]⟩) ∧
      ∀ {σ : Type} (s : Scope σ) (st : σ) (p : Nat), s.options.stripWhitespace = false →
        s.input.isBoundary p = true → ∃ n, e.eval s p st = (.ok n, st) ∧
          ∀ q x, n.stop = some q ∧ n.text = x ↔ s.input.Span p q x ∧ l.Denotes x) ∧
    (l.Small → ¬ l.Legal → ∀ t, SoleRule t l.written →
      ∃ v, compile t = .error (.invalidValue v) ∧ l.Blamed v) ∧
    ∀ m : Name, SoleRule (ruleLine m l.written) l.written := by
  refine ⟨fun h => ?_, fun hsmall hs t ht => ?_, fun m => sole_ruleLine m l⟩
  · obtain ⟨m, hm, hL⟩ := h.compiled
    refine ⟨_, hm, fun name => ?_, fun s st p hs hp => Expr.eval_terminal hs hp hL⟩
    rw [compile_ruleLine, hm]
    rfl
  · obtain ⟨v, hv, hblamed⟩ := numVal_illegal hsmall hs
    obtain ⟨name, operator, hc⟩ := compile_sole ht
    rw [hv] at hc
    exact ⟨v, hc, hblamed⟩

/-- A range over the gap of the surrogates has the character after the gap, and a surrogate is refused. -/
theorem terminals_exact_surrogates :
    (∃ e, compile "a = %xd7FF-E000\n".toList = .ok ⟨[("a", e)]⟩ ∧
      ∃ n, e.eval (.plain (.ofText ['\uE000']) { stripWhitespace := false }) 0 () = (.ok n, ()) ∧
        n.stop = some 3) ∧
    ∃ v, compile "a = %xd800\n".toList = .error (.invalidValue v) := by
  let name : Name := ⟨'a', [], by decide, List.forall_mem_nil _⟩
  let gap : ValueLexeme := ⟨.hexadecimal, false, .span ⟨"d7FF".toList, by decide, List.all_eq_true.1 (by decide)⟩
    ⟨"E000".toList, by decide, List.all_eq_true.1 (by decide)⟩⟩
  let surrogate : ValueLexeme :=
    ⟨.hexadecimal, false, .row ⟨"d800".toList, by decide, List.all_eq_true.1 (by decide)⟩ []⟩
  constructor
  · obtain ⟨e, _, hline, hmatch⟩ := (terminals_exact gap).1 (by decide)
    obtain ⟨n, hn, htakes⟩ := hmatch (.plain (.ofText ['\uE000']) { stripWhitespace := false }) () 0 rfl
      (Input.isBoundary_zero _)
    refine ⟨e, hline name, n, hn, ((htakes 3 ['\uE000']).2 ⟨⟨[], [], rfl, rfl, rfl⟩, '\uE000', rfl, ?_, ?_⟩).1⟩
    · decide
    · decide
  · obtain ⟨_, hrefused, hsole⟩ := terminals_exact surrogate
    obtain ⟨v, hv, _⟩ := hrefused (by decide) (by decide) _ (hsole name)
    exact ⟨v, hv⟩

end Abnf

end PegTree
