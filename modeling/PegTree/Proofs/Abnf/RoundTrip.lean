import PegTree.Proofs.Abnf.Layout
import PegTree.Proofs.Abnf.Meaning
import PegTree.Proofs.Abnf.Phrases
import PegTree.Proofs.Abnf.Walk

/-!
# Written definitions are compiled to what they mean

Each definition is a tidy line, so normalization keeps the text. Each line is read as one rule, and the
rules are defined in the order of the lines.
-/

namespace PegTree.Abnf

/-! ## Tidy lines -/

section
variable {c : Char} {u : Text}

theorem visible_contains : visible.contains c = true ↔ 33 ≤ c.toNat ∧ c.toNat ≤ 126 := by
  simp [visible, CharClass.contains]

theorem not_blank_of_visible (h : visible.contains c = true) : isBlank c = false := by
  have hc := visible_contains.1 h
  simp only [isBlank, inRanges, blankRanges, List.any_cons, List.any_nil, Bool.or_false, Bool.or_eq_false_iff,
    Bool.and_eq_false_iff, decide_eq_false_iff_not]
  omega

theorem ne_lineFeed_of_visible (h : visible.contains c = true) : '\n' ≠ c := by
  rintro rfl
  exact absurd h (by decide)

theorem visible_of_nameChar (h : nameChar.contains c = true) : visible.contains c = true := by
  rw [visible_contains]
  simp [nameChar, letter, CharClass.contains] at h
  omega

theorem visible_of_digit {base : Nat} (hb : base ≤ 16) (h : isDigitOf base c = true) :
    visible.contains c = true := by
  rw [visible_contains]
  rw [isDigitOf_iff hb] at h
  omega

theorem tidy_of_visible (hne : u ≠ []) (hu : ∀ c ∈ u, visible.contains c = true) : Tidy u where
  inner hm := ne_lineFeed_of_visible (hu _ hm) rfl
  first := by
    obtain ⟨c, v, rfl⟩ := List.exists_cons_of_ne_nil hne
    exact ⟨c, v, rfl, not_blank_of_visible (hu c (by simp))⟩
  last := by
    refine ⟨u.dropLast, u.getLast hne, (List.dropLast_concat_getLast hne).symm, ?_⟩
    exact not_blank_of_visible (hu _ (List.getLast_mem hne))

end

theorem Name.tidy (n : Name) : Tidy n.written := by
  refine tidy_of_visible (List.cons_ne_nil _ _) fun c hc => visible_of_nameChar ?_
  rcases List.mem_cons.1 hc with rfl | hc
  · simp [nameChar, CharClass.contains, n.head_letter]
  · exact n.tail_nameChar c hc

theorem Numeral.visible {base : Nat} (hb : base ≤ 16) (n : Numeral base) :
    ∀ c ∈ n.digits, visible.contains c = true :=
  fun c hc => visible_of_digit hb (n.isDigit c hc)

theorem Bounds.tidy (b : Bounds) : Tidy b.written := by
  have hdigits : ∀ (n : Option Count), ∀ c ∈ digitsOf n, visible.contains c = true := by
    intro n
    cases n with
    | none => simp [digitsOf]
    | some n => exact n.visible (by decide)
  cases b with
  | exactly n => exact tidy_of_visible n.nonempty (n.visible (by decide))
  | within low high h =>
    refine tidy_of_visible (by simp [written]) fun c hc => ?_
    simp only [written, List.mem_append, List.mem_cons] at hc
    rcases hc with hc | rfl | hc
    · exact hdigits low c hc
    · decide
    · exact hdigits high c hc

theorem Numerals.visible {base : Nat} (hb : base ≤ 16) (n : Numerals base) :
    ∀ c ∈ n.written, visible.contains c = true := by
  intro c hc
  cases n with
  | row first more =>
    simp only [written, dots, List.mem_append, List.mem_flatMap, List.mem_cons] at hc
    rcases hc with hc | ⟨d, _, rfl | hc⟩
    · exact first.visible hb c hc
    · decide
    · exact d.visible hb c hc
  | span low high =>
    simp only [written, List.mem_append, List.mem_cons] at hc
    rcases hc with hc | rfl | hc
    · exact low.visible hb c hc
    · decide
    · exact high.visible hb c hc

theorem ValueLexeme.tidy (l : ValueLexeme) : Tidy l.written := by
  refine tidy_of_visible (List.cons_ne_nil _ _) fun c hc => ?_
  simp only [written, List.mem_cons] at hc
  rcases hc with rfl | rfl | hc
  · decide
  · generalize l.base = b
    cases b <;> cases l.capital <;> decide
  · exact l.numerals.visible l.base.radix_le c hc

theorem Value.tidy (v : Value) : Tidy v.written := v.written_lexeme ▸ v.lexeme.tidy

theorem Tidy.between {u : Text} {a b : Char} (hu : '\n' ∉ u) (ha : visible.contains a = true)
    (hb : visible.contains b = true) : Tidy (a :: (u ++ [b])) := by
  have hsole : ∀ {c : Char}, visible.contains c = true → Tidy [c] := fun h =>
    tidy_of_visible (List.cons_ne_nil _ _) (by simpa using h)
  exact (hsole ha).append (hsole hb) hu

theorem Quotation.tidy (q : Quotation) : Tidy q.written := by
  refine .between (fun hm => ?_) (by decide) (by decide)
  exact absurd (q.isQuotable _ hm) (by decide)

mutual
theorem Element.tidy (e : Element) : Tidy e.written := by
  match e with
  | .name n => simpa [Element.written] using n.tidy
  | .group a =>
    rw [Element.written]
    exact .between a.tidy.inner (by decide) (by decide)
  | .option a =>
    rw [Element.written]
    exact .between a.tidy.inner (by decide) (by decide)
  | .quotation q => simpa [Element.written] using q.tidy
  | .value v => simpa [Element.written] using v.tidy
theorem Repetition.tidy (r : Repetition) : Tidy r.written := by
  match r with
  | .mk none e => simpa [Repetition.written] using e.tidy
  | .mk (some b) e => simpa [Repetition.written] using b.tidy.append (l := []) e.tidy (by simp)
theorem Concatenation.tidy (c : Concatenation) : Tidy c.written := by
  match c with
  | .sole r => simpa [Concatenation.written] using r.tidy
  | .more r c => simpa [Concatenation.written] using r.tidy.append (l := [' ']) c.tidy (by decide)
theorem Alternation.tidy (a : Alternation) : Tidy a.written := by
  match a with
  | .sole c => simpa [Alternation.written] using c.tidy
  | .more c a => simpa [Alternation.written] using c.tidy.append (l := [' ', '/', ' ']) a.tidy (by decide)
end

theorem Definition.tidy (seen : List String) (d : Definition) : Tidy (d.line seen) := by
  have hop : '\n' ∉ ' ' :: (d.operator seen ++ [' ']) := by
    unfold operator
    split <;> decide
  simpa [line] using d.name.tidy.append d.rhs.tidy hop

theorem writtenLines_tidy (seen : List String) (ds : List Definition) : ∀ l ∈ writtenLines seen ds, Tidy l := by
  induction ds generalizing seen with
  | nil => simp [writtenLines]
  | cons d ds ih =>
    rw [writtenLines, List.forall_mem_cons]
    exact ⟨d.tidy seen, ih _⟩

/-! ## Rules -/

section
variable {t y : Text}

theorem Definition.operator_cases (seen : List String) (d : Definition) :
    d.operator seen = ['='] ∨ d.operator seen = ['=', '/'] := by
  unfold operator
  split
  · exact .inr rfl
  · exact .inl rfl

theorem reads_elements (a : Alternation) (hy : ∀ c ∈ y.head?, c ∉ [' ', '\t']) :
    (reading t).Reads (.ref "elements") a.written ('\n' :: y)
      (Lone "elements" fun n => n.text = a.written ∧ alternationIn n.tag n.children = .ok a.expr) := by
  have hbare : Bare ('\n' :: y) := .line_feed hy
  have hrow := (reads_alternation (t := t) a ⟨hbare, '\n', y, rfl, by simp⟩).alone (reads_nothing hbare).last
  refine (reads_rule rfl rfl hrow.sequence).imp fun _ hl => hl.imp fun n hn => ?_
  obtain ⟨htext, m, hm, hname, ha⟩ := hn
  exact ⟨htext, (alternationIn_sole hm hname).trans ha⟩

/-- A rule has a right-hand side, and is defined by its name, its operator and what the walk over that gives. -/
def Defines (m : Name) (op u : Text) (r : Except Error Expr) (n : Node) : Prop :=
  (∃ c, child n "elements" = .ok c ∧ c.text = u) ∧
    ∀ ds : Definitions, ds.addRule n = r >>= ds.define m.label (String.ofList op)

theorem reads_ruleLine (m : Name) {op u : Text} {r : Except Error Expr} (hop : op = ['='] ∨ op = ['=', '/'])
    (hu : Bare (u ++ '\n' :: y))
    (h : (reading t).Reads (.ref "elements") u ('\n' :: y)
      (Lone "elements" fun n => n.text = u ∧ alternationIn n.tag n.children = r)) :
    (reading t).Reads (.ref "rule") (m.written ++ ' ' :: (op ++ ' ' :: u) ++ ['\n']) y
      (Lone "rule" (Defines m op u r)) := by
  have hend : (reading t).Reads (.ref "c_nl") ['\n'] y (· = []) := reads_lineEnd (by simp) rfl
  have hop' := (reads_operator (t := t) (y := u ++ ['\n'] ++ y) hop (by simpa using hu)).row (h.row hend.last)
  have hname := (reads_name (t := t) m (y := ' ' :: (op ++ [' ']) ++ (u ++ ['\n']) ++ y)
    (fun c hc => by cases hc; decide)).row hop'
  have hline : m.written ++ ' ' :: (op ++ ' ' :: u) ++ ['\n'] =
      m.written ++ (' ' :: (op ++ [' ']) ++ (u ++ ['\n'])) := by simp
  rw [hline]
  refine (reads_rule rfl rfl hname.sequence).imp fun _ hl => hl.imp fun n hn => ?_
  obtain ⟨_, _, _, ⟨n₁, rfl, h₁, ht₁⟩, ⟨_, _, ⟨n₂, rfl, h₂, ht₂⟩, hlast, rfl⟩, hc⟩ := hn
  obtain ⟨_, _, ⟨n₃, rfl, h₃, ht₃, he⟩, rfl, rfl⟩ := hlast
  refine ⟨⟨n₃, (child_of_children hc h₁ h₂ h₃).2.2, ht₃⟩, fun ds => ?_⟩
  have ht := operator_solid hop
  rw [addRule_children hc h₁ h₂ h₃, he, ht₁, ht₂, trim_spaces ht]
  rfl

/-! ## Lists of rules -/

theorem stalls_at_letter {c : Char} {z : Text} (hc : letter.contains c = true) :
    (reading t).Stalls (.ref "c_wsp") (c :: z) ∧ (reading t).Stalls (.ref "c_nl") (c :: z) :=
  ⟨stalls_layout (.of_head (not_mem_of_contains hc (by decide))),
    stalls_lineEnd (not_mem_of_contains hc (by decide))⟩

theorem reads_item (m : Name) {op u : Text} {r : Except Error Expr} (hop : op = ['='] ∨ op = ['=', '/'])
    (hu : Bare (u ++ '\n' :: y))
    (h : (reading t).Reads (.ref "elements") u ('\n' :: y)
      (Lone "elements" fun n => n.text = u ∧ alternationIn n.tag n.children = r)) :
    (reading t).Reads item (m.written ++ ' ' :: (op ++ ' ' :: u) ++ ['\n']) y
      (Lone "rule" (Defines m op u r)) := by
  obtain ⟨hlayout, hend⟩ := stalls_at_letter m.head_letter
  exact hlayout.choice (hend.choice (reads_ruleLine m hop hu h).choice)

theorem reads_item_end : (reading t).Reads item [] [] (· = []) := by
  have hlayout : (reading t).Stalls (.ref "c_wsp") [] := stalls_layout ⟨by simp, by simp⟩
  have hend : (reading t).Reads (.ref "c_nl") [] [] (· = []) := reads_lineEnd (by simp) rfl
  exact hlayout.choice hend.choice

theorem runs_items (seen : List String) (ds : List Definition) :
    ∃ k, (reading t).Runs item ((writtenLines seen ds).flatMap (· ++ ['\n'])) [] k fun ns => ∀ m : Definitions,
      addRules m ns = bindAll seen ds m := by
  induction ds generalizing seen with
  | nil =>
    refine ⟨1, reads_item_end.still.imp fun ns hns m => ?_⟩
    subst hns
    rfl
  | cons d ds ih =>
    obtain ⟨k, hruns⟩ := ih (d.label :: seen)
    have hnext : ∀ c ∈ ((writtenLines (d.label :: seen) ds).flatMap (· ++ ['\n']) ++ []).head?,
        c ∉ [' ', '\t'] := by
      intro c hc
      cases ds with
      | nil => cases hc
      | cons d' ds =>
        cases hc
        exact not_mem_of_contains d'.name.head_letter (by decide)
    have hitem := reads_item d.name (d.operator_cases seen) (bare_of_starts d.rhs.starts)
      (reads_elements (t := t) d.rhs hnext)
    have hall := hitem.runs (by simp) hruns
    refine ⟨k + 1, hall.imp fun ns hns m => ?_⟩
    obtain ⟨_, ms, ⟨n, rfl, hn, _, hadd⟩, hms, rfl⟩ := hns
    rw [addRules_append, addRules_rule m hn, hadd, bindAll]
    exact bind_congr fun m' => hms m'

end

/-- Whatever the definitions, their written form is compiled, and to just what they mean. -/
theorem compile_written (ds : List Definition) : compile (written ds) = .ok (meaning ds) := by
  have hnorm : normalize (written ds) = written ds := normalize_tidy (writtenLines_tidy [] ds)
  obtain ⟨k, hruns⟩ := runs_items (t := written ds) [] ds
  have hstart : (reading (written ds)).input.suffix? 0 = some (written ds ++ []) :=
    Input.suffix?_eq_some_iff.2 ⟨[], (List.append_nil _).symm, rfl⟩
  obtain ⟨ns, hm, hns⟩ := hruns.many 0 hstart
  have hend := Input.rest_of_suffix? (Input.suffix?_add hstart)
  rw [compile_items hnorm hm hend, hns, bindAll_start]

end PegTree.Abnf
