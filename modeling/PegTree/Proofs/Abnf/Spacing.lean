import PegTree.Proofs.Abnf.Operator
import PegTree.Proofs.Abnf.Passage
import PegTree.Proofs.Abnf.RoundTrip

/-!
# The layout around an operator

Where single spaces take the place of the layout around the operator of a rule, the items before the
rule and what follows the operator are read as before. So the text is compiled to the same definitions,
if there was no comment in the layout.
-/

namespace PegTree.Abnf

section
variable {t e w y z : Text} {p q : Nat} {ns : List Node}

/-! ## Reading layout -/

theorem reads_blank {c : Char} (hc : c ∈ [' ', '\t']) : (reading t).Reads blank [c] y Silent := by
  have hc' : c = ' ' ∨ c = '\t' := by simpa using hc
  rcases hc' with rfl | rfl <;> exact Reading.reads_literal rfl

theorem LineEnd.lineEnd? (h : LineEnd e) : lineEnd? (e ++ y) = some e := by
  rcases h with rfl | rfl <;> rfl

theorem LineEnd.not_head (h : LineEnd e) :
    ∀ c ∈ (e ++ y).head?, c ∉ [' ', '\t'] ∧ c ≠ ';' ∧ visible.contains c = false := by
  intro c hc
  rcases h with rfl | rfl <;> cases hc <;> decide

theorem reads_comment (hw : Remark w) (he : LineEnd e) :
    (reading t).Reads (.ref "comment") (';' :: (w ++ e)) y fun _ => True := by
  have hstep : ∀ c y, c ∈ [' ', '\t'] ∨ visible.contains c = true →
      (reading t).Reads (oneOf [blank, found visiblePattern]) [c] y Silent := by
    intro c y hc
    by_cases hb : c ∈ [' ', '\t']
    · exact (reads_blank hb).choice
    · have hv : visiblePattern.exact.leading? ([c] ++ y) = _ := Regex.leading?_single
      have hvisible : visible.contains c = true := hc.resolve_left hb
      refine (stalls_blank fun d hd => ?_).choice (reads_found (hv.trans (by simp [hvisible]))).choice
      cases hd
      exact hb
  have hstop : (reading t).Stalls (oneOf [blank, found visiblePattern]) (e ++ y) := by
    refine Reading.stalls_choice fun x hx => ?_
    simp only [List.mem_cons, List.not_mem_nil, or_false] at hx
    rcases hx with rfl | rfl
    · exact stalls_blank fun c hc => (he.not_head c hc).1
    · have hv : visiblePattern.exact.leading? (e ++ y) = _ := Regex.leading?_single
      refine stalls_found (hv.trans ?_)
      cases hey : e ++ y with
      | nil => rfl
      | cons c v =>
        have hc : visible.contains c = false := (he.not_head (y := y) c (by rw [hey]; rfl)).2.2
        simp [hc]
  have hmany := (Reading.runs_chars hstep hstop hw).many
  have hend : (reading t).Reads (.endOfLine false) e y Silent := Reading.reads_endOfLine he.lineEnd?
  have hrow := (reads_lit (t := t) (s := ";") rfl).row (hmany.row hend.last)
  exact (reads_rule rfl rfl hrow.sequence).imp fun _ _ => trivial

theorem Gap.reads (h : Gap w) : (reading t).Reads (.ref "c_wsp") w y (· = []) := by
  cases h with
  | blank hc => exact reads_dropped rfl rfl (reads_blank hc).choice
  | @line e c he hc =>
    have hline : (reading t).Reads (.ref "c_nl") e ([c] ++ y) (· = []) :=
      reads_lineEnd (fun d hd => (he.not_head d hd).2.1) he.lineEnd?
    have hblank : (reading t).Stalls Abnf.blank (e ++ [c] ++ y) := by
      rw [List.append_assoc]
      exact stalls_blank fun d hd => (he.not_head d hd).1
    exact reads_dropped rfl rfl (hblank.choice (hline.row (reads_blank hc).last).sequence.choice)
  | @comment v e c hv he hc =>
    have hline : (reading t).Reads (.ref "c_nl") (';' :: (v ++ e)) ([c] ++ y) (· = []) :=
      reads_dropped rfl rfl (reads_comment hv he).choice
    have hblank : (reading t).Stalls Abnf.blank (';' :: (v ++ e) ++ [c] ++ y) := stalls_blank fun d hd => by
      cases hd
      decide
    exact reads_dropped rfl rfl (hblank.choice (hline.row (reads_blank hc).last).sequence.choice)

theorem Gap.ne_nil (h : Gap w) : w ≠ [] := by
  cases h <;> simp

theorem Layout.runs (hw : Layout w) (hz : (reading t).Stalls (.ref "c_wsp") z) :
    ∃ k, (reading t).Runs (.ref "c_wsp") w z k (· = []) ∧ (w ≠ [] → ∃ j, k = j + 1) := by
  induction hw with
  | nil => exact ⟨0, hz.runs, fun h => absurd rfl h⟩
  | @cons u v hgap _ ih =>
    obtain ⟨k, hruns, _⟩ := ih
    refine ⟨k + 1, ((hgap.reads (t := t)).runs hgap.ne_nil hruns).imp fun _ hns => ?_, fun _ => ⟨k, rfl⟩⟩
    obtain ⟨_, _, rfl, rfl, rfl⟩ := hns
    rfl

/-! ## Where layout and rules end -/

theorem refuses_after_blanks (h : (reading t).Matches blanks p q ns) : (reading t).Refuses (.ref "c_wsp") q := by
  obtain ⟨k, hrep⟩ := Reading.matches_many.1 h
  clear h
  induction hrep with
  | refused hf => exact hf
  | still hm =>
    obtain ⟨u, hspan, hgap⟩ := gap_of_wsp hm
    have hsize := hspan.byteSize_eq
    have := byteSize_pos hgap.ne_nil
    omega
  | cons _ _ _ ih => exact ih

theorem flush_of_lineEnd (h : (reading t).Matches (.ref "c_nl") p q ns)
    (hf : (reading t).Refuses (.ref "c_wsp") p) :
    Flush ((reading t).input.rest q) := by
  intro c hc hblank
  have hbody : (reading t).Refuses (oneOf [blank, row [.ref "c_nl", blank]]) p := (refuses_body rfl).1 hf
  rcases Reading.refuses_sequence.1 (Reading.refuses_choice.1 hbody).2.1 with hline |
    ⟨m, ms, hline, hb | ⟨_, _, _, hn⟩⟩
  · exact h.not_refuses rfl hline
  · cases (hline.unique rfl h).1
    cases hrest : (reading t).input.rest q with
    | nil =>
      rw [hrest] at hc
      cases hc
    | cons d z =>
      rw [hrest] at hc
      cases hc
      have hsuffix := Input.suffix?_of_isBoundary h.boundary
      rw [hrest] at hsuffix
      obtain ⟨_, hm, _⟩ := reads_blank (t := t) (y := z) hblank q hsuffix
      exact hm.not_refuses rfl hb
  · exact hn

theorem line_of_lineEnd (h : (reading t).Matches (.ref "c_nl") p q ns) (hq : (reading t).input.rest q ≠ []) :
    ∃ u, (reading t).input.Span p q (u ++ ['\n']) := by
  obtain ⟨u, e, hspan, _, he | hrest⟩ := span_lineEnd h
  · rcases he with rfl | rfl
    · exact ⟨u, hspan⟩
    · exact ⟨u ++ ['\r'], by simpa using hspan⟩
  · exact absurd hrest hq

/-- A rule that has been read between two places: its name, its operator and its right-hand side stand
one after the other, and a line ends after them. -/
structure RuleRead (t : Text) (p m₁ m₂ m₃ q : Nat) (n n₁ n₂ n₃ : Node) : Prop where
  name : n.name? = some "rule"
  children : n.children = [n₁, n₂, n₃]
  name₁ : n₁.name? = some "rulename"
  name₂ : n₂.name? = some "defined_as"
  name₃ : n₃.name? = some "elements"
  reads₁ : (reading t).Matches (.ref "rulename") p m₁ [n₁]
  reads₂ : (reading t).Matches (.ref "defined_as") m₁ m₂ [n₂]
  reads₃ : (reading t).Matches (.ref "elements") m₂ m₃ [n₃]
  ends : (reading t).Matches (.ref "c_nl") m₃ q []

theorem RuleRead.operator {m₁ m₂ m₃ : Nat} {n n₁ n₂ n₃ : Node} (h : RuleRead t p m₁ m₂ m₃ q n n₁ n₂ n₃) :
    child n "defined_as" = .ok n₂ :=
  (child_of_children h.children h.name₁ h.name₂ h.name₃).2.1

theorem rule_read (h : (reading t).Matches (.ref "rule") p q ns) :
    ∃ n m₁ m₂ m₃ n₁ n₂ n₃, ns = [n] ∧ RuleRead t p m₁ m₂ m₃ q n n₁ n₂ n₃ := by
  obtain ⟨inner, x, hbody, _, rfl⟩ := (matches_body rfl rfl).1 h
  obtain ⟨m₁, _, _, h₁, ⟨m₂, _, _, h₂, ⟨m₃, _, _, h₃, ⟨m₄, _, _, h₄, ⟨_, rfl, rfl⟩, rfl⟩, rfl⟩, rfl⟩, rfl⟩ :=
    Reading.matches_sequence.1 hbody
  obtain ⟨n₁, rfl, _⟩ := matches_ref rfl rfl h₁
  obtain ⟨n₂, rfl, _⟩ := matches_ref rfl rfl h₂
  obtain ⟨n₃, rfl, _⟩ := matches_ref rfl rfl h₃
  obtain ⟨_, rfl⟩ := (matches_dropped rfl rfl).1 h₄
  exact ⟨_, m₁, m₂, m₃, n₁, n₂, n₃, rfl, rfl, rfl, (matches_node rfl rfl h₁).1, (matches_node rfl rfl h₂).1,
    (matches_node rfl rfl h₃).1, h₁, h₂, h₃, h₄⟩

theorem rule_of_parts {m₁ m₂ m₃ : Nat} {n₁ n₂ n₃ : Node} (h₁ : (reading t).Matches (.ref "rulename") p m₁ [n₁])
    (h₂ : (reading t).Matches (.ref "defined_as") m₁ m₂ [n₂])
    (h₃ : (reading t).Matches (.ref "elements") m₂ m₃ [n₃])
    (h₄ : (reading t).Matches (.ref "c_nl") m₃ q []) :
    ∃ x, (reading t).Matches (.ref "rule") p q [.matched (.rule "rule") x p q [n₁, n₂, n₃]] := by
  have hrow : (reading t).RowMatches [.ref "rulename", .ref "defined_as", .ref "elements", .ref "c_nl"] p q
      [n₁, n₂, n₃] :=
    ⟨_, _, _, h₁, ⟨_, _, _, h₂, ⟨_, _, _, h₃, ⟨_, _, _, h₄, ⟨h₄.boundary, rfl, rfl⟩, rfl⟩, rfl⟩, rfl⟩, rfl⟩
  obtain ⟨x, hspan⟩ := (Reading.matches_sequence.2 hrow).span
  exact ⟨x, (matches_body rfl rfl).2 ⟨_, x, Reading.matches_sequence.2 hrow, hspan, rfl⟩⟩

theorem line_of_rule (h : (reading t).Matches (.ref "rule") p q ns) : Flush ((reading t).input.rest q) ∧
    ((reading t).input.rest q ≠ [] → ∃ u, (reading t).input.Span p q (u ++ ['\n'])) := by
  obtain ⟨_, m₁, m₂, m₃, _, _, _, _, r⟩ := rule_read h
  obtain ⟨_, _, hbody, _, _⟩ := (matches_body rfl rfl).1 r.reads₃
  obtain ⟨m, _, _, _, ⟨_, _, _, hblanks, ⟨_, rfl, _⟩, _⟩, _⟩ := Reading.matches_sequence.1 hbody
  refine ⟨flush_of_lineEnd r.ends (refuses_after_blanks hblanks), fun hq => ?_⟩
  obtain ⟨u, hu⟩ := line_of_lineEnd r.ends hq
  obtain ⟨u₁, hu₁⟩ := r.reads₁.span
  obtain ⟨u₂, hu₂⟩ := r.reads₂.span
  obtain ⟨u₃, hu₃⟩ := r.reads₃.span
  exact ⟨u₁ ++ u₂ ++ u₃ ++ u, by simpa using ((hu₁.append hu₂).append hu₃).append hu⟩

theorem Name.byteSize_pos (m : Name) : 0 < byteSize m.written :=
  PegTree.byteSize_pos (List.cons_ne_nil m.head m.tail)

theorem name_read {n : Node} (h : (reading t).Matches (.ref "rulename") p q [n]) :
    ∃ m : Name, (reading t).input.Span p q m.written ∧ n.text = m.written := by
  have hx := Input.suffix?_of_isBoundary h.1
  obtain ⟨u, hu, rfl, hn⟩ := (matches_leaf rfl rfl hx).1 h
  obtain ⟨z, hz⟩ := firstLeading?_append hu
  have hl : namePattern.exact.leading? ((reading t).input.rest p) = _ := Regex.leading?_word
  rw [firstLeading?_pattern, hl] at hu
  split at hu
  · split at hu
    · rename_i c w _ hc
      cases hu
      cases hn
      refine ⟨⟨c, w.takeWhile nameChar.contains, hc, fun d hd => List.mem_takeWhile_imp hd⟩, .of_rest h.1 hz, rfl⟩
    · cases hu
  · cases hu

theorem stalls_elements (hy : ∀ c ∈ y.head?, starting.contains c = false) :
    (reading t).Stalls (.ref "elements") y :=
  stalls_rule rfl (stalls_rule rfl (stalls_rule rfl (stalls_repetition hy).sequence).sequence).sequence

theorem elements_start (h : (reading t).Matches (.ref "elements") p q ns)
    (hp : (reading t).input.suffix? p = some y) :
    ∃ c z, y = c :: z ∧ starting.contains c = true := by
  by_contra hn
  refine h.not_refuses rfl (stalls_elements (fun c hc => ?_) p hp)
  cases y with
  | nil => cases hc
  | cons d z =>
    cases hc
    by_contra hd
    exact hn ⟨c, z, rfl, by simpa using hd⟩

/-! ## Items -/

theorem item_rule {n : Node} (h : (reading t).Matches item p q ns) (hn : n ∈ ns) :
    (reading t).Matches (.ref "rule") p q [n] ∧ ns = [n] := by
  rcases Reading.matches_choice.1 h with hgap | ⟨_, hend | ⟨_, hrule | ⟨_, hf⟩⟩⟩
  · obtain ⟨_, rfl⟩ := (matches_dropped rfl rfl).1 hgap
    cases hn
  · obtain ⟨_, rfl⟩ := (matches_dropped rfl rfl).1 hend
    cases hn
  · obtain ⟨_, rfl, _⟩ := matches_ref rfl rfl hrule
    cases List.mem_singleton.1 hn
    exact ⟨hrule, rfl⟩
  · exact hf.elim

theorem item_of_rule {m : Name} (hp : (reading t).input.suffix? p = some (m.written ++ y))
    (h : (reading t).Matches (.ref "rule") p q ns) : (reading t).Matches item p q ns := by
  obtain ⟨hlayout, hend⟩ := stalls_at_letter m.head_letter
  exact Reading.matches_choice.2 (.inr ⟨hlayout p hp, .inr ⟨hend p hp, .inl h⟩⟩)

/-- An item is read the same in any text that goes on with the same character after it. -/
theorem item_carried {t' : Text} {p' : Nat} {c : Char} {z' : Text}
    (h : (reading t).Matches item p (p + byteSize w) ns) (hp : (reading t).input.suffix? p = some (w ++ c :: z))
    (hp' : (reading t').input.suffix? p' = some (w ++ c :: z')) :
    ∃ ns', (reading t').Matches item p' (p' + byteSize w) ns' ∧ Node.bareList ns' = Node.bareList ns := by
  have hrest : (reading t).input.rest (p + byteSize w) = c :: z := Input.rest_of_suffix? (Input.suffix?_add hp)
  have hspan : (reading t).input.Span p (p + byteSize w) w := .of_suffix? hp
  -- what ends with a line is carried over up to the end of the line, a gap is read by itself
  have hline : ∀ u, (reading t).input.Span p (p + byteSize w) (u ++ ['\n']) →
      Flush ((reading t).input.rest (p + byteSize w)) →
      ∃ ns', (reading t').Matches item p' (p' + byteSize w) ns' ∧ Node.bareList ns' = Node.bareList ns := by
    intro u hu hflush
    obtain rfl : w = u ++ ['\n'] := hspan.unique hu
    rw [hrest] at hflush
    have hlines : Passage t t' SameLines SameOrPast := .lines
    have hsame : SameLines (u ++ ['\n'] ++ c :: z) (u ++ ['\n'] ++ c :: z') :=
      ⟨u, c :: z, c :: z', by simp, by simp, hflush, fun d hd => hflush d hd⟩
    obtain ⟨hm, _⟩ := hlines.item _ (fun _ _ => .inl) p p' _ _ (Nat.lt_succ_self _) hp hp' hsame
    obtain ⟨v, y, y', ns', hv, _, hq, _, hm', hns⟩ := hm _ _ h
    obtain ⟨rfl, _⟩ := append_inj_of_byteSize hv (Nat.add_left_cancel hq)
    exact ⟨ns', hm', hns⟩
  have hne : (reading t).input.rest (p + byteSize w) ≠ [] := by simp [hrest]
  rcases Reading.matches_choice.1 h with hgap | ⟨hf, hend | ⟨_, hrule | ⟨_, hf⟩⟩⟩
  · obtain ⟨u, hu, hg⟩ := gap_of_wsp hgap
    obtain rfl : w = u := hspan.unique hu
    obtain ⟨_, rfl⟩ := (matches_dropped rfl rfl).1 hgap
    obtain ⟨ns', hm, rfl⟩ := (hg.reads (t := t') (y := c :: z')).choice p' hp'
    exact ⟨[], hm, rfl⟩
  · obtain ⟨u, hu⟩ := line_of_lineEnd hend hne
    exact hline u hu (flush_of_lineEnd hend hf)
  · obtain ⟨hflush, hu⟩ := line_of_rule hrule
    obtain ⟨u, hu⟩ := hu hne
    exact hline u hu hflush
  · exact hf.elim

end

/-! ## Single spaces -/

def spaced (x op y : Text) : Text := x ++ (' ' :: (op ++ [' '])) ++ y

section
variable {t t' x u op v y : Text} {p q : Nat} {n o : Node}

theorem rule_spaced {x₁ x₂ : Text} (ht : t = x ++ (u ++ op ++ v) ++ y) (ht' : t' = spaced x op y)
    (hop : op = ['='] ∨ op = ['=', '/']) (hx : x = x₁ ++ x₂)
    (h : (reading t).Matches (.ref "rule") (byteSize x₁) q [n])
    (ho : child n "defined_as" = .ok o) (hplace : o.offset = byteSize x) (htext : o.text = u ++ op ++ v)
    (htrim : trim (u ++ op ++ v) = op) :
    ∃ q' n' z, (reading t').Matches item (byteSize x₁) q' [n'] ∧ byteSize x₁ < q' ∧
      n'.name? = some "rule" ∧ (∀ d : Definitions, d.addRule n' = d.addRule n) ∧
      (reading t).input.suffix? q = some z ∧ (reading t').input.suffix? q' = some z := by
  obtain ⟨_, m₁, m₂, m₃, n₁, n₂, n₃, hn, r⟩ := rule_read h
  cases List.singleton_inj.1 hn
  cases Except.ok.inj (ho.symm.trans r.operator)
  obtain ⟨-, hoffset, hspan₂⟩ := matches_node rfl rfl r.reads₂
  cases hoffset.symm.trans hplace
  obtain ⟨-, hchildren, hname₁, hname₂, hname₃, h₁, -, h₃, h₄⟩ := r
  obtain ⟨m, hspan₁, htext₁⟩ := name_read h₁
  have hstart : (reading t).input.suffix? (byteSize x₁) = some (x₂ ++ ((u ++ op ++ v) ++ y)) := by
    refine Input.suffix?_eq_some_iff.2 ⟨x₁, ?_, rfl⟩
    show t = _
    simp [ht, hx]
  have hend : byteSize x₁ + byteSize x₂ = byteSize x := by rw [hx, byteSize_append]
  obtain rfl : x₂ = m.written := by
    have hspan := Input.Span.of_suffix? hstart
    rw [hend] at hspan
    exact hspan.unique hspan₁
  have hy := Input.suffix?_add (Input.suffix?_add hstart)
  rw [hend, ← htext, ← hspan₂.byteSize_eq] at hy
  obtain ⟨c, z, hcz, hc⟩ := elements_start h₃ hy
  have hbare : Bare y := by
    rw [hcz]
    exact .of_head (not_mem_of_contains hc (by decide))
  -- the name and the operator are read anew, the rest as before
  have hstart' : (reading t').input.suffix? (byteSize x₁) = some (m.written ++ (' ' :: (op ++ [' ']) ++ y)) := by
    refine Input.suffix?_eq_some_iff.2 ⟨x₁, ?_, rfl⟩
    show t' = _
    simp [ht', spaced, hx]
  obtain ⟨_, h₁', n₁', rfl, hname₁', htext₁'⟩ := reads_name m (fun d hd => by cases hd; decide) _ hstart'
  obtain ⟨_, h₂', n₂', rfl, hname₂', htext₂'⟩ := reads_operator hop hbare _ (Input.suffix?_add hstart')
  have hy' := Input.suffix?_add (Input.suffix?_add hstart')
  have hsame : Passage t t' Eq Eq := .same
  obtain ⟨w, y₁, _, ns₃, hw, _, rfl, rfl, h₃', hbare₃⟩ :=
    (hsame.elements _ m₂ _ y y (Nat.lt_succ_self _) hy hy' rfl).1 _ _ h₃
  rw [hw] at hy hy'
  obtain ⟨w', y₂, _, ns₄, hw', _, rfl, rfl, h₄', _⟩ :=
    (hsame.c_nl _ _ _ y₁ y₁ (Nat.lt_succ_self _) (Input.suffix?_add hy) (Input.suffix?_add hy') rfl).1 _ _ h₄
  rw [hw'] at hy hy'
  obtain ⟨n₃', rfl, hname₃'⟩ := matches_ref rfl rfl h₃'
  obtain ⟨_, rfl⟩ := (matches_dropped rfl rfl).1 h₄'
  obtain ⟨_, hrule⟩ := rule_of_parts h₁' h₂' h₃' h₄'
  refine ⟨_, _, y₂, item_of_rule hstart' hrule, ?_, rfl, fun d => ?_,
    Input.suffix?_add (Input.suffix?_add hy), Input.suffix?_add (Input.suffix?_add hy')⟩
  · have hpos := m.byteSize_pos
    omega
  · have hop' := operator_solid hop
    rw [addRule_children rfl hname₁' hname₂' hname₃', addRule_children hchildren hname₁ hname₂ hname₃,
      alternationIn_of_bare (List.cons.inj hbare₃).1, htext₁', htext₁, htext₂', trim_spaces hop', htext, htrim]

theorem operator_place (h : (reading t).Matches (.ref "rule") p q [n]) (ho : child n "defined_as" = .ok o) :
    p < o.offset ∧ o.offset ≤ q := by
  obtain ⟨_, m₁, m₂, m₃, n₁, n₂, n₃, hn, r⟩ := rule_read h
  cases List.singleton_inj.1 hn
  cases Except.ok.inj (ho.symm.trans r.operator)
  obtain ⟨-, hoffset, -⟩ := matches_node rfl rfl r.reads₂
  obtain ⟨m, hspan, _⟩ := name_read r.reads₁
  have hsize := hspan.byteSize_eq
  have hpos := m.byteSize_pos
  have h₂ := r.reads₂.le
  have h₃ := r.reads₃.le
  have h₄ := r.ends.le
  omega

theorem items_spaced {k : Nat} {ns : List Node} (ht : t = x ++ (u ++ op ++ v) ++ y) (ht' : t' = spaced x op y)
    (hop : op = ['='] ∨ op = ['=', '/']) (ho : child n "defined_as" = .ok o) (hplace : o.offset = byteSize x)
    (htext : o.text = u ++ op ++ v) (htrim : trim (u ++ op ++ v) = op) (h : (reading t).Repeats item p q k ns)
    (hn : n ∈ ns) (hq : (reading t).input.rest q = []) {x₁ x₂ : Text} (hx : x = x₁ ++ x₂) (hp : p = byteSize x₁) :
    ∃ q' k' ns', (reading t').Repeats item p q' k' ns' ∧ (reading t').input.rest q' = [] ∧
      ∀ d, addRules d ns' = addRules d ns := by
  -- the items before the rule are carried over one by one, those after it have the same text ahead
  induction h generalizing x₁ x₂ with
  | refused _ => cases hn
  | still hm =>
    obtain ⟨hlt, hle⟩ := operator_place (item_rule hm hn).1 ho
    omega
  | @cons p m q k ns ms hm hne hrep ih =>
    subst hp
    by_cases hfirst : n ∈ ns
    · obtain ⟨hrule, rfl⟩ := item_rule hm hfirst
      obtain ⟨q₁, n', z, hm', hlt, hname', hadd, hz, hz'⟩ := rule_spaced ht ht' hop hx hrule ho hplace htext htrim
      have hsame : Passage t t' Eq Eq := .same
      obtain ⟨w, z₁, _, ms', rfl, hzz, rfl, rfl, hrep', hbare⟩ :=
        (hsame.item _ fun _ _ h => h).repeats hrep (Nat.lt_succ_self _) hz hz' rfl
      have hend : z₁ = [] := (Input.rest_of_suffix? (Input.suffix?_add hz)).symm.trans hq
      have hname : n.name? = some "rule" := (matches_node rfl rfl hrule).1
      refine ⟨_, _, _, .cons hm' (by omega) hrep',
        (Input.rest_of_suffix? (Input.suffix?_add hz')).trans hend, fun d => ?_⟩
      rw [addRules_append, addRules_append, addRules_rule d hname', addRules_rule d hname, hadd]
      exact bind_congr fun d => addRules_bare d hbare
    · have hlater : n ∈ ms := (List.mem_append.1 hn).resolve_left hfirst
      obtain ⟨p₁, q₁, _, hitem, hmem, hle⟩ := hrep.mem hlater
      obtain ⟨hlt, _⟩ := operator_place (item_rule hitem hmem).1 ho
      obtain ⟨w, hw⟩ := hm.span
      obtain ⟨z, hz⟩ := hw.rest
      obtain rfl : m = byteSize x₁ + byteSize w := hw.byteSize_eq
      have hrest : (reading t).input.rest (byteSize x₁) = x₂ ++ ((u ++ op ++ v) ++ y) := by
        refine Input.rest_byteSize ?_
        show t = _
        simp [ht, hx]
      have hsplit : x₁ ++ w ++ z = x ++ ((u ++ op ++ v) ++ y) := by
        rw [List.append_assoc, ← hz, hrest, hx]
        simp
      obtain ⟨c, x₃, hx₃, -⟩ := append_of_byteSize_lt hsplit (by rw [byteSize_append]; omega)
      have hstart : (reading t).input.suffix? (byteSize x₁) = some (w ++ c :: (x₃ ++ ((u ++ op ++ v) ++ y))) := by
        refine Input.suffix?_eq_some_iff.2 ⟨x₁, ?_, rfl⟩
        show t = _
        simp [ht, hx₃]
      have hstart' : (reading t').input.suffix? (byteSize x₁) =
          some (w ++ c :: (x₃ ++ (' ' :: (op ++ [' ']) ++ y))) := by
        refine Input.suffix?_eq_some_iff.2 ⟨x₁, ?_, rfl⟩
        show t' = _
        simp [ht', spaced, hx₃]
      obtain ⟨ns', hm', hbare⟩ := item_carried hm hstart hstart'
      obtain ⟨q', k', ms', hrep', hend, hadds⟩ := ih hlater hq hx₃ (byteSize_append x₁ w).symm
      refine ⟨q', _, ns' ++ ms', .cons hm' hne hrep', hend, fun d => ?_⟩
      rw [addRules_append, addRules_append, addRules_bare d hbare]
      exact bind_congr hadds

/-! ## Texts stay normal -/

theorem Gap.indented (hu : Gap u) (h : t.IsChain IndentedPair) : (u ++ t).IsChain IndentedPair := by
  have hblank : ∀ c ∈ [' ', '\t'], '\n' ∉ [c] := by
    intro c hc
    rcases List.mem_pair.1 hc with rfl | rfl <;> decide
  have hline : ∀ {e : Text} {c : Char}, LineEnd e → c ∈ [' ', '\t'] → (e ++ ([c] ++ t)).IsChain IndentedPair := by
    intro e c he hc
    have hchain : ('\n' :: ([c] ++ t)).IsChain IndentedPair :=
      List.isChain_cons_cons.2 ⟨fun _ => isBlank_of_mem hc, indented_append (hblank c hc) h⟩
    rcases he with rfl | rfl
    · exact hchain
    · exact indented_append (u := ['\r']) (by decide) hchain
  cases hu with
  | @blank c hc => exact indented_append (hblank c hc) h
  | line he hc => simpa using hline he hc
  | @comment w e c hw he hc =>
    have hword : '\n' ∉ ';' :: w := by
      intro hn
      have hin := hw '\n' (by simpa using hn)
      revert hin
      decide
    simpa using indented_append hword (hline he hc)

theorem Layout.indented (hu : Layout u) (h : t.IsChain IndentedPair) : (u ++ t).IsChain IndentedPair := by
  induction hu with
  | nil => exact h
  | cons hgap _ ih =>
    rw [List.append_assoc]
    exact hgap.indented ih

theorem normal_spaced {x₀ y₀ : Text} {a b : Char} (h : Normal t)
    (ht : t = x ++ (u ++ op ++ v) ++ y) (hu : Layout u)
    (hv : Layout v) (hop : op = ['='] ∨ op = ['=', '/']) (hx : x = x₀ ++ [a]) (ha : isBlank a = false)
    (hy : y = b :: y₀) (hb : b ≠ '\n') : Normal (spaced x op y) := by
  have hmark : '\n' ∉ op := by rcases hop with rfl | rfl <;> decide
  have hne : a ≠ '\n' := by
    rintro rfl
    exact absurd ha (by decide)
  have hform : '\n' :: t = ('\n' :: x) ++ ((u ++ op ++ v) ++ y) := by simp [ht]
  have hform' : '\n' :: spaced x op y = ('\n' :: x) ++ (' ' :: (op ++ [' ']) ++ y) := by simp [spaced]
  have hlast : ∀ c ∈ ('\n' :: x).getLast?, c = a := by
    intro c hc
    rw [hx, ← List.cons_append, List.getLast?_concat] at hc
    exact (Option.some.inj hc).symm
  have hended : ∀ {w : Text}, (w ++ y).getLast? = y.getLast? := by
    intro w
    rw [hy, List.getLast?_append, List.getLast?_cons]
    rfl
  constructor
  · intro c hc
    refine h.ended c ?_
    rw [ht, hended]
    rwa [spaced, hended] at hc
  · have hsolid := h.solid
    rw [hform] at hsolid
    obtain ⟨hname, hrest, _⟩ := List.isChain_append.1 hsolid
    have hspaces : (' ' :: (op ++ [' ']) ++ y).IsChain SolidPair := by
      refine solid_append (by simpa using hmark) (fun c hc => ?_) (List.isChain_append.1 hrest).2.1
      rw [hy] at hc
      cases hc
      exact hb
    rw [hform']
    exact List.isChain_append.2 ⟨hname, hspaces, fun c _ d hd hn => by cases hd; cases hn⟩
  · -- with all its lines indented now, the text would have had none but indented lines before
    refine .inr fun hchain => ?_
    rw [hform'] at hchain
    obtain ⟨hname, hrest, _⟩ := List.isChain_append.1 hchain
    have hafter := hv.indented (List.isChain_append.1 hrest).2.1
    have hwhole : ('\n' :: t).IsChain IndentedPair := by
      rw [hform]
      refine List.isChain_append.2 ⟨hname, ?_, fun c hc d _ hn => absurd ((hlast c hc).symm.trans hn) hne⟩
      simpa using hu.indented (indented_append hmark hafter)
    rcases h.flush with hnil | hn
    · rw [ht, hy] at hnil
      simp at hnil
    · exact hn hwhole

/-! ## The operators of a text -/

theorem rule_layout {ns : List Node} (hm : (reading t).Matches item.many 0 q ns) (hn : n ∈ ns) :
    ∃ o x u op v y, child n "defined_as" = .ok o ∧ o.offset = byteSize x ∧ o.text = u ++ op ++ v ∧
      t = x ++ (u ++ op ++ v) ++ y ∧ Layout u ∧ Layout v ∧ (op = ['='] ∨ op = ['=', '/']) ∧
      (∃ (m : Name) (x₀ : Text), x = x₀ ++ m.written) ∧ ∃ c z, y = c :: z ∧ starting.contains c = true := by
  obtain ⟨k, hrep⟩ := Reading.matches_many.1 hm
  obtain ⟨p₁, q₁, _, hitem, hmem, _⟩ := hrep.mem hn
  obtain ⟨_, m₁, m₂, m₃, n₁, n₂, n₃, hsole, r⟩ := rule_read (item_rule hitem hmem).1
  cases List.singleton_inj.1 hsole
  obtain ⟨-, hoffset, x, y, ht, hx, hy⟩ := matches_node rfl rfl r.reads₂
  obtain ⟨m, ⟨x₀, z, ht', _, hm₁⟩, _⟩ := name_read r.reads₁
  obtain ⟨u, op, v, htext, hu, hv, hop⟩ := operator_split r.reads₂
  have hsplit : (x₀ ++ m.written) ++ z = x ++ (n₂.text ++ y) := by rw [← ht', ht, List.append_assoc]
  obtain ⟨hx₀, _⟩ := append_inj_of_byteSize hsplit (by rw [byteSize_append, ← hm₁, hx])
  have hrest : (reading t).input.suffix? m₂ = some y :=
    Input.suffix?_eq_some_iff.2 ⟨x ++ n₂.text, ht, by rw [byteSize_append, hy]⟩
  refine ⟨n₂, x, u, op, v, y, r.operator, hoffset.trans hx, htext, ?_, hu, hv, hop, ⟨m, x₀, hx₀.symm⟩,
    elements_start r.reads₃ hrest⟩
  rw [← htext]
  exact ht

end

/-- The operator that a rule is defined by is the one between its layout exactly where no comment is
beside it, and then single spaces in place of the layout change nothing. An operator that is refused
has a comment in it. -/
theorem operator_of_layout (t : Text) :
    (∀ tree, parseTree (normalize t) = .ok tree → ∀ n ∈ tree.childrenNamed "rule", ∃ o x u op v y,
      child n "defined_as" = .ok o ∧ o.offset = byteSize x ∧ o.text = u ++ op ++ v ∧
      normalize t = x ++ (u ++ op ++ v) ++ y ∧ Layout u ∧ Layout v ∧ (op = ['='] ∨ op = ['=', '/']) ∧
      (trim o.text = op ↔ ';' ∉ u ++ v) ∧ (';' ∉ u ++ v → compile (spaced x op y) = compile t)) ∧
    ∀ name operator, compile t = .error (.invalidOperator name operator) → ';' ∈ operator.toList := by
  refine ⟨fun tree htree n hn => ?_, fun name operator he => compile_commented t _ he⟩
  rcases parseTree_cases (normalize t) with ⟨q, _, hq⟩ | ⟨r, q, ns, hm, hend, hq⟩
  · rw [hq] at htree
    cases htree
  · rw [hq] at htree
    cases htree
    have hmem := (rule_mem hn).1
    obtain ⟨o, x, u, op, v, y, hchild, hplace, htext, ht, hu, hv, hop, ⟨m, x₀, hx⟩, c, z, hy, hc⟩ :=
      rule_layout hm hmem
    have htrim := trim_operator_iff hu hv hop
    refine ⟨o, x, u, op, v, y, hchild, hplace, htext, ht, hu, hv, hop, by rw [htext]; exact htrim, fun hs => ?_⟩
    obtain ⟨w, a, hw, ha⟩ := m.tidy.last
    have hnormal : Normal (spaced x op y) := by
      have hlast : x = (x₀ ++ w) ++ [a] := by rw [hx, hw, List.append_assoc]
      refine normal_spaced (normal_normalize t) ht hu hv hop hlast ha hy ?_
      rintro rfl
      exact absurd hc (by decide)
    obtain ⟨k, hrep⟩ := Reading.matches_many.1 hm
    obtain ⟨q', k', ns', hrep', hend', hadds⟩ :=
      items_spaced ht rfl hop hchild hplace htext (htrim.2 hs) hrep hmem hend (List.nil_append x).symm rfl
    have hm' := Reading.matches_many.2 ⟨k', hrep'⟩
    rw [compile_items (normalize_normal hnormal) hm' hend', compile_items rfl hm hend, hadds]

theorem eq_ok_of_toOption {ε α : Type} {x : Except ε α} {a : α} (h : x.toOption = some a) : x = .ok a := by
  cases x with
  | error e => cases h
  | ok b => exact congrArg Except.ok (Option.some.inj h)

theorem operator_of_layout_continued : ∃ tree n, parseTree (normalize "a\t=\n b".toList) = .ok tree ∧
    n ∈ tree.childrenNamed "rule" ∧ compile "a = b\n".toList = compile "a\t=\n b".toList := by
  have hfound : ((parseTree (normalize "a\t=\n b".toList)).toOption.any fun tree =>
      (tree.childrenNamed "rule").any fun n => (child n "defined_as").toOption.any fun o =>
        o.offset == 1 && o.text == "\t=\n ".toList) = true := by decide +kernel
  obtain ⟨tree, htree, hrules⟩ := (Option.any_eq_true _ _).1 hfound
  obtain ⟨n, hn, hoperator⟩ := List.any_eq_true.1 hrules
  obtain ⟨o, ho, hat⟩ := (Option.any_eq_true _ _).1 hoperator
  rw [Bool.and_eq_true, beq_iff_eq, beq_iff_eq] at hat
  have htree := eq_ok_of_toOption htree
  obtain ⟨o', x, u, op, v, y, ho', hplace, htext, ht, _, _, _, htrim, hsame⟩ :=
    (operator_of_layout "a\t=\n b".toList).1 tree htree n hn
  cases Except.ok.inj ((eq_ok_of_toOption ho).symm.trans ho')
  have hnorm : "a".toList ++ ("\t=\n ".toList ++ "b\n".toList) = x ++ (u ++ op ++ v ++ y) := by
    rw [← List.append_assoc x, ← ht]
    decide +kernel
  obtain ⟨rfl, hrest⟩ := append_inj_of_byteSize hnorm (hat.1.symm.trans hplace)
  rw [← htext, hat.2] at hrest
  obtain rfl : "b\n".toList = y := List.append_cancel_left hrest
  have hs : ';' ∉ u ++ v := by
    have hall : ';' ∉ u ++ op ++ v := by
      rw [← htext, hat.2]
      decide
    simp only [List.mem_append, not_or] at hall ⊢
    exact ⟨hall.1.1, hall.2⟩
  obtain rfl : ['='] = op := by
    rw [← htrim.2 hs, hat.2]
    decide +kernel
  exact ⟨tree, n, htree, hn, hsame hs⟩

/-- A comment before an operator is taken for a part of it. -/
theorem compile_comment_beside : compile "a ;c\n = b".toList = .error (.invalidOperator "a" ";c\n =") := by
  decide +kernel

end PegTree.Abnf
