import PegTree.Proofs.Abnf.Layout
import PegTree.Proofs.Abnf.Shape
import PegTree.Proofs.Abnf.Tokens

/-!
# The operator of a definition

The operator of a rule is taken from all that stands between its name and its right-hand side, without
the blanks at both ends. Blanks and continued lines around the operator are lost that way, comments
are not.
-/

namespace PegTree.Abnf

/-! ## Layout -/

def LineEnd (u : Text) : Prop := u = ['\n'] ∨ u = ['\r', '\n']

def Remark (w : Text) : Prop := ∀ c ∈ w, c ∈ [' ', '\t'] ∨ visible.contains c = true

/-- A blank, by itself or after the end of a line, with or without a comment before that. -/
inductive Gap : Text → Prop
  | blank {c : Char} : c ∈ [' ', '\t'] → Gap [c]
  | line {e : Text} {c : Char} : LineEnd e → c ∈ [' ', '\t'] → Gap (e ++ [c])
  | comment {w e : Text} {c : Char} : Remark w → LineEnd e → c ∈ [' ', '\t'] → Gap (';' :: (w ++ e) ++ [c])

inductive Layout : Text → Prop
  | nil : Layout []
  | cons {u v : Text} : Gap u → Layout v → Layout (u ++ v)

section
variable {u v : Text}

theorem Layout.append (hu : Layout u) (hv : Layout v) : Layout (u ++ v) := by
  induction hu with
  | nil => exact hv
  | cons hgap _ ih =>
    rw [List.append_assoc]
    exact .cons hgap ih

theorem Layout.head (hu : Layout u) : ∀ c ∈ u.head?, c ∈ [' ', '\t', ';', '\r', '\n'] := by
  cases hu with
  | nil => simp
  | cons hgap _ =>
    intro c hc
    cases hgap with
    | blank hb =>
      cases hc
      rcases List.mem_pair.1 hb with rfl | rfl <;> decide
    | line he _ => rcases he with rfl | rfl <;> cases hc <;> decide
    | comment _ _ _ =>
      cases hc
      decide

theorem isBlank_of_mem {c : Char} (hc : c ∈ [' ', '\t']) : isBlank c = true := by
  rcases List.mem_pair.1 hc with rfl | rfl <;> decide

theorem Gap.all_blank (hu : Gap u) (hs : ';' ∉ u) : ∀ c ∈ u, isBlank c = true := by
  cases hu with
  | blank hc => simpa using isBlank_of_mem hc
  | @line e c he hc =>
    have he' : e.all isBlank = true := by rcases he with rfl | rfl <;> decide
    exact List.forall_mem_append.2 ⟨List.all_eq_true.1 he', by simpa using isBlank_of_mem hc⟩
  | comment _ _ _ => simp at hs

theorem Layout.all_blank (hu : Layout u) (hs : ';' ∉ u) : ∀ c ∈ u, isBlank c = true := by
  induction hu with
  | nil => exact List.forall_mem_nil _
  | cons hgap _ ih =>
    simp only [List.mem_append, not_or] at hs
    exact List.forall_mem_append.2 ⟨hgap.all_blank hs.1, ih hs.2⟩

end

/-- What is left of layout around an operator is nothing, unless there is a comment in it. -/
theorem trim_operator_iff {u v op : Text} (hu : Layout u) (hv : Layout v) (hop : op = ['='] ∨ op = ['=', '/']) :
    trim (u ++ op ++ v) = op ↔ ';' ∉ u ++ v := by
  constructor
  · intro h hs
    have hmem : ';' ∈ trim (u ++ op ++ v) := by
      refine mem_trim ?_ (by decide)
      simp only [List.mem_append] at hs ⊢
      tauto
    rw [h] at hmem
    rcases hop with rfl | rfl <;> revert hmem <;> decide
  · intro hs
    simp only [List.mem_append, not_or] at hs
    exact trim_around (hu.all_blank hs.1) (hv.all_blank hs.2) (operator_solid hop)

/-! ## Texts of matches -/

section
variable {t : Text} {p q : Nat} {ns : List Node}

theorem eq_of_leadingText? {needle y u : Text} (h : leadingText? needle true y = some u) : u = needle := by
  have hs : leading? (fun a b : Char => a == b) needle y = some u := h
  clear h
  induction needle generalizing y u with
  | nil => exact (Option.some.inj hs).symm
  | cons a needle ih =>
    cases y with
    | nil => cases hs
    | cons c y =>
      by_cases hac : a = c
      · subst hac
        simp only [leading?, beq_self_eq_true, if_true] at hs
        obtain ⟨v, hv, rfl⟩ := Option.map_eq_some_iff.1 hs
        rw [ih hv]
      · simp [leading?, hac] at hs

theorem mem_of_firstLeading? {ts : List Text} {y u : Text} (hts : ts ≠ [])
    (h : firstLeading? (ts.map .text) true y = some u) : u ∈ ts := by
  have he : (ts.map Matcher.text).isEmpty = false := by simp [hts]
  rw [firstLeading?, he, if_neg (by decide)] at h
  obtain ⟨m, hm, hu⟩ := List.exists_of_findSome?_eq_some h
  obtain ⟨v, hv, rfl⟩ := List.mem_map.1 hm
  rwa [eq_of_leadingText? hu]

theorem span_literal {ms : List Matcher} (h : (reading t).Matches (.literal false ms none) p q ns) :
    ∃ u, (reading t).input.Span p q u ∧ firstLeading? ms true ((reading t).input.rest p) = some u := by
  have hx := Input.suffix?_of_isBoundary h.1
  obtain ⟨u, hu, rfl, _⟩ := (Reading.matches_literal hx).1 h
  obtain ⟨rest, hrest⟩ := firstLeading?_append hu
  exact ⟨u, .of_rest h.1 hrest, hu⟩

theorem span_texts {ts : List Text} (hts : ts ≠ []) (h : (reading t).Matches (.texts ts) p q ns) :
    ∃ u ∈ ts, (reading t).input.Span p q u := by
  obtain ⟨u, hspan, hu⟩ := span_literal h
  exact ⟨u, mem_of_firstLeading? hts hu, hspan⟩

theorem span_blank (h : (reading t).Matches blank p q ns) : ∃ c ∈ [' ', '\t'], (reading t).input.Span p q [c] := by
  obtain ⟨u, hu, hspan⟩ := span_texts (List.cons_ne_nil _ _) h
  have hu : u = [' '] ∨ u = ['\t'] := by simpa using hu
  rcases hu with rfl | rfl
  · exact ⟨' ', by simp, hspan⟩
  · exact ⟨'\t', by simp, hspan⟩

theorem span_found {f : CharClass} {m : Pattern} (hm : m.exact = single f)
    (h : (reading t).Matches (found m) p q ns) :
    ∃ c, f.contains c = true ∧ (reading t).input.Span p q [c] := by
  obtain ⟨u, hspan, hu⟩ := span_literal h
  rw [firstLeading?_pattern, hm] at hu
  have hl : (single f).leading? ((reading t).input.rest p) = _ := Regex.leading?_single
  rw [hl] at hu
  split at hu
  · split at hu
    · rename_i c _ _ hc
      cases hu
      exact ⟨c, hc, hspan⟩
    · cases hu
  · cases hu

theorem span_visible (h : (reading t).Matches (found visiblePattern) p q ns) :
    ∃ c, visible.contains c = true ∧ (reading t).input.Span p q [c] := span_found rfl h

theorem lineEnd?_cases {y u : Text} (h : lineEnd? y = some u) : LineEnd u ∨ u = [] ∧ y = [] := by
  unfold lineEnd? Scope.leadingNewline? at h
  cases hn : leadingText? ['\n'] true y with
  | some v =>
    rw [hn] at h
    cases h
    exact .inl (.inl (eq_of_leadingText? hn))
  | none =>
    cases hr : leadingText? ['\r', '\n'] true y with
    | some v =>
      rw [hn, hr] at h
      cases h
      exact .inl (.inr (eq_of_leadingText? hr))
    | none =>
      rw [hn, hr] at h
      cases y with
      | nil => exact .inr ⟨(Option.some.inj h).symm, rfl⟩
      | cons c y => cases h

theorem span_endOfLine (h : (reading t).Matches (.endOfLine false) p q ns) : ∃ u, (reading t).input.Span p q u ∧
    (LineEnd u ∨ (reading t).input.rest q = []) := by
  have hx := Input.suffix?_of_isBoundary h.1
  obtain ⟨u, hu, rfl, _⟩ := (Reading.matches_endOfLine hx).1 h
  obtain ⟨z, hz⟩ := lineEnd?_append hu
  refine ⟨u, .of_rest h.1 hz, (lineEnd?_cases hu).imp_right fun hnil => ?_⟩
  rw [hnil.1, byteSize_nil, Nat.add_zero]
  exact hnil.2

theorem span_remark {k : Nat} (h : (reading t).Repeats (oneOf [blank, found visiblePattern]) p q k ns)
    (hp : (reading t).input.isBoundary p = true) : ∃ w, (reading t).input.Span p q w ∧ Remark w := by
  refine Reading.Repeats.span_of (List.forall_mem_nil _) (fun hu hv => ?_) (fun hm => ?_) h hp
  · exact List.forall_mem_append.2 ⟨hu, hv⟩
  · rcases Reading.matches_choice.1 hm with hb | ⟨_, hv | ⟨_, hf⟩⟩
    · obtain ⟨c, hc, hspan⟩ := span_blank hb
      exact ⟨[c], hspan, List.forall_mem_singleton.2 (.inl hc)⟩
    · obtain ⟨c, hc, hspan⟩ := span_visible hv
      exact ⟨[c], hspan, List.forall_mem_singleton.2 (.inr hc)⟩
    · exact hf.elim

theorem span_lineEnd (h : (reading t).Matches (.ref "c_nl") p q ns) : ∃ u e, (reading t).input.Span p q (u ++ e) ∧
    (u = [] ∨ ∃ w, u = ';' :: w ∧ Remark w) ∧ (LineEnd e ∨ (reading t).input.rest q = []) := by
  obtain ⟨⟨inner, hm⟩, _⟩ := (matches_dropped rfl rfl).1 h
  rcases Reading.matches_choice.1 hm with hc | ⟨_, he | ⟨_, hf⟩⟩
  · obtain ⟨_, _, hbody, _⟩ := (matches_body rfl rfl).1 hc
    obtain ⟨p₁, _, _, hmark, ⟨p₂, _, _, hmany, ⟨p₃, _, _, hend, ⟨_, rfl, _⟩, _⟩, _⟩, _⟩ :=
      Reading.matches_sequence.1 hbody
    have hmark' : (reading t).Matches (.texts [";".toList]) p p₁ _ := hmark
    obtain ⟨s, hs, hsemi⟩ := span_texts (List.cons_ne_nil _ _) hmark'
    obtain ⟨k, hrep⟩ := Reading.matches_many.1 hmany
    obtain ⟨w, hw, hremark⟩ := span_remark hrep hmark.boundary
    obtain ⟨e, he, hline⟩ := span_endOfLine hend
    have hs : s = [';'] := by simpa using hs
    subst hs
    exact ⟨';' :: w, e, (hsemi.append hw).append he, .inr ⟨w, rfl, hremark⟩, hline⟩
  · obtain ⟨e, he, hline⟩ := span_endOfLine he
    exact ⟨[], e, he, .inl rfl, hline⟩
  · exact hf.elim

theorem gap_of_wsp (h : (reading t).Matches (.ref "c_wsp") p q ns) :
    ∃ u, (reading t).input.Span p q u ∧ Gap u := by
  obtain ⟨⟨inner, hm⟩, _⟩ := (matches_dropped rfl rfl).1 h
  rcases Reading.matches_choice.1 hm with hb | ⟨_, hrow | ⟨_, hf⟩⟩
  · obtain ⟨c, hc, hspan⟩ := span_blank hb
    exact ⟨[c], hspan, .blank hc⟩
  · obtain ⟨p₁, _, _, hend, ⟨p₂, _, _, hb, ⟨_, rfl, _⟩, _⟩, _⟩ := Reading.matches_sequence.1 hrow
    obtain ⟨u, e, hspan, hu, hline⟩ := span_lineEnd hend
    obtain ⟨c, hc, hblank⟩ := span_blank hb
    have he : LineEnd e := by
      rcases hline with he | hrest
      · exact he
      · obtain ⟨z, hz⟩ := hblank.rest
        rw [hrest] at hz
        cases hz
    refine ⟨u ++ e ++ [c], hspan.append hblank, ?_⟩
    rcases hu with rfl | ⟨w, rfl, hw⟩
    · exact .line he hc
    · exact .comment hw he hc
  · exact hf.elim

theorem layout_of_blanks (h : (reading t).Matches blanks p q ns) :
    ∃ u, (reading t).input.Span p q u ∧ Layout u := by
  obtain ⟨k, hrep⟩ := Reading.matches_many.1 h
  refine hrep.span_of .nil Layout.append (fun hm => ?_) h.1
  obtain ⟨u, hu, hgap⟩ := gap_of_wsp hm
  exact ⟨u, hu, by simpa using Layout.cons hgap .nil⟩

theorem operator_split {n : Node} (h : (reading t).Matches (.ref "defined_as") p q [n]) :
    ∃ u op v, n.text = u ++ op ++ v ∧ Layout u ∧ Layout v ∧ (op = ['='] ∨ op = ['=', '/']) := by
  obtain ⟨inner, x, hbody, hx, hn⟩ := (matches_body rfl rfl).1 h
  obtain ⟨p₁, _, _, hu, ⟨p₂, _, _, hop, ⟨p₃, _, _, hv, ⟨_, rfl, _⟩, _⟩, _⟩, _⟩ := Reading.matches_sequence.1 hbody
  obtain ⟨u, hu, hlu⟩ := layout_of_blanks hu
  obtain ⟨v, hv, hlv⟩ := layout_of_blanks hv
  obtain ⟨op, hmem, hop⟩ := span_texts (List.cons_ne_nil _ _) hop
  have hmem : op = ['=', '/'] ∨ op = ['='] := by simpa using hmem
  have hspan := (hu.append hop).append hv
  cases hn
  exact ⟨u, op, v, hx.unique hspan, hlu, hlv, hmem.symm⟩

end

/-! ## Rules of a text -/

def Error.Commented : Error → Prop
  | .invalidOperator _ operator => ';' ∈ operator.toList
  | _ => True

theorem Error.Numeric.commented {e : Error} (h : e.Numeric) : e.Commented := by
  cases e <;> trivial

theorem define_commented (d : Definitions) (name : String) (rhs : Expr) {operator : Text}
    (h : operator = ['='] ∨ operator = ['=', '/'] ∨ ';' ∈ operator) :
    Tame Error.Commented (d.define name (String.ofList operator) rhs) := by
  intro e he
  unfold Definitions.define at he
  rcases h with rfl | rfl | h
  · rw [if_pos rfl] at he
    split at he <;> cases he
    trivial
  · rw [if_neg (by decide), if_pos rfl] at he
    split at he <;> cases he
    trivial
  · split at he
    · split at he <;> cases he
      trivial
    · split at he
      · split at he <;> cases he
        trivial
      · cases he
        simpa [Error.Commented] using h

/-- Where a list of rules is read, the operator of each of them stands between two runs of layout. -/
theorem operator_of_rule {t : Text} {q : Nat} {ns : List Node} {n o : Node}
    (hm : (reading t).Matches item.many 0 q ns) (hn : n ∈ ns) (ho : o ∈ n.children)
    (hname : o.name? = some "defined_as") :
    ∃ u op v, o.text = u ++ op ++ v ∧ Layout u ∧ Layout v ∧ (op = ['='] ∨ op = ['=', '/']) := by
  obtain ⟨_, _, hmatch⟩ := hm.part hn (.child ho (.self o)) (tag_of_name? hname)
  exact operator_split hmatch

theorem trim_commented {u op v : Text} (hu : Layout u) (hv : Layout v) (hop : op = ['='] ∨ op = ['=', '/']) :
    trim (u ++ op ++ v) = ['='] ∨ trim (u ++ op ++ v) = ['=', '/'] ∨ ';' ∈ trim (u ++ op ++ v) := by
  by_cases hs : ';' ∈ u ++ v
  · refine .inr (.inr (mem_trim ?_ (by decide)))
    simp only [List.mem_append] at hs ⊢
    tauto
  · have ht := (trim_operator_iff hu hv hop).2 hs
    rcases hop with rfl | rfl
    · exact .inl ht
    · exact .inr (.inl ht)

theorem compile_commented (t : Text) : Tame Error.Commented (compile t) := by
  refine compile_tame (fun _ _ => trivial) fun q ns n hm hmem hname d => ?_
  have hshapely : Shapely n := fun m hpart => part_shaped hm hmem hpart
  obtain ⟨_, o, rhs, _, _, ho, honame, hrhs, hadd⟩ := addRule_eq hshapely hname
  obtain ⟨u, op, v, htext, hu, hv, hop⟩ := operator_of_rule hm hmem ho honame
  rw [hadd, htext]
  exact (hrhs.mono fun _ => Error.Numeric.commented).bind fun _ _ =>
    define_commented d _ _ (trim_commented hu hv hop)

end PegTree.Abnf
