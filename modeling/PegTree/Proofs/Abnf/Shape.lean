import PegTree.Proofs.Abnf.Tree
import PegTree.Proofs.Ranges

/-!
# The shape of ABNF trees

Every node of the tree of an ABNF text has the children that the walk over the tree asks for, so
the walk meets nothing it does not know. What can go wrong is what the text can be blamed for.
-/

namespace PegTree.Abnf

/-! ## What rules leave -/

section
variable {t : Text} {p q : Nat} {ns : List Node} {name : String}

theorem matches_ref {e : Expr} (h : bodies.lookup name = some e) (hd : dropped name = false)
    (hm : (reading t).Matches (.ref name) p q ns) : ∃ n, ns = [n] ∧ n.name? = some name := by
  obtain ⟨inner, x, _, _, rfl⟩ := (matches_body h hd).1 hm
  exact ⟨_, rfl, rfl⟩

theorem matches_node {e : Expr} {n : Node} (h : bodies.lookup name = some e) (hd : dropped name = false)
    (hm : (reading t).Matches (.ref name) p q [n]) :
    n.name? = some name ∧ n.offset = p ∧ (reading t).input.Span p q n.text := by
  obtain ⟨inner, x, _, hx, hn⟩ := (matches_body h hd).1 hm
  cases hn
  exact ⟨rfl, rfl, hx⟩

end

/-- A node has the children that the walk over it asks for, and a quoted text its quotes. -/
structure Shaped (n : Node) : Prop where
  rule : n.name? = some "rule" → n.hasChild "rulename" ∧ n.hasChild "defined_as" ∧ n.hasChild "elements"
  enclosing : n.name? = some "elements" ∨ n.name? = some "group" ∨ n.name? = some "option" →
    n.hasChild "alternation"
  repetition : n.name? = some "repetition" → n.hasChild "element"
  element : n.name? = some "element" → ∃ c cs, n.children = c :: cs ∧
    (c.name? = some "rulename" ∨ c.name? = some "group" ∨ c.name? = some "option" ∨ c.name? = some "char_val" ∨
      c.name? = some "num_val")
  quoted : n.name? = some "char_val" → ∃ x, n.text = '"' :: (x ++ ['"'])

theorem rowMatches_mem {r : Reading} {es : List Expr} {e : Expr} {p q : Nat} {ns : List Node}
    (h : r.RowMatches es p q ns) (he : e ∈ es) : ∃ p' q' ns', r.Matches e p' q' ns' ∧ ns' ⊆ ns := by
  induction es generalizing p ns with
  | nil => cases he
  | cons d es ih =>
    obtain ⟨m, ns₁, ns₂, hd, hes, rfl⟩ := h
    rcases List.mem_cons.1 he with rfl | he
    · exact ⟨p, m, ns₁, hd, List.subset_append_left _ _⟩
    · obtain ⟨p', q', ns', hm, hsub⟩ := ih hes he
      exact ⟨p', q', ns', hm, List.subset_append_of_subset_right _ hsub⟩

section
variable {t : Text} {p q : Nat} {n : Node} {owner name : String}

theorem row_shape {es : List Expr} {e : Expr} (ho : bodies.lookup owner = some (row es))
    (hdo : dropped owner = false) (hm : (reading t).Matches (.ref owner) p q [n]) (hes : .ref name ∈ es)
    (hn : bodies.lookup name = some e) (hdn : dropped name = false) : n.hasChild name = true := by
  obtain ⟨inner, x, hb, _, hnode⟩ := (matches_body ho hdo).1 hm
  obtain ⟨p', q', ns', hm', hsub⟩ := rowMatches_mem (Reading.matches_sequence.1 hb) hes
  obtain ⟨c, rfl, hc⟩ := matches_ref hn hdn hm'
  cases hnode
  unfold Node.hasChild
  rw [List.any_eq_true]
  exact ⟨c, hsub (List.mem_singleton.2 rfl), by simp [hc]⟩

theorem element_shape (hm : (reading t).Matches (.ref "element") p q [n]) : ∃ c cs, n.children = c :: cs ∧
    (c.name? = some "rulename" ∨ c.name? = some "group" ∨ c.name? = some "option" ∨ c.name? = some "char_val" ∨
      c.name? = some "num_val") := by
  obtain ⟨inner, x, hb, _, hn⟩ := (matches_body rfl rfl).1 hm
  cases hn
  rcases Reading.matches_choice.1 hb with h | ⟨_, h | ⟨_, h | ⟨_, h | ⟨_, h | ⟨_, h⟩⟩⟩⟩⟩
  · obtain ⟨c, rfl, hc⟩ := matches_ref rfl rfl h
    exact ⟨c, [], rfl, .inl hc⟩
  · obtain ⟨c, rfl, hc⟩ := matches_ref rfl rfl h
    exact ⟨c, [], rfl, .inr (.inl hc)⟩
  · obtain ⟨c, rfl, hc⟩ := matches_ref rfl rfl h
    exact ⟨c, [], rfl, .inr (.inr (.inl hc))⟩
  · obtain ⟨c, rfl, hc⟩ := matches_ref rfl rfl h
    exact ⟨c, [], rfl, .inr (.inr (.inr (.inl hc)))⟩
  · obtain ⟨c, rfl, hc⟩ := matches_ref rfl rfl h
    exact ⟨c, [], rfl, .inr (.inr (.inr (.inr hc)))⟩
  · exact h.elim

theorem not_quote_of_quotable {x : Char} (h : quotable.contains x = true) :
    (CharClass.single '"').contains x = false := by
  rw [← Bool.not_eq_true, CharClass.contains_single]
  rintro rfl
  exact absurd h (by decide)

theorem quotedPattern_leading {y u : Text} (h : quotedPattern.exact.leading? y = some u) :
    ∃ x, u = '"' :: (x ++ ['"']) := by
  have hl : quotedPattern.exact.leading? y = _ := Regex.leading?_quoted fun _ => not_quote_of_quotable
  rw [hl] at h
  cases y with
  | nil => cases h
  | cons c y =>
    by_cases hc : (CharClass.single '"').contains c = true
    · simp only [if_pos hc] at h
      cases hd : y.dropWhile quotable.contains with
      | nil =>
        rw [hd] at h
        cases h
      | cons d z =>
        rw [hd] at h
        by_cases hq : (CharClass.single '"').contains d = true
        · simp only [if_pos hq] at h
          cases CharClass.contains_single.1 hc
          cases CharClass.contains_single.1 hq
          cases h
          exact ⟨_, rfl⟩
        · simp only [if_neg hq] at h
          cases h
    · simp only [if_neg hc] at h
      cases h

theorem quoted_shape (hm : (reading t).Matches (.ref "char_val") p q [n]) : ∃ x, n.text = '"' :: (x ++ ['"']) := by
  obtain ⟨u, hu, rfl, hn⟩ := (matches_leaf rfl rfl (Input.suffix?_of_isBoundary hm.1)).1 hm
  cases hn
  rw [firstLeading?_pattern] at hu
  exact quotedPattern_leading hu

theorem shaped (h : ∀ name, n.name? = some name → ∃ p q, (reading t).Matches (.ref name) p q [n]) : Shaped n where
  rule hn := by
    obtain ⟨p, q, hm⟩ := h _ hn
    exact ⟨row_shape rfl rfl hm (by simp) rfl rfl, row_shape rfl rfl hm (by simp) rfl rfl,
      row_shape rfl rfl hm (by simp) rfl rfl⟩
  enclosing hn := by
    rcases hn with hn | hn | hn <;> obtain ⟨p, q, hm⟩ := h _ hn
    · exact row_shape rfl rfl hm (by simp) rfl rfl
    · exact row_shape rfl rfl hm (by simp) rfl rfl
    · exact row_shape rfl rfl hm (by simp) rfl rfl
  repetition hn := by
    obtain ⟨p, q, hm⟩ := h _ hn
    exact row_shape rfl rfl hm (by simp) rfl rfl
  element hn := by
    obtain ⟨p, q, hm⟩ := h _ hn
    exact element_shape hm
  quoted hn := by
    obtain ⟨p, q, hm⟩ := h _ hn
    exact quoted_shape hm

end

theorem tag_of_name? {n : Node} {name : String} (h : n.name? = some name) : n.tag = .rule name := by
  obtain ⟨tag, text, offset, stop, children⟩ := n
  cases tag <;> cases h
  rfl

theorem part_shaped {t : Text} {p q : Nat} {ns : List Node} {c m : Node} (h : (reading t).Matches item.many p q ns)
    (hc : c ∈ ns) (hm : m.Part c) : Shaped m :=
  shaped fun _ hn => h.part hc hm (tag_of_name? hn)

/-! ## Walks -/

/-- What can be wrong with a normalized text: that something is left of it where it should end, that it
defines a rule twice, or what its operators and its numbers are. -/
def Error.Foreseen (t : Text) : Error → Prop
  | .fault (.error (.parse e)) => ∃ q, (Input.ofText t).rest q ≠ [] ∧ e = leftOver t q
  | .fault (.error (.duplicateRule _)) => True
  | .fault _ | .malformed _ => False
  | _ => True

def Error.Numeric : Error → Prop
  | .decode _ | .invalidValue _ => True
  | _ => False

/-- Only errors of `P` come of `x`. -/
def Tame {α : Type} (P : Error → Prop) (x : Except Error α) : Prop := ∀ e, x = .error e → P e

section
variable {α β : Type} {P Q : Error → Prop}

theorem Tame.mono {x : Except Error α} (h : Tame P x) (hpq : ∀ e, P e → Q e) : Tame Q x :=
  fun e he => hpq e (h e he)

theorem Tame.ok {a : α} : Tame P (.ok a : Except Error α) := fun _ h => by cases h

theorem Tame.bind {x : Except Error α} {f : α → Except Error β} (hx : Tame P x)
    (hf : ∀ a, x = .ok a → Tame P (f a)) :
    Tame P (x >>= f) := by
  cases x with
  | error e =>
    intro e' he
    cases Except.error.inj he
    exact hx e rfl
  | ok a => exact hf a rfl

theorem Tame.decode {x : Except DecodeError α} : Tame Error.Numeric (x.mapError Error.decode) := by
  cases x with
  | error e =>
    intro e' h
    cases h
    trivial
  | ok a => exact .ok

theorem Tame.mapM {f : α → Except Error β} (h : ∀ a, Tame P (f a)) (as : List α) : Tame P (as.mapM f) := by
  induction as with
  | nil => exact .ok
  | cons a as ih =>
    rw [List.mapM_cons]
    exact (h a).bind fun _ _ => ih.bind fun _ _ => .ok

theorem Tame.foldlM {f : β → α → Except Error β} {as : List α} (h : ∀ b, ∀ a ∈ as, Tame P (f b a)) (b : β) :
    Tame P (as.foldlM f b) := by
  induction as generalizing b with
  | nil => exact .ok
  | cons a as ih =>
    rw [List.foldlM_cons]
    exact (h b a List.mem_cons_self).bind fun b _ => ih (fun b a ha => h b a (List.mem_cons_of_mem _ ha)) b

end

theorem charOf_tame (code : Nat) : Tame Error.Numeric (charOf code) := by
  unfold charOf
  split
  · exact .ok
  · intro e h
    cases h
    trivial

theorem decodeBounds_tame (t : Text) : Tame Error.Numeric (decodeBounds t) := by
  unfold decodeBounds
  refine Tame.decode.bind fun (low, high) _ => ?_
  by_cases h : high.any (· < low) = true
  · simp only [if_pos h]
    intro e he
    cases he
    trivial
  · simp only [if_neg h]
    exact .ok

theorem numVal_tame (t : Text) : Tame Error.Numeric (numVal t) := by
  unfold numVal
  refine Tame.decode.bind fun v _ => ?_
  cases v with
  | codes values => exact (Tame.mapM charOf_tame values).bind fun _ _ => .ok
  | range low high =>
    refine (charOf_tame low).bind fun first _ => (charOf_tame high).bind fun last _ => ?_
    by_cases hlt : last.toNat < first.toNat
    · simp only [if_pos hlt]
      intro e h
      cases h
      trivial
    · obtain ⟨pat, _, hp⟩ := pattern_rangeSource (Nat.le_of_not_lt hlt)
      simp only [if_neg hlt, hp]
      exact .ok

theorem charVal_tame {t : Text} (h : ∃ x, t = '"' :: (x ++ ['"'])) : Tame Error.Numeric (charVal t) := by
  obtain ⟨x, rfl⟩ := h
  simp only [charVal, List.getLast?_concat, if_true]
  exact .ok

theorem withBounds_tame (e : Expr) (siblings : List Node) : Tame Error.Numeric (withBounds e siblings) := by
  unfold withBounds
  split
  · exact (decodeBounds_tame _).bind fun _ _ => .ok
  · exact .ok

def Shapely (n : Node) : Prop := ∀ m : Node, m.Part n → Shaped m

theorem Shapely.child {n c : Node} (h : Shapely n) (hc : c ∈ n.children) : Shapely c :=
  fun m hm => h m (.child hc hm)

theorem name?_eq {tag : Tag} {text : Text} {offset : Nat} {stop : Option Nat} {children : List Node} :
    (⟨tag, text, offset, stop, children⟩ : Node).name? = tag.ruleName? := rfl

/-! Over a shaped tree all that goes wrong in the walk are numbers, function by function. -/

mutual
theorem alternationIn_tame (owner : Tag) (ns : List Node) (h : ∀ n ∈ ns, Shapely n)
    (ha : ns.any (·.name? == some "alternation") = true) : Tame Error.Numeric (alternationIn owner ns) := by
  match ns with
  | [] => cases ha
  | n :: ns =>
    obtain ⟨hn, hns⟩ := List.forall_mem_cons.1 h
    unfold alternationIn
    by_cases hc : (n.name? == some "alternation") = true
    · rw [if_pos hc]
      exact alternation_tame n hn
    · rw [if_neg hc]
      rw [List.any_cons, Bool.eq_false_of_not_eq_true hc, Bool.false_or] at ha
      exact alternationIn_tame owner ns hns ha
theorem alternation_tame (n : Node) (h : Shapely n) : Tame Error.Numeric (alternation n) := by
  obtain ⟨tag, text, offset, stop, children⟩ := n
  unfold alternation
  exact (concatenations_tame children fun c hc => h.child hc).bind fun _ _ => .ok
theorem concatenations_tame (ns : List Node) (h : ∀ n ∈ ns, Shapely n) :
    Tame Error.Numeric (concatenations ns) := by
  match ns with
  | [] => exact .ok
  | n :: ns =>
    obtain ⟨hn, hns⟩ := List.forall_mem_cons.1 h
    unfold concatenations
    split
    · exact (concatenation_tame n hn).bind fun _ _ => (concatenations_tame ns hns).bind fun _ _ => .ok
    · exact concatenations_tame ns hns
theorem concatenation_tame (n : Node) (h : Shapely n) : Tame Error.Numeric (concatenation n) := by
  obtain ⟨tag, text, offset, stop, children⟩ := n
  unfold concatenation
  exact (repetitions_tame children fun c hc => h.child hc).bind fun _ _ => .ok
theorem repetitions_tame (ns : List Node) (h : ∀ n ∈ ns, Shapely n) : Tame Error.Numeric (repetitions ns) := by
  match ns with
  | [] => exact .ok
  | n :: ns =>
    obtain ⟨hn, hns⟩ := List.forall_mem_cons.1 h
    unfold repetitions
    by_cases hc : (n.name? == some "repetition") = true
    · rw [if_pos hc]
      exact (repetition_tame n hn (by simpa using hc)).bind fun _ _ =>
        (repetitions_tame ns hns).bind fun _ _ => .ok
    · rw [if_neg hc]
      exact repetitions_tame ns hns
theorem repetition_tame (n : Node) (h : Shapely n) (hn : n.name? = some "repetition") :
    Tame Error.Numeric (repetition n) := by
  obtain ⟨tag, text, offset, stop, children⟩ := n
  unfold repetition
  have he := (h _ (.self _)).repetition hn
  exact (elementIn_tame tag children (fun c hc => h.child hc) he).bind fun e _ => withBounds_tame e children
theorem elementIn_tame (owner : Tag) (ns : List Node) (h : ∀ n ∈ ns, Shapely n)
    (he : ns.any (·.name? == some "element") = true) : Tame Error.Numeric (elementIn owner ns) := by
  match ns with
  | [] => cases he
  | n :: ns =>
    obtain ⟨hn, hns⟩ := List.forall_mem_cons.1 h
    unfold elementIn
    by_cases hc : (n.name? == some "element") = true
    · rw [if_pos hc]
      exact element_tame n hn (by simpa using hc)
    · rw [if_neg hc]
      rw [List.any_cons, Bool.eq_false_of_not_eq_true hc, Bool.false_or] at he
      exact elementIn_tame owner ns hns he
theorem element_tame (n : Node) (h : Shapely n) (hn : n.name? = some "element") :
    Tame Error.Numeric (element n) := by
  match n with
  | ⟨_, _, _, _, []⟩ =>
    obtain ⟨_, _, hcs, _⟩ := (h _ (.self _)).element hn
    cases hcs
  | ⟨_, _, _, _, ⟨tag, text, offset, stop, children⟩ :: cs⟩ =>
    obtain ⟨c, cs', hcs, hc⟩ := (h _ (.self _)).element hn
    have hshape := h.child (c := ⟨tag, text, offset, stop, children⟩) List.mem_cons_self
    have hsub : ∀ k ∈ children, Shapely k := fun k hk => hshape.child hk
    have hself := hshape _ (.self _)
    rw [← (List.cons.inj hcs).1] at hc
    unfold element
    rcases hc with hc | hc | hc | hc | hc <;> rw [name?_eq] at hc <;> simp only [hc]
    · exact .ok
    · exact alternationIn_tame tag children hsub (hself.enclosing (.inr (.inl hc)))
    · exact (alternationIn_tame tag children hsub (hself.enclosing (.inr (.inr hc)))).bind fun _ _ => .ok
    · exact charVal_tame (hself.quoted hc)
    · exact numVal_tame text
end

/-! ## Compilation -/

theorem child_eq {n : Node} {name : String} (h : n.hasChild name = true) :
    ∃ c ∈ n.children, c.name? = some name ∧ child n name = .ok c := by
  unfold child Node.child?
  unfold Node.hasChild at h
  cases hc : n.childrenNamed name with
  | nil =>
    obtain ⟨c, hmem, hname⟩ := List.any_eq_true.1 h
    have hf : c ∈ n.childrenNamed name := List.mem_filter.2 ⟨hmem, hname⟩
    rw [hc] at hf
    cases hf
  | cons c cs =>
    have hf : c ∈ n.childrenNamed name := by
      rw [hc]
      exact List.mem_cons_self
    obtain ⟨hmem, hname⟩ := List.mem_filter.1 hf
    refine ⟨c, hmem, by simpa using hname, ?_⟩
    cases cs <;> rfl

/-- A rule is walked through before it is defined by its name, its operator and what the walk gives. -/
theorem addRule_eq {n : Node} (h : Shapely n) (hn : n.name? = some "rule") :
    ∃ name operator : Node, ∃ rhs : Except Error Expr, child n "rulename" = .ok name ∧
      child n "defined_as" = .ok operator ∧ operator ∈ n.children ∧ operator.name? = some "defined_as" ∧
      Tame Error.Numeric rhs ∧ ∀ d : Definitions, d.addRule n =
        rhs >>= fun e => d.define (String.ofList name.text) (String.ofList (trim operator.text)) e := by
  obtain ⟨h₁, h₂, h₃⟩ := (h n (.self n)).rule hn
  obtain ⟨c₁, _, _, e₁⟩ := child_eq h₁
  obtain ⟨c₂, hc₂, hname₂, e₂⟩ := child_eq h₂
  obtain ⟨c₃, hc₃, hname₃, e₃⟩ := child_eq h₃
  have hshape := h.child hc₃
  have ha := (hshape c₃ (.self c₃)).enclosing (.inl hname₃)
  refine ⟨c₁, c₂, alternationIn c₃.tag c₃.children, e₁, e₂, hc₂, hname₂, ?_, fun d => ?_⟩
  · exact alternationIn_tame c₃.tag c₃.children (fun c hc => hshape.child hc) ha
  · unfold Definitions.addRule
    rw [e₁, e₂, e₃]
    rfl

theorem rule_mem {x : Text} {q : Nat} {ns : List Node} {n : Node}
    (h : n ∈ (Node.matched (.rule "rulelist") x 0 q
      (ns ++ [.matched .endOfInput [] q q []])).childrenNamed "rule") :
    n ∈ ns ∧ n.name? = some "rule" := by
  obtain ⟨hmem, hname⟩ := List.mem_filter.1 h
  have hname : n.name? = some "rule" := by simpa using hname
  rcases List.mem_append.1 hmem with hmem | hmem
  · exact ⟨hmem, hname⟩
  · rw [List.mem_singleton.1 hmem] at hname
    cases hname

/-- What goes wrong with a text is that more is left of it, or it goes wrong with one of its rules. -/
theorem compile_tame {P : Error → Prop} {t : Text}
    (hleft : ∀ q, (Input.ofText (normalize t)).rest q ≠ [] →
      P (.fault (.error (.parse (leftOver (normalize t) q)))))
    (hrule : ∀ q ns n, (reading (normalize t)).Matches item.many 0 q ns → n ∈ ns → n.name? = some "rule" →
      ∀ d : Definitions, Tame P (d.addRule n)) : Tame P (compile t) := by
  unfold compile
  rcases parseTree_cases (normalize t) with ⟨q, hrest, htree⟩ | ⟨x, q, ns, hm, _, htree⟩
  · rw [htree]
    intro e he
    cases Except.error.inj he
    exact hleft q hrest
  · rw [htree]
    refine Tame.foldlM (fun d n hn => ?_) ({} : Definitions)
    exact hrule q ns n hm (rule_mem hn).1 (rule_mem hn).2 d

theorem Error.Numeric.foreseen {t : Text} {e : Error} (h : e.Numeric) : e.Foreseen t := by
  cases e <;> trivial

theorem define_foreseen (t : Text) (d : Definitions) (name operator : String) (rhs : Expr) :
    Tame (Error.Foreseen t) (d.define name operator rhs) := by
  unfold Definitions.define
  intro e h
  split at h
  · split at h
    · cases h
      trivial
    · cases h
  · split at h
    · split at h
      · cases h
      · cases h
        trivial
    · cases h
      trivial

/-- Whatever the text, the walk over its tree finds what it asks for, and all that can go wrong is
foreseen: nothing is unknown, nothing recurs without end and no match begins inside a character. -/
theorem compile_foreseen (t : Text) (e : Error) (h : compile t = .error e) : e.Foreseen (normalize t) := by
  have htame : Tame (Error.Foreseen (normalize t)) (compile t) := by
    refine compile_tame (fun q hrest => ⟨q, hrest, rfl⟩) fun q ns n hm hmem hname d => ?_
    have hshapely : Shapely n := fun m hpart => part_shaped hm hmem hpart
    obtain ⟨_, _, rhs, _, _, _, _, hrhs, hadd⟩ := addRule_eq hshapely hname
    rw [hadd]
    exact (hrhs.mono fun _ => Error.Numeric.foreseen).bind fun _ _ => define_foreseen _ d _ _ _
  exact htame e h

theorem compile_foreseen_sign : ∃ e, compile ['='] = .error e ∧ e.Foreseen (normalize ['=']) := by
  have he : (match compile ['='] with | .error _ => true | .ok _ => false) = true := by decide +kernel
  cases h : compile ['='] with
  | error e => exact ⟨e, rfl, compile_foreseen ['='] e h⟩
  | ok d =>
    rw [h] at he
    cases he

end PegTree.Abnf
