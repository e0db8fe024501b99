import PegTree.Proofs.Abnf.Tokens

/-!
# What the phrases of ABNF read

Elements, repetitions, concatenations and alternations are read whole up to what may stand after
them, and the walk over their nodes gives what they mean.
-/

namespace PegTree.Abnf

/-! ## How phrases start -/

theorem not_mem_of_contains {k : CharClass} {c : Char} {cs : List Char} (h : k.contains c = true)
    (hcs : (cs.all fun d => !k.contains d) = true) : c ∉ cs := by
  intro hc
  have hd := List.all_eq_true.1 hcs c hc
  rw [h] at hd
  cases hd

theorem not_contains_of_mem {k : CharClass} {c : Char} {cs : List Char}
    (hcs : (cs.all fun d => !k.contains d) = true) (hc : c ∈ cs) : k.contains c = false := by
  simpa using List.all_eq_true.1 hcs c hc

/-- What elements start with. -/
def opening : CharClass :=
  .union (.union (.union (.union letter (.single '(')) (.single '[')) (.single '"')) (.single '%')

/-- What repetitions start with. -/
def starting : CharClass := .union (.union opening decimal) (.single '*')

theorem opening_contains {c : Char} : opening.contains c = true ↔
    letter.contains c = true ∨ c = '(' ∨ c = '[' ∨ c = '"' ∨ c = '%' := by
  simp only [opening, CharClass.contains, Bool.or_eq_true, ← CharClass.contains_single, or_assoc]

theorem starting_contains {c : Char} : starting.contains c = true ↔
    opening.contains c = true ∨ decimal.contains c = true ∨ c = '*' := by
  simp only [starting, CharClass.contains, Bool.or_eq_true, ← CharClass.contains_single, or_assoc]

theorem not_decimal_of_opening {c : Char} (h : opening.contains c = true) :
    decimal.contains c = false ∧ c ≠ '*' := by
  have hstar : c ≠ '*' := by
    rintro rfl
    exact absurd h (by decide)
  refine ⟨?_, hstar⟩
  rw [← Bool.not_eq_true]
  simp [opening, letter, decimal, CharClass.single, CharClass.contains] at h ⊢
  omega

theorem Element.opens (e : Element) : ∃ c z, e.written = c :: z ∧ opening.contains c = true := by
  cases e with
  | name n => exact ⟨n.head, n.tail, by simp [written, Name.written], opening_contains.2 (.inl n.head_letter)⟩
  | group a => exact ⟨'(', a.written ++ [')'], by simp [written], by decide⟩
  | option a => exact ⟨'[', a.written ++ [']'], by simp [written], by decide⟩
  | quotation q => exact ⟨'"', q.text ++ ['"'], by simp [written, Quotation.written], by decide⟩
  | value v => exact ⟨'%', v.base.letter :: v.body, by simp [written, Value.written], by decide⟩

theorem Bounds.starts (b : Bounds) : ∃ c z, b.written = c :: z ∧ (decimal.contains c = true ∨ c = '*') := by
  have hcount : ∀ (n : Count) (y : Text), ∃ c z, n.digits ++ y = c :: z ∧ decimal.contains c = true := by
    intro n y
    obtain ⟨c, z, hcz⟩ := List.exists_cons_of_ne_nil n.nonempty
    refine ⟨c, z ++ y, by simp [hcz], ?_⟩
    rw [decimal_contains]
    exact n.isDigit c (by simp [hcz])
  cases b with
  | exactly n =>
    obtain ⟨c, z, hcz, hc⟩ := hcount n []
    exact ⟨c, z, by simpa [written] using hcz, .inl hc⟩
  | within low high h =>
    cases low with
    | none => exact ⟨'*', digitsOf high, by simp [written, digitsOf], .inr rfl⟩
    | some n =>
      obtain ⟨c, z, hcz, hc⟩ := hcount n ('*' :: digitsOf high)
      exact ⟨c, z, by simpa [written, digitsOf] using hcz, .inl hc⟩

theorem Repetition.starts (r : Repetition) : ∃ c z, r.written = c :: z ∧ starting.contains c = true := by
  obtain ⟨bounds, element⟩ := r
  cases bounds with
  | none =>
    obtain ⟨c, z, hcz, hc⟩ := element.opens
    exact ⟨c, z, by simpa [written] using hcz, starting_contains.2 (.inl hc)⟩
  | some b =>
    obtain ⟨c, z, hcz, hc⟩ := b.starts
    exact ⟨c, z ++ element.written, by simp [written, hcz], starting_contains.2 (.inr hc)⟩

theorem Concatenation.starts (c : Concatenation) : ∃ x z, c.written = x :: z ∧ starting.contains x = true := by
  cases c with
  | sole r =>
    obtain ⟨x, z, hxz, hx⟩ := r.starts
    exact ⟨x, z, by simpa [written] using hxz, hx⟩
  | more r c =>
    obtain ⟨x, z, hxz, hx⟩ := r.starts
    exact ⟨x, z ++ ' ' :: c.written, by simp [written, hxz], hx⟩

theorem Alternation.starts (a : Alternation) : ∃ x z, a.written = x :: z ∧ starting.contains x = true := by
  cases a with
  | sole c =>
    obtain ⟨x, z, hxz, hx⟩ := c.starts
    exact ⟨x, z, by simpa [written] using hxz, hx⟩
  | more c a =>
    obtain ⟨x, z, hxz, hx⟩ := c.starts
    exact ⟨x, z ++ ' ' :: '/' :: ' ' :: a.written, by simp [written, hxz], hx⟩

theorem bare_of_starts {u y : Text} (h : ∃ c z, u = c :: z ∧ starting.contains c = true) : Bare (u ++ y) := by
  obtain ⟨c, z, rfl, hc⟩ := h
  exact .of_head (not_mem_of_contains hc (by decide))

/-! ## What stands after phrases -/

/-- After an element: a space, a closing bracket or the end of the line. -/
def Parted (y : Text) : Prop := ∃ c z, y = c :: z ∧ c ∈ [' ', ')', ']', '\n']

/-- After an alternation: a closing bracket or the end of a line that does not go on. -/
def Closed (y : Text) : Prop := Bare y ∧ ∃ c z, y = c :: z ∧ c ∈ [')', ']', '\n']

theorem Closed.parted {y : Text} (h : Closed y) : Parted y := by
  obtain ⟨_, c, z, rfl, hc⟩ := h
  exact ⟨c, z, rfl, List.mem_cons_of_mem _ hc⟩

section
variable {t y : Text} (hy : Parted y)
include hy

theorem Parted.not_nameChar : ∀ c ∈ y.head?, nameChar.contains c = false := by
  obtain ⟨c, z, rfl, hc⟩ := hy
  intro d hd
  cases hd
  exact not_contains_of_mem (by decide) hc

theorem Parted.past (b : Base) : Past b y := by
  obtain ⟨c, z, rfl, hc⟩ := hy
  intro d hd
  cases hd
  have hpast : (isDigitOf b.radix c = false ∧ c ≠ '.' ∧ c ≠ '-') := by
    simp only [List.mem_cons, List.not_mem_nil, or_false] at hc
    rcases hc with rfl | rfl | rfl | rfl <;> cases b <;> decide
  exact hpast

end

/-! ## Walks -/

section
variable {n c : Node} {cs ns ms : List Node}

theorem element_of_child (h : n.children = c :: cs) : element n = match c.name? with
    | some "rulename" => .ok (.placeholder false (String.ofList c.text))
    | some "group" => alternationIn c.tag c.children
    | some "option" => (do return (← alternationIn c.tag c.children).maybe)
    | some "char_val" => charVal c.text
    | some "num_val" => numVal c.text
    | _ => .error (.malformed (.unexpected c.tag.label)) := by
  obtain ⟨tag, text, offset, stop, children⟩ := n
  obtain ⟨tag', text', offset', stop', children'⟩ := c
  cases h
  rw [element]
  rfl

theorem repetition_eq : repetition n = (do withBounds (← elementIn n.tag n.children) n.children) := by
  obtain ⟨tag, text, offset, stop, children⟩ := n
  rw [repetition]

/-! Nodes that stand alone below others. -/

theorem withBounds_none {m : Node} {e : Expr} (hm : m.name? = some "element") : withBounds e [m] = .ok e := by
  simp [withBounds, hm]

section
variable {m : Node} (h : n.children = [m])
include h

theorem repetition_sole (hm : m.name? = some "element") : repetition n = element m := by
  rw [repetition_eq, h]
  simp only [elementIn, hm, beq_self_eq_true, if_true]
  show (element m >>= fun e => withBounds e [m]) = _
  simp only [withBounds_none hm]
  exact bind_pure _

theorem concatenation_sole (hm : m.name? = some "repetition") : concatenation n = some <$> repetition m := by
  obtain ⟨tag, text, offset, stop, children⟩ := n
  cases h
  rw [concatenation, repetitions, if_pos (by simp [hm])]
  cases repetition m <;> rfl

theorem alternation_sole (hm : m.name? = some "concatenation") {r : Except Error Expr}
    (hr : concatenation m = some <$> r) : alternation n = r := by
  obtain ⟨tag, text, offset, stop, children⟩ := n
  cases h
  rw [alternation, concatenations, if_pos (by simp [hm]), hr]
  cases r <;> rfl

theorem alternationIn_sole (hm : m.name? = some "alternation") :
    alternationIn n.tag n.children = alternation m := by
  simp [h, alternationIn, hm]

end

/-- The walk gives `xs` for the nodes of a rule among `ns`. -/
def Gives {α : Type} (name : String) (f : Node → Except Error α) (xs : List α) (ns : List Node) : Prop :=
  (ns.filter (·.name? == some name)).mapM f = .ok xs

section
variable {α : Type} {name : String} {f : Node → Except Error α} {x : α} {xs ys : List α}

theorem Gives.append (h : Gives name f xs ns) (h' : Gives name f ys ms) : Gives name f (xs ++ ys) (ns ++ ms) := by
  unfold Gives at *
  rw [List.filter_append, List.mapM_append, h, h']
  rfl

theorem Gives.silent (h : Silent ns) : Gives name f [] ns := by
  have hf : ns.filter (·.name? == some name) = [] := by
    rw [List.filter_eq_nil_iff]
    intro n hn
    simp [h n hn]
  unfold Gives
  rw [hf]
  rfl

theorem Gives.lone (h : Lone name (f · = .ok x) ns) : Gives name f [x] ns := by
  obtain ⟨n, rfl, hn, hf⟩ := h
  unfold Gives
  simp [hn, hf]

end

theorem repetitions_eq (ns : List Node) :
    repetitions ns = (ns.filter (·.name? == some "repetition")).mapM repetition := by
  induction ns with
  | nil => rfl
  | cons n ns ih =>
    rw [repetitions, List.filter_cons]
    by_cases hn : (n.name? == some "repetition") = true
    · rw [if_pos hn, if_pos hn, List.mapM_cons, ih]
    · rw [if_neg hn, if_neg hn, ih]

theorem concatenations_eq (ns : List Node) :
    concatenations ns =
      (·.flatMap Option.toList) <$> (ns.filter (·.name? == some "concatenation")).mapM concatenation := by
  induction ns with
  | nil => rfl
  | cons n ns ih =>
    rw [concatenations, List.filter_cons]
    by_cases hn : (n.name? == some "concatenation") = true
    · rw [if_pos hn, if_pos hn, List.mapM_cons, ih]
      simp
    · rw [if_neg hn, if_neg hn, ih]

theorem concatenation_of_gives {es : List Expr} (h : Gives "repetition" repetition es n.children) (hes : es ≠ []) :
    concatenation n = .ok (some (unlessSole (.sequence false) es)) := by
  obtain ⟨tag, text, offset, stop, children⟩ := n
  have hr : repetitions children = .ok es := (repetitions_eq children).trans h
  rw [concatenation, hr]
  cases es with
  | nil => exact absurd rfl hes
  | cons e es => rfl

theorem alternation_of_gives {es : List Expr} (h : Gives "concatenation" concatenation (es.map some) n.children)
    (hes : es ≠ []) : alternation n = .ok (unlessSole (.choice false) es) := by
  obtain ⟨tag, text, offset, stop, children⟩ := n
  have hc : concatenations children = .ok es := by
    have hmap : (es.map some).flatMap Option.toList = es := by simp [List.flatMap_map]
    unfold Gives at h
    rw [concatenations_eq, h]
    exact congrArg Except.ok hmap
  rw [alternation, hc]
  cases es with
  | nil => exact absurd rfl hes
  | cons e es => rfl

/-- The walk goes on with the alternation behind an opening bracket. -/
theorem alternationIn_enclosed {Q : List Node → Prop} {e : Expr} {owner : Tag}
    (h : Before Silent (Before (· = []) (Before (Lone "alternation" (alternation · = .ok e)) Q)) ns) :
    alternationIn owner ns = .ok e := by
  obtain ⟨as, _, ha, ⟨_, _, rfl, ⟨_, bs, ⟨n, rfl, hn, he⟩, _, rfl⟩, rfl⟩, rfl⟩ := h
  induction as with
  | nil => simp [alternationIn, hn, he]
  | cons a as ih =>
    obtain ⟨ha, has⟩ := List.forall_mem_cons.1 ha
    rw [List.cons_append, alternationIn]
    simpa [ha] using ih has

end

/-! ## Readings of phrases -/

namespace Concatenation

theorem exprs_ne_nil (c : Concatenation) : c.exprs ≠ [] := by cases c <;> simp [exprs]

theorem unlessSole_exprs (c : Concatenation) : unlessSole (.sequence false) c.exprs = c.expr := by
  cases c with
  | sole r => simp [exprs, expr, unlessSole]
  | more r c => cases c <;> simp [exprs, expr, unlessSole]

end Concatenation

namespace Alternation

theorem exprs_ne_nil (a : Alternation) : a.exprs ≠ [] := by cases a <;> simp [exprs]

theorem unlessSole_exprs (a : Alternation) : unlessSole (.choice false) a.exprs = a.expr := by
  cases a with
  | sole c => simp [exprs, expr, unlessSole]
  | more c a => cases a <;> simp [exprs, expr, unlessSole]

end Alternation

/-- One more repetition of a concatenation. -/
def following : Expr := row [(Expr.ref "c_wsp").many1, .ref "repetition"]

/-- One more alternative. -/
def alternative : Expr := row [blanks, lit "/", blanks, .ref "concatenation"]

/-- After a concatenation: the end of the alternation or one more alternative. -/
def Severed (y : Text) : Prop := Closed y ∨ ∃ z, y = ' ' :: '/' :: z

theorem Severed.parted {y : Text} (h : Severed y) : Parted y := by
  rcases h with h | ⟨z, rfl⟩
  · exact h.parted
  · exact ⟨' ', _, rfl, by simp⟩

section
variable {t y : Text}

theorem stalls_group (hy : ∀ c ∈ y.head?, c ≠ '(') : (reading t).Stalls (.ref "group") y :=
  stalls_rule rfl (stalls_lit rfl hy).sequence

theorem stalls_option (hy : ∀ c ∈ y.head?, c ≠ '[') : (reading t).Stalls (.ref "option") y :=
  stalls_rule rfl (stalls_lit rfl hy).sequence

theorem stalls_repetition (hy : ∀ c ∈ y.head?, starting.contains c = false) :
    (reading t).Stalls (.ref "repetition") y := by
  have hnone : ∀ c ∈ y.head?, (letter.contains c = false ∧ c ≠ '(' ∧ c ≠ '[' ∧ c ≠ '"' ∧ c ≠ '%') ∧
      decimal.contains c = false ∧ c ≠ '*' := by
    intro c hc
    have hs := Bool.eq_false_iff.1 (hy c hc)
    simpa [starting_contains, opening_contains, not_or] using hs
  have hbounds : (reading t).Reads (Expr.ref "repeat").maybe [] y (· = []) :=
    (stalls_bounds fun c hc => (hnone c hc).2).maybe
  have helement : (reading t).Stalls (.ref "element") y := by
    refine stalls_rule rfl (Reading.stalls_choice fun e he => ?_)
    simp only [List.mem_cons, List.not_mem_nil, or_false] at he
    rcases he with rfl | rfl | rfl | rfl | rfl
    · exact stalls_name fun c hc => (hnone c hc).1.1
    · exact stalls_group fun c hc => (hnone c hc).1.2.1
    · exact stalls_option fun c hc => (hnone c hc).1.2.2.1
    · exact stalls_quotation fun c hc => (hnone c hc).1.2.2.2.1
    · exact stalls_value fun c hc => (hnone c hc).1.2.2.2.2
  exact stalls_rule rfl (hbounds.stalls helement.sequence)

theorem stalls_following (hy : Severed y) : (reading t).Stalls following y := by
  rcases hy with ⟨hb, _⟩ | ⟨z, rfl⟩
  · exact (stalls_layout hb).many1.sequence
  · have hs : (reading t).Reads (Expr.ref "c_wsp").many1 [' '] ('/' :: z) (· = []) :=
      (runs_space (.of_head (by decide))).many1
    exact hs.stalls (stalls_repetition fun c hc => by cases hc; decide).sequence

theorem stalls_alternative (hy : Closed y) : (reading t).Stalls alternative y := by
  obtain ⟨hb, c, z, rfl, hc⟩ := hy
  have hslash : (reading t).Stalls (lit "/") (c :: z) := stalls_lit rfl fun d hd => by
    cases hd
    rintro rfl
    revert hc
    decide
  exact (reads_nothing hb).stalls hslash.sequence

section
variable {u : Text} {e : Expr} (hu : ∃ c z, u = c :: z ∧ starting.contains c = true)
include hu

theorem reads_following
    (h : (reading t).Reads (.ref "repetition") u y (Lone "repetition" (repetition · = .ok e))) :
    (reading t).Reads following (' ' :: u) y (Gives "repetition" repetition [e]) := by
  have hspace : (reading t).Reads (Expr.ref "c_wsp").many1 [' '] (u ++ y) (· = []) :=
    (runs_space (bare_of_starts hu)).many1
  refine (hspace.row h.last).sequence.imp fun _ hn => ?_
  obtain ⟨_, bs, rfl, hb, rfl⟩ := hn
  exact .lone hb

theorem reads_alternative
    (h : (reading t).Reads (.ref "concatenation") u y (Lone "concatenation" (concatenation · = .ok (some e)))) :
    (reading t).Reads alternative (' ' :: '/' :: ' ' :: u) y (Gives "concatenation" concatenation [some e]) := by
  have hslash := (reads_lit (t := t) (s := "/") rfl).row ((reads_space (bare_of_starts hu)).row h.last)
  have hspace : (reading t).Reads blanks [' '] ('/' :: ' ' :: u ++ y) (· = []) :=
    reads_space (.of_head (by decide))
  refine (hspace.row hslash).sequence.imp fun _ hn => ?_
  obtain ⟨_, _, rfl, ⟨as, _, ha, ⟨_, bs, rfl, hb, rfl⟩, rfl⟩, rfl⟩ := hn
  exact (Gives.silent ha).append (.lone hb)

end

theorem reads_enclosed {o c : String} {a b : Char} {u : Text} {P : List Node → Prop} (ho : o.toList = [a])
    (hc : c.toList = [b]) (hu : Bare (u ++ b :: y)) (hb : Bare (b :: y))
    (h : (reading t).Reads (.ref "alternation") u (b :: y) P) :
    (reading t).Reads (enclosed o c) (a :: (u ++ [b])) y
      (Before Silent (Before (· = []) (Before P (Before (· = []) Silent)))) := by
  have hclose := (reads_nothing (t := t) hb).row (reads_lit hc).last
  have hopen := (reads_nothing (t := t) (y := u ++ [b] ++ y) (by simpa using hu)).row (h.row hclose)
  exact ((reads_lit (t := t) ho).row hopen).sequence

theorem closed_bracket {b : Char} (hb : b ∈ [')', ']']) : Closed (b :: y) := by
  have hbare : b ∉ [' ', '\t', ';', '\r', '\n'] := by
    rcases List.mem_pair.1 hb with rfl | rfl <;> decide
  exact ⟨.of_head hbare, b, y, rfl, List.mem_append_left ['\n'] hb⟩

section
variable {u : Text} {e : Expr} (hu : Bare (u ++ y))
include hu

theorem reads_group {z : Text} (hy : y = ')' :: z)
    (h : (reading t).Reads (.ref "alternation") u y (Lone "alternation" (alternation · = .ok e))) :
    (reading t).Reads (.ref "group") ('(' :: (u ++ [')'])) z
      (Lone "group" fun n => alternationIn n.tag n.children = .ok e) := by
  subst hy
  have hb := (closed_bracket (y := z) (b := ')') (by simp)).1
  exact (reads_rule rfl rfl (reads_enclosed rfl rfl hu hb h)).imp fun _ hl => hl.imp fun _ hn =>
    alternationIn_enclosed hn.2

theorem reads_option {z : Text} (hy : y = ']' :: z)
    (h : (reading t).Reads (.ref "alternation") u y (Lone "alternation" (alternation · = .ok e))) :
    (reading t).Reads (.ref "option") ('[' :: (u ++ [']'])) z
      (Lone "option" fun n => alternationIn n.tag n.children = .ok e) := by
  subst hy
  have hb := (closed_bracket (y := z) (b := ']') (by simp)).1
  exact (reads_rule rfl rfl (reads_enclosed rfl rfl hu hb h)).imp fun _ hl => hl.imp fun _ hn =>
    alternationIn_enclosed hn.2

end

theorem reads_elementOf {u : Text} {name : String} {F G : Node → Prop}
    (h : (reading t).Reads
      (oneOf [.ref "rulename", .ref "group", .ref "option", .ref "char_val", .ref "num_val"]) u y
      (Lone name F)) (hG : ∀ n c, n.children = [c] → c.name? = some name → F c → G n) :
    (reading t).Reads (.ref "element") u y (Lone "element" G) := by
  refine (reads_rule rfl rfl h).imp fun _ hl => hl.imp fun n hn => ?_
  obtain ⟨_, c, hc, hname, hF⟩ := hn
  exact hG n c hc hname hF

section
variable {c : Char} {u : Text} {es : List Expr} {P : List Node → Prop}

theorem reads_pastName (hc : letter.contains c = false) (h : (reading t).Reads (oneOf es) (c :: u) y P) :
    (reading t).Reads (oneOf (.ref "rulename" :: es)) (c :: u) y P :=
  (stalls_name fun d hd => by cases hd; exact hc).choice h

theorem reads_pastGroup (hc : c ≠ '(') (h : (reading t).Reads (oneOf es) (c :: u) y P) :
    (reading t).Reads (oneOf (.ref "group" :: es)) (c :: u) y P :=
  (stalls_group fun d hd => by cases hd; exact hc).choice h

theorem reads_pastOption (hc : c ≠ '[') (h : (reading t).Reads (oneOf es) (c :: u) y P) :
    (reading t).Reads (oneOf (.ref "option" :: es)) (c :: u) y P :=
  (stalls_option fun d hd => by cases hd; exact hc).choice h

theorem reads_pastQuotation (hc : c ≠ '"') (h : (reading t).Reads (oneOf es) (c :: u) y P) :
    (reading t).Reads (oneOf (.ref "char_val" :: es)) (c :: u) y P :=
  (stalls_quotation fun d hd => by cases hd; exact hc).choice h

end

theorem reads_valueElement (l : ValueLexeme) (hy : Past l.base y) :
    (reading t).Reads (.ref "element") l.written y (Lone "element" (element · = numVal l.written)) := by
  have hvalue : (reading t).Reads (oneOf [.ref "char_val", .ref "num_val"]) l.written y _ :=
    reads_pastQuotation (by decide) (reads_valueLexeme l hy).choice
  refine reads_elementOf
    (reads_pastName (by decide) (reads_pastGroup (by decide) (reads_pastOption (by decide) hvalue)))
    fun m c hc hn hF => ?_
  simp only [element_of_child hc, hn, hF]

theorem withBounds_some {n m : Node} {e : Expr} (b : Bounds) (hn : n.name? = some "repeat")
    (ht : n.text = b.written) :
    withBounds e [n, m] = .ok (.repetition false b.low b.high e) := by
  simp only [withBounds, List.find?_cons, hn, beq_self_eq_true, ht, Bounds.decoded]
  rfl

theorem charVal_written (q : Quotation) :
    charVal q.written = .ok (.literal false [.text q.text] (some false)) := by
  simp only [Quotation.written, charVal, List.getLast?_concat, List.dropLast_concat, if_true]
  rfl

/-! The induction is on phrases, with what stands after them left open. The rest of a concatenation or
of an alternation is what a repetition reads, and has a statement of its own. -/

mutual
theorem reads_element (e : Element) {y : Text} (hy : Parted y) :
    (reading t).Reads (.ref "element") e.written y (Lone "element" (element · = .ok e.expr)) := by
  match e with
  | .name n =>
    refine reads_elementOf (reads_name n hy.not_nameChar).choice fun m c hc hname htext => ?_
    rw [element_of_child hc, hname, htext]
    simp [Element.expr, Name.label]
  | .group a =>
    have ha := reads_alternation (y := ')' :: y) a (closed_bracket (by simp))
    refine reads_elementOf (reads_pastName (by decide) (reads_group (bare_of_starts a.starts) rfl ha).choice)
      fun m c hc hn hF => ?_
    rw [element_of_child hc, hn]
    simpa [Element.expr] using hF
  | .option a =>
    have ha := reads_alternation (y := ']' :: y) a (closed_bracket (by simp))
    have hoption := reads_option (bare_of_starts a.starts) rfl ha
    refine reads_elementOf
      (reads_pastName (by decide) (reads_pastGroup (by decide) hoption.choice)) fun m c hc hn hF => ?_
    rw [element_of_child hc, hn]
    simp [Element.expr, hF, Expr.maybe]
  | .quotation q =>
    refine reads_elementOf (reads_pastName (by decide) (reads_pastGroup (by decide) (reads_pastOption (by decide)
      (reads_quotation q).choice))) fun m c hc hn hF => ?_
    rw [element_of_child hc, hn, hF]
    simpa [Element.expr] using charVal_written q
  | .value v =>
    have hv := reads_valueElement (t := t) v.lexeme (hy.past v.base)
    rw [v.written_lexeme, numVal_written v] at hv
    simpa [Element.written, Element.expr] using hv
theorem reads_repetition (r : Repetition) {y : Text} (hy : Parted y) :
    (reading t).Reads (.ref "repetition") r.written y (Lone "repetition" (repetition · = .ok r.expr)) := by
  match r with
  | .mk bounds e =>
    have helement := reads_element e hy
    obtain ⟨c, z, hcz, hc⟩ := e.opens
    have hnext : ∀ d ∈ (e.written ++ y).head?, decimal.contains d = false ∧ d ≠ '*' := by
      rw [hcz]
      intro d hd
      cases hd
      exact not_decimal_of_opening hc
    cases bounds with
    | none =>
      have hrow := (stalls_bounds (t := t) hnext).maybe.row helement.last
      rw [List.nil_append] at hrow
      refine (reads_rule rfl rfl hrow.sequence).imp fun _ hl => hl.imp fun n hn => ?_
      obtain ⟨_, _, _, rfl, ⟨m, rfl, hm, he⟩, hchildren⟩ := hn
      rw [repetition_sole hchildren hm, he, Repetition.expr]
    | some b =>
      have hrow := (reads_bounds (t := t) b hnext).maybe.row helement.last
      refine (reads_rule rfl rfl hrow.sequence).imp fun _ hl => hl.imp fun n hn => ?_
      obtain ⟨_, _, _, ⟨k, rfl, hk, ht⟩, ⟨m, rfl, hm, he⟩, hchildren⟩ := hn
      have hin : elementIn n.tag ([k] ++ [m]) = .ok e.expr := by simp [elementIn, hk, hm, he]
      rw [repetition_eq, hchildren, hin, Repetition.expr]
      exact withBounds_some b hk ht
theorem reads_concatenation (c : Concatenation) {y : Text} (hy : Severed y) :
    (reading t).Reads (.ref "concatenation") c.written y
      (Lone "concatenation" (concatenation · = .ok (some c.expr))) := by
  have hbody : (reading t).Reads (row [.ref "repetition", following.many]) c.written y
      (Gives "repetition" repetition c.exprs) := by
    match c with
    | .sole r =>
      have hrow := (reads_repetition r hy.parted).alone (stalls_following hy).runs.many.last
      exact hrow.sequence.imp fun _ hn => .lone hn
    | .more r c =>
      obtain ⟨k, hruns⟩ := runs_following c hy
      have hrow := (reads_repetition r ⟨' ', c.written ++ y, rfl, by simp⟩).row hruns.many.last
      refine hrow.sequence.imp fun _ hn => ?_
      obtain ⟨as, bs, ha, hb, rfl⟩ := hn
      exact (Gives.lone ha).append hb
  refine (reads_rule rfl rfl hbody).imp fun _ hl => hl.imp fun n hn => ?_
  rw [concatenation_of_gives hn.2 c.exprs_ne_nil, c.unlessSole_exprs]
theorem runs_following (c : Concatenation) {y : Text} (hy : Severed y) :
    ∃ k, (reading t).Runs following (' ' :: c.written) y k (Gives "repetition" repetition c.exprs) := by
  match c with
  | .sole r =>
    have hstep := reads_following r.starts (reads_repetition r hy.parted)
    exact ⟨1, hstep.once (List.cons_ne_nil _ _) (stalls_following hy)⟩
  | .more r c =>
    obtain ⟨k, hruns⟩ := runs_following c hy
    have hstep := reads_following r.starts (reads_repetition r ⟨' ', c.written ++ y, rfl, by simp⟩)
    have hall := hstep.runs (List.cons_ne_nil _ _) hruns
    refine ⟨k + 1, hall.imp fun _ hn => ?_⟩
    obtain ⟨as, bs, ha, hb, rfl⟩ := hn
    exact ha.append hb
theorem reads_alternation (a : Alternation) {y : Text} (hy : Closed y) :
    (reading t).Reads (.ref "alternation") a.written y (Lone "alternation" (alternation · = .ok a.expr)) := by
  have hbody : (reading t).Reads (row [.ref "concatenation", alternative.many]) a.written y
      (Gives "concatenation" concatenation (a.exprs.map some)) := by
    match a with
    | .sole c =>
      have hrow := (reads_concatenation c (.inl hy)).alone (stalls_alternative hy).runs.many.last
      exact hrow.sequence.imp fun _ hn => .lone hn
    | .more c a =>
      obtain ⟨k, hruns⟩ := runs_alternatives a hy
      have hrow := (reads_concatenation c (.inr ⟨' ' :: a.written ++ y, rfl⟩)).row hruns.many.last
      refine hrow.sequence.imp fun _ hn => ?_
      obtain ⟨as, bs, ha, hb, rfl⟩ := hn
      exact (Gives.lone ha).append hb
  refine (reads_rule rfl rfl hbody).imp fun _ hl => hl.imp fun n hn => ?_
  rw [alternation_of_gives hn.2 a.exprs_ne_nil, a.unlessSole_exprs]
theorem runs_alternatives (a : Alternation) {y : Text} (hy : Closed y) :
    ∃ k, (reading t).Runs alternative (' ' :: '/' :: ' ' :: a.written) y k
      (Gives "concatenation" concatenation (a.exprs.map some)) := by
  match a with
  | .sole c =>
    have hstep := reads_alternative c.starts (reads_concatenation c (.inl hy))
    exact ⟨1, hstep.once (List.cons_ne_nil _ _) (stalls_alternative hy)⟩
  | .more c a =>
    obtain ⟨k, hruns⟩ := runs_alternatives a hy
    have hstep := reads_alternative c.starts (reads_concatenation c (.inr ⟨' ' :: a.written ++ y, rfl⟩))
    have hall := hstep.runs (List.cons_ne_nil _ _) hruns
    refine ⟨k + 1, hall.imp fun _ hn => ?_⟩
    obtain ⟨as, bs, ha, hb, rfl⟩ := hn
    exact ha.append hb
end

end

end PegTree.Abnf
