import PegTree.Proofs.Matching

/-!
# The semantics of parsing expressions

Parsing expressions in their core form, with a big-step semantics: what an expression leaves of a
text, or that it fails. Expressions made of text literals, sequences, choices, repetitions and references
mean such core expressions, and an evaluation does what the semantics says.
-/

namespace PegTree

inductive Peg where
  | empty
  | char (c : Char)
  | rule (name : String)
  | seq (a b : Peg)
  | alt (a b : Peg)
  | star (a : Peg)
  | not (a : Peg)

namespace Peg

def fail : Peg := .not .empty

def string : Text → Peg
  | [] => .empty
  | c :: t => .seq (.char c) (string t)

def strings : List Text → Peg
  | [] => fail
  | t :: ts => .alt (string t) (strings ts)

/-- What an expression leaves of a text, `none` if it fails. -/
inductive Leaves (rules : String → Option Peg) : Peg → Text → Option Text → Prop
  | empty {x} : Leaves rules .empty x (some x)
  | char {c x} : Leaves rules (.char c) (c :: x) (some x)
  | charOther {c d x} : c ≠ d → Leaves rules (.char c) (d :: x) none
  | charEnd {c} : Leaves rules (.char c) [] none
  | rule {name e x r} : rules name = some e → Leaves rules e x r → Leaves rules (.rule name) x r
  | seq {a b x y r} : Leaves rules a x (some y) → Leaves rules b y r → Leaves rules (.seq a b) x r
  | seqFailed {a b x} : Leaves rules a x none → Leaves rules (.seq a b) x none
  | alt {a b x y} : Leaves rules a x (some y) → Leaves rules (.alt a b) x (some y)
  | altFailed {a b x r} : Leaves rules a x none → Leaves rules b x r → Leaves rules (.alt a b) x r
  | star {a x y r} : Leaves rules a x (some y) → Leaves rules (.star a) y r → Leaves rules (.star a) x r
  | starEnd {a x} : Leaves rules a x none → Leaves rules (.star a) x (some x)
  | not {a x y} : Leaves rules a x (some y) → Leaves rules (.not a) x none
  | notFailed {a x} : Leaves rules a x none → Leaves rules (.not a) x (some x)

namespace Leaves

variable {rules : String → Option Peg} {e a b : Peg} {x y : Text} {r r' : Option Text}

theorem unique (h : Leaves rules e x r) (h' : Leaves rules e x r') : r = r' := by
  -- a second derivation by another rule gives a part of the expression another result
  induction h generalizing r' with
  | empty | char | charEnd =>
    cases h'
    · rfl
    all_goals contradiction
  | charOther hne =>
    cases h' with
    | char => exact absurd rfl hne
    | charOther _ => rfl
  | rule hr _ ih =>
    cases h' with
    | rule hr' h' =>
      cases hr.symm.trans hr'
      exact ih h'
  | seq _ _ iha ihb =>
    cases h' with
    | seq ha hb =>
      cases iha ha
      exact ihb hb
    | seqFailed ha => cases iha ha
  | seqFailed _ iha =>
    cases h' with
    | seq ha _ => cases iha ha
    | seqFailed _ => rfl
  | alt _ iha =>
    cases h' with
    | alt ha => exact iha ha
    | altFailed ha _ => cases iha ha
  | altFailed _ _ iha ihb =>
    cases h' with
    | alt ha => cases iha ha
    | altFailed _ hb => exact ihb hb
  | star _ _ iha ihs =>
    cases h' with
    | star ha hs =>
      cases iha ha
      exact ihs hs
    | starEnd ha => cases iha ha
  | starEnd _ iha =>
    cases h' with
    | star ha _ => cases iha ha
    | starEnd _ => rfl
  | not _ iha =>
    cases h' with
    | not _ => rfl
    | notFailed ha => cases iha ha
  | notFailed _ iha =>
    cases h' with
    | not ha => cases iha ha
    | notFailed _ => rfl

theorem star_moves (h : Leaves rules (.star a) x r) : ¬ Leaves rules a x (some x) := by
  generalize he : Peg.star a = e at h
  induction h with
  | star ha _ _ ih =>
    cases he
    intro hx
    cases ha.unique hx
    exact ih rfl hx
  | starEnd ha =>
    cases he
    intro hx
    cases ha.unique hx
  | _ => cases he

theorem string {t : Text} (h : Leaves rules (.string t) x r) :
    r = (leadingText? t true x).map fun u => x.drop u.length := by
  induction t generalizing x with
  | nil =>
    cases h
    simp [leadingText?, leading?]
  | cons c t ih =>
    cases h with
    | seq hc ht =>
      cases hc with
      | char =>
        rw [ih ht]
        simp [leadingText?, leading?, Function.comp_def]
    | seqFailed hc =>
      cases hc with
      | charOther hne => simp [leadingText?, leading?, hne]
      | charEnd => simp [leadingText?, leading?]

theorem strings {ts : List Text} (h : Leaves rules (.strings ts) x r) :
    r = ((ts.map Matcher.text).findSome? (·.leading? true x)).map fun u => x.drop u.length := by
  induction ts with
  | nil =>
    cases h with
    | not h => rfl
    | notFailed h => cases h
  | cons t ts ih =>
    rw [List.map_cons, List.findSome?_cons]
    simp only [Matcher.leading?]
    cases h with
    | alt h =>
      have ht := string h
      cases hl : leadingText? t true x with
      | some u =>
        rw [hl] at ht
        exact ht
      | none =>
        rw [hl] at ht
        cases ht
    | altFailed h hs =>
      have ht := string h
      cases hl : leadingText? t true x with
      | some u =>
        rw [hl] at ht
        cases ht
      | none => exact ih hs

end Leaves

/-- The expression matches, and `u` is what it takes from the start of the text. -/
def Takes (rules : String → Option Peg) (e : Peg) (x u : Text) : Prop :=
  ∃ y, x = u ++ y ∧ Leaves rules e x (some y)

/-! ## Expressions as core expressions -/

/-- What core expressions stand for: an expression, items in a row, alternatives, or an item over
and over. -/
inductive Piece where
  | expr (e : Expr)
  | row (es : List Expr)
  | any (es : List Expr)
  | loop (e : Expr)

/-- The meaning of expressions. A literal of no texts is `Expr.empty`. -/
inductive Piece.Means : Piece → Peg → Prop
  | empty : Means (.expr .empty) .empty
  | texts {t ts} : Means (.expr (.texts (t :: ts))) (.strings (t :: ts))
  | ref {name} : Means (.expr (.ref name)) (.rule name)
  | sequence {es p} : Means (.row es) p → Means (.expr (.sequence false es)) p
  | choice {es p} : Means (.any es) p → Means (.expr (.choice false es)) p
  | many {e p} : Means (.loop e) p → Means (.expr e.many) p
  | many1 {e p} : Means (.expr e) p → Means (.expr e.many1) (.seq p (.star p))
  | maybe {e p} : Means (.expr e) p → Means (.expr e.maybe) (.alt p .empty)
  | loop {e p} : Means (.expr e) p → Means (.loop e) (.star p)
  | rowNil : Means (.row []) .empty
  | rowCons {e es p q} : Means (.expr e) p → Means (.row es) q → Means (.row (e :: es)) (.seq p q)
  | anyNil : Means (.any []) .fail
  | anyCons {e es p q} : Means (.expr e) p → Means (.any es) q → Means (.any (e :: es)) (.alt p q)

theorem Piece.Means.text (t : Text) : Means (.expr (.text t)) (.strings [t]) := @Piece.Means.texts t []

end Peg

structure Grammar.Core (g : Grammar) (rules : String → Option Peg) : Prop where
  strip : g.options.stripWhitespace = false
  caseSensitive : g.options.caseSensitive = true
  unlimited : g.options.maxDepth = none
  steady : ∀ decl ∈ g.rules, decl.overrides = {}
  body : ∀ name e, rules name = some e → ∃ rule, g.Declares name rule ∧ Peg.Piece.Means (.expr rule.body) e

/-! ## What pieces do -/

namespace Reading

open Peg

variable {r : Reading} {rules : String → Option Peg} {e : Expr} {es : List Expr} {f : Piece} {p : Nat}
  {x y : Text} {res : Option Text}

def Ends (r : Reading) (f : Piece) (p : Nat) (y : Text) : Prop :=
  ∃ q ns, r.input.suffix? q = some y ∧
    match f with
    | .expr e => r.Matches e p q ns
    | .row es => r.RowMatches es p q ns
    | .any es => r.AnyMatches es p q ns
    | .loop e => ∃ k, r.Repeats e p q k ns

def Fails (r : Reading) (f : Piece) (p : Nat) : Prop :=
  match f with
  | .expr e => r.Refuses e p
  | .row es => r.RowRefuses es p
  | .any es => r.AnyRefuses es p
  | .loop _ => False

def Gives (r : Reading) (f : Piece) (p : Nat) : Option Text → Prop
  | some y => r.Ends f p y
  | none => r.Fails f p

theorem gives_sequence : r.Gives (.expr (.sequence false es)) p res ↔ r.Gives (.row es) p res := by
  cases res with
  | none => exact refuses_sequence
  | some y => simp only [Gives, Ends, matches_sequence]

theorem gives_choice : r.Gives (.expr (.choice false es)) p res ↔ r.Gives (.any es) p res := by
  cases res with
  | none => exact refuses_choice
  | some y => simp only [Gives, Ends, matches_choice]

theorem gives_row_cons (he : r.Gives (.expr e) p (some y))
    (hes : ∀ q, r.input.suffix? q = some y → r.Gives (.row es) q res) : r.Gives (.row (e :: es)) p res := by
  obtain ⟨m, ns, hm, he⟩ := he
  have hrow := hes m hm
  cases res with
  | none => exact .inr ⟨m, ns, he, hrow⟩
  | some z =>
    obtain ⟨q, ns', hq, hrow⟩ := hrow
    exact ⟨q, ns ++ ns', hq, m, ns, ns', he, hrow, rfl⟩

theorem gives_any_cons (he : r.Gives (.expr e) p none) (hes : r.Gives (.any es) p res) :
    r.Gives (.any (e :: es)) p res := by
  cases res with
  | none => exact ⟨he, hes⟩
  | some y =>
    obtain ⟨q, ns, hq, hes⟩ := hes
    exact ⟨q, ns, hq, .inr ⟨he, hes⟩⟩

theorem gives_many (h : r.Gives (.loop e) p res) : r.Gives (.expr e.many) p res := by
  cases res with
  | none => exact h.elim
  | some y =>
    obtain ⟨q, ns, hq, hrep⟩ := h
    exact ⟨q, ns, hq, matches_many.2 hrep⟩

theorem gives_loop_cons (hx : r.input.suffix? p = some x) (hne : y ≠ x) (he : r.Gives (.expr e) p (some y))
    (hloop : ∀ q, r.input.suffix? q = some y → r.Gives (.loop e) q res) :
    ∃ z q ns k, res = some z ∧ r.input.suffix? q = some z ∧ r.Repeats e p q (k + 1) ns := by
  obtain ⟨m, ns, hm, he⟩ := he
  have hmp : m ≠ p := by
    rintro rfl
    exact hne (Option.some.inj (hm.symm.trans hx))
  have hrest := hloop m hm
  cases res with
  | none => exact hrest.elim
  | some z =>
    obtain ⟨q, ns', hq, k, hrep⟩ := hrest
    exact ⟨z, q, ns ++ ns', k, rfl, hq, .cons he hmp hrep⟩

theorem gives_texts (hc : r.options.caseSensitive = true) (hx : r.input.suffix? p = some x) (t : Text)
    (ts : List Text) : r.Gives (.expr (.texts (t :: ts))) p
      ((((t :: ts).map Matcher.text).findSome? (·.leading? true x)).map fun u => x.drop u.length) := by
  have hf : firstLeading? ((t :: ts).map .text) (Option.getD none r.options.caseSensitive) x =
      ((t :: ts).map Matcher.text).findSome? (·.leading? true x) := by
    rw [Option.getD_none, hc]
    rfl
  cases hl : ((t :: ts).map Matcher.text).findSome? (·.leading? true x) with
  | none => exact (refuses_literal hx).2 (hf.trans hl)
  | some u =>
    obtain ⟨m, _, hm⟩ := List.exists_of_findSome?_eq_some hl
    obtain ⟨y, rfl⟩ := m.leading?_append hm
    refine ⟨p + byteSize u, _, ?_, (matches_literal hx).2 ⟨u, hf.trans hl, rfl, rfl⟩⟩
    dsimp only
    rw [List.drop_left]
    exact Input.suffix?_add hx

/-- Every piece that means `e` does where `x` is left what is said of `e`. -/
def Given (r : Reading) (e : Peg) (x : Text) (res : Option Text) : Prop :=
  ∀ f, Piece.Means f e → ∀ p, r.input.suffix? p = some x → r.Gives f p res

section
variable {a b : Peg}

theorem given_char {c : Char} : r.Given (.char c) x res := by
  intro f hm
  cases hm with
  | sequence hm | choice hm | many hm => cases hm

theorem given_empty : r.Given .empty x (some x) := by
  intro f hm p hx
  have hrow : r.Gives (.row []) p (some x) := ⟨p, [], hx, Input.isBoundary_of_suffix? hx, rfl, rfl⟩
  cases hm with
  | empty => exact ⟨p, _, hx, (matches_literal hx).2 ⟨[], rfl, rfl, rfl⟩⟩
  | sequence hm =>
    cases hm
    exact gives_sequence.2 hrow
  | rowNil => exact hrow
  | choice hm | many hm => cases hm

theorem given_rule {name : String} {rule : Rule} (hd : r.grammar.Declares name rule)
    (hbody : ∀ p, r.input.suffix? p = some x → r.Gives (.expr rule.body) p res) : r.Given (.rule name) x res := by
  intro f hm p hx
  cases hm with
  | ref =>
    have hb := hbody p hx
    cases res with
    | none => exact (refuses_rule hd).2 hb
    | some y =>
      obtain ⟨q, ns, hq, hb⟩ := hb
      obtain ⟨t, ht⟩ := hb.span
      exact ⟨q, _, hq, (matches_rule hd).2 ⟨ns, t, hb, ht, rfl⟩⟩
  | sequence hm | choice hm | many hm => cases hm

/-- Where a sequence stands for `many1`, its first part has to move on. -/
theorem given_seq (ha : r.Given a x (some y)) (hb : r.Given b y res) (hne : b = .star a → y ≠ x) :
    r.Given (.seq a b) x res := by
  intro f hm p hx
  have hrow : ∀ es, Piece.Means (.row es) (.seq a b) → r.Gives (.row es) p res := by
    intro es hm
    cases hm with
    | rowCons hma hmb => exact gives_row_cons (ha _ hma p hx) fun q hq => hb _ hmb q hq
  cases hm with
  | sequence hm => exact gives_sequence.2 (hrow _ hm)
  | rowCons hma hmb => exact hrow _ (.rowCons hma hmb)
  | many1 hm =>
    obtain ⟨z, q, ns, k, rfl, hq, hrep⟩ :=
      gives_loop_cons hx (hne rfl) (ha _ hm p hx) fun q hq => hb _ (.loop hm) q hq
    exact ⟨q, ns, hq, matches_repetition.2 ⟨k + 1, hrep, by omega, fun _ h => by cases h⟩⟩
  | choice hm | many hm => cases hm

theorem given_seq_failed (ha : r.Given a x none) : r.Given (.seq a b) x none := by
  intro f hm p hx
  have hrow : ∀ es, Piece.Means (.row es) (.seq a b) → r.Gives (.row es) p none := by
    intro es hm
    cases hm with
    | rowCons hma _ => exact .inl (ha _ hma p hx)
  cases hm with
  | sequence hm => exact gives_sequence.2 (hrow _ hm)
  | rowCons hma hmb => exact hrow _ (.rowCons hma hmb)
  | many1 hm =>
    refine refuses_repetition.2 ⟨p, 0, [], .refused (ha _ hm p hx), ?_⟩
    exact fun h => absurd h.1 (by omega)
  | choice hm | many hm => cases hm

section
variable (hc : r.options.caseSensitive = true)
include hc

theorem given_alt (h : Leaves rules (.alt a b) x (some y)) (ha : r.Given a x (some y)) :
    r.Given (.alt a b) x (some y) := by
  intro f hm p hx
  have hany : ∀ es, Piece.Means (.any es) (.alt a b) → r.Gives (.any es) p (some y) := by
    intro es hm
    cases hm with
    | anyCons hma _ =>
      obtain ⟨q, ns, hq, he⟩ := ha _ hma p hx
      exact ⟨q, ns, hq, .inl he⟩
  cases hm with
  | choice hm => exact gives_choice.2 (hany _ hm)
  | anyCons hma hmb => exact hany _ (.anyCons hma hmb)
  | @texts t ts =>
    have hs : Leaves rules (.strings (t :: ts)) x (some y) := h
    rw [hs.strings]
    exact gives_texts hc hx t ts
  | maybe hm =>
    obtain ⟨q, ns, hq, he⟩ := ha _ hm p hx
    exact ⟨q, ns, hq, matches_optional.2 (.inl he)⟩
  | sequence hm | many hm => cases hm

theorem given_alt_failed (h : Leaves rules (.alt a b) x res) (ha : r.Given a x none) (hb : r.Given b x res)
    (hnone : b = .empty → res = some x) : r.Given (.alt a b) x res := by
  intro f hm p hx
  have hany : ∀ es, Piece.Means (.any es) (.alt a b) → r.Gives (.any es) p res := by
    intro es hm
    cases hm with
    | anyCons hma hmb => exact gives_any_cons (ha _ hma p hx) (hb _ hmb p hx)
  cases hm with
  | choice hm => exact gives_choice.2 (hany _ hm)
  | anyCons hma hmb => exact hany _ (.anyCons hma hmb)
  | @texts t ts =>
    have hs : Leaves rules (.strings (t :: ts)) x res := h
    rw [hs.strings]
    exact gives_texts hc hx t ts
  | maybe hm =>
    cases hnone rfl
    exact ⟨p, [], hx, matches_optional.2 (.inr ⟨ha _ hm p hx, rfl, rfl⟩)⟩
  | sequence hm | many hm => cases hm

end

theorem given_star (h : ∀ e, Piece.Means (.expr e) a → ∀ p, r.input.suffix? p = some x → r.Gives (.loop e) p res) :
    r.Given (.star a) x res := by
  intro f hm p hx
  cases hm with
  | many hm =>
    cases hm with
    | loop hm => exact gives_many (h _ hm p hx)
  | loop hm => exact h _ hm p hx
  | sequence hm | choice hm => cases hm

theorem given_star_more (ha : r.Given a x (some y)) (hs : r.Given (.star a) y res) (hne : y ≠ x) :
    r.Given (.star a) x res := by
  refine given_star fun e hm p hx => ?_
  obtain ⟨z, q, ns, k, rfl, hq, hrep⟩ := gives_loop_cons hx hne (ha _ hm p hx) fun q hq => hs _ (.loop hm) q hq
  exact ⟨q, ns, hq, k + 1, hrep⟩

theorem given_star_end (ha : r.Given a x none) : r.Given (.star a) x (some x) :=
  given_star fun _ hm p hx => ⟨p, [], hx, 0, .refused (ha _ hm p hx)⟩

theorem given_not (ha : Leaves rules a x (some y)) : r.Given (.not a) x none := by
  intro f hm p hx
  have hb := Input.isBoundary_of_suffix? hx
  cases hm with
  | choice hm =>
    cases hm
    exact gives_choice.2 hb
  | anyNil => exact hb
  | sequence hm | many hm => cases hm

theorem given_not_failed (ha : Leaves rules a x none) : r.Given (.not a) x (some x) := by
  intro f hm
  cases hm with
  | choice hm =>
    cases hm
    cases ha
  | anyNil => cases ha
  | sequence hm | many hm => cases hm

end

theorem given_of_leaves (hc : r.options.caseSensitive = true)
    (hr : ∀ name e, rules name = some e →
      ∃ rule, r.grammar.Declares name rule ∧ Piece.Means (.expr rule.body) e)
    {e : Peg} (h : Leaves rules e x res) : r.Given e x res := by
  induction h with
  | char | charOther _ | charEnd => exact given_char
  | empty => exact given_empty
  | @rule name e x res hname _ ih =>
    obtain ⟨rule, hd, hbody⟩ := hr name e hname
    exact given_rule hd (ih _ hbody)
  | @seq a b x y res ha hb iha ihb =>
    refine given_seq iha ihb ?_
    rintro rfl rfl
    exact hb.star_moves ha
  | seqFailed _ iha => exact given_seq_failed iha
  | alt ha iha => exact given_alt hc (.alt ha) iha
  | @altFailed a b x res ha hb iha ihb =>
    refine given_alt_failed hc (.altFailed ha hb) iha ihb ?_
    rintro rfl
    cases hb
    rfl
  | @star a x y res ha hs iha ihs =>
    refine given_star_more iha ihs ?_
    rintro rfl
    exact hs.star_moves ha
  | starEnd _ iha => exact given_star_end iha
  | not ha _ => exact given_not ha
  | notFailed ha _ => exact given_not_failed ha

end Reading

/-! ## Evaluations -/

namespace Grammar.Core

variable {g : Grammar} {rules : String → Option Peg} (hg : g.Core rules)
include hg

def reading (t : Text) : Reading := ⟨g, .ofText t, g.options, fun _ => false, hg.strip, hg.steady⟩

theorem gives {name : String} {t : Text} {res : Option Text} (h : Peg.Leaves rules (.rule name) t res) :
    (hg.reading t).Gives (.expr (.ref name)) 0 res := by
  have hx : (hg.reading t).input.suffix? 0 = some t := Input.suffix?_eq_some_iff.2 ⟨[], rfl, rfl⟩
  exact Reading.given_of_leaves hg.caseSensitive hg.body h _ .ref 0 hx

/-- A rule takes what the semantics of parsing expressions takes, and fails where that fails,
whatever the session has done before. -/
theorem evaluate_takes (name : String) (t : Text) (calls : List Call) :
    (∀ u, Peg.Takes rules (.rule name) t u →
      ∃ n, (g.evaluate name t (g.after calls)).1 = .ok n ∧ n.stop = some (byteSize u)) ∧
    (Peg.Leaves rules (.rule name) t none →
      ∃ n, (g.evaluate name t (g.after calls)).1 = .ok n ∧ n.stop = none) := by
  have hs := g.after_sound calls
  constructor
  · rintro u ⟨y, rfl, h⟩
    obtain ⟨q, ns, hq, _, n, hn, hstop, _⟩ := hg.gives h
    refine ⟨n, hn.evaluate hs hg.unlimited, ?_⟩
    obtain ⟨v, hv, rfl⟩ := Input.suffix?_eq_some_iff.1 hq
    rw [hstop, List.append_cancel_right hv]
  · intro h
    obtain ⟨_, n, hn, hstop⟩ := hg.gives h
    exact ⟨n, hn.evaluate hs hg.unlimited, hstop⟩

end Grammar.Core

def nested : Grammar where
  options := { stripWhitespace := false }
  rules := [⟨"list", {}, fun _ => .ok (Expr.ref "item").many⟩,
    ⟨"item", {}, fun _ => .ok (.choice false
      [.sequence false [.text ['('], .ref "list", .text [')']], .text ['a']])⟩]

namespace Peg

def nestedRules : String → Option Peg
  | "list" => some (.star (.rule "item"))
  | "item" => some (.alt (.seq (strings [['(']]) (.seq (.rule "list") (.seq (strings [[')']]) .empty)))
      (.alt (strings [['a']]) fail))
  | _ => none

variable {rules : String → Option Peg} {c d : Char} {x : Text}

theorem Leaves.letter : Leaves rules (.strings [[c]]) (c :: x) (some x) := .alt (.seq .char .empty)

theorem Leaves.letterOther (h : c ≠ d) : Leaves rules (.strings [[c]]) (d :: x) none :=
  .altFailed (.seqFailed (.charOther h)) (.not .empty)

theorem Leaves.closed : Leaves nestedRules (.rule "item") (')' :: x) none :=
  .rule rfl (.altFailed (.seqFailed (.letterOther (by decide)))
    (.altFailed (.letterOther (by decide)) (.not .empty)))

theorem Leaves.inner : Leaves nestedRules (.rule "list") ('a' :: ')' :: x) (some (')' :: x)) :=
  .rule rfl (.star (.rule rfl (.altFailed (.seqFailed (.letterOther (by decide))) (.alt .letter)))
    (.starEnd .closed))

theorem nested_core : nested.Core nestedRules where
  strip := rfl
  caseSensitive := rfl
  unlimited := rfl
  steady := by simp [nested]
  body := by
    intro name e h
    unfold nestedRules at h
    split at h
    · cases h
      exact ⟨_, ⟨_, rfl, rfl⟩, .many (.loop .ref)⟩
    · cases h
      exact ⟨_, ⟨_, rfl, rfl⟩,
        .choice (.anyCons (.sequence (.rowCons (.text _) (.rowCons .ref (.rowCons (.text _) .rowNil))))
          (.anyCons (.text _) .anyNil))⟩
    · cases h

end Peg

theorem Grammar.Core.evaluate_takes_nested :
    (∃ n, (nested.evaluate "list" ['(', 'a', ')', ')'] (nested.after [])).1 = .ok n ∧ n.stop = some 3) ∧
      ∃ n, (nested.evaluate "item" [')'] (nested.after [])).1 = .ok n ∧ n.stop = none := by
  have hitem : Peg.Leaves Peg.nestedRules (.rule "item") ['(', 'a', ')', ')'] (some [')']) :=
    .rule rfl (.alt (.seq .letter (.seq .inner (.seq .letter .empty))))
  have hlist : Peg.Takes Peg.nestedRules (.rule "list") ['(', 'a', ')', ')'] ['(', 'a', ')'] :=
    ⟨[')'], rfl, .rule rfl (.star hitem (.starEnd .closed))⟩
  exact ⟨(Peg.nested_core.evaluate_takes "list" _ []).1 _ hlist,
    (Peg.nested_core.evaluate_takes "item" _ []).2 .closed⟩

end PegTree
