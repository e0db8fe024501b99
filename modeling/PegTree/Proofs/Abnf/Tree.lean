import PegTree.Proofs.Abnf.Rules

/-!
# The tree of an ABNF text

Over any text the list of rules takes what it can, and then the end of the input is there or the
text is refused with a parse error. The tree without layout has what the rules left for children.
-/

namespace PegTree.Abnf

open Eval

/-! ## Readings -/

def dropped : String → Bool := Node.dropAlso (Node.dropAlso Node.keepAll "c_wsp") "c_nl"

def reading (t : Text) : Reading := ⟨abnf, .ofText t, abnf.options, dropped, rfl, abnf_steady⟩

section
variable {t : Text} {p q : Nat} {ns : List Node} {name : String} {e : Expr}

theorem answers (h : name ∈ bodies.map (·.1)) (hp : (reading t).input.isBoundary p = true) :
    (reading t).Answers (.ref name) p := by
  have hs : (reading t).grammar.Stratified bodies rank := stratified
  exact hs.answers h hp

theorem matches_body (h : bodies.lookup name = some e) (hd : dropped name = false) :
    (reading t).Matches (.ref name) p q ns ↔ ∃ inner x, (reading t).Matches e p q inner ∧
      (reading t).input.Span p q x ∧ ns = [.matched (.rule name) x p q inner] := by
  have hm : (reading t).Matches (.ref name) p q ns ↔ _ := Reading.matches_rule (declares h)
  have hd' : (reading t).drop name = false := hd
  rw [hd'] at hm
  exact hm

theorem matches_dropped (h : bodies.lookup name = some e) (hd : dropped name = true) :
    (reading t).Matches (.ref name) p q ns ↔ (∃ inner, (reading t).Matches e p q inner) ∧ ns = [] := by
  have hm : (reading t).Matches (.ref name) p q ns ↔ _ := Reading.matches_rule (declares h)
  have hd' : (reading t).drop name = true := hd
  rw [hd'] at hm
  rw [hm]
  constructor
  · rintro ⟨inner, x, hb, _, rfl⟩
    exact ⟨⟨inner, hb⟩, rfl⟩
  · rintro ⟨⟨inner, hb⟩, rfl⟩
    obtain ⟨x, hx⟩ := hb.span
    exact ⟨inner, x, hb, hx, rfl⟩

theorem refuses_body (h : bodies.lookup name = some e) :
    (reading t).Refuses (.ref name) p ↔ (reading t).Refuses e p :=
  Reading.refuses_rule (r := reading t) (declares h)

theorem matches_leaf {ms : List Matcher} {y : Text} (h : bodies.lookup name = some (.literal false ms none))
    (hd : dropped name = false) (hy : (reading t).input.suffix? p = some y) :
    (reading t).Matches (.ref name) p q ns ↔ ∃ u, firstLeading? ms true y = some u ∧ q = p + byteSize u ∧
      ns = [.matched (.rule name) u p q [.matched .literal u p q []]] := by
  have hspan : ∀ u, firstLeading? ms true y = some u → (reading t).input.Span p (p + byteSize u) u := by
    intro u hu
    obtain ⟨rest, rfl⟩ := firstLeading?_append hu
    exact .of_suffix? hy
  rw [matches_body h hd]
  constructor
  · rintro ⟨inner, x, hb, hx, rfl⟩
    obtain ⟨u, hu, rfl, rfl⟩ := (Reading.matches_literal hy).1 hb
    obtain rfl : u = x := (hspan u hu).unique hx
    exact ⟨u, hu, rfl, rfl⟩
  · rintro ⟨u, hu, rfl, rfl⟩
    exact ⟨_, u, (Reading.matches_literal hy).2 ⟨u, hu, rfl, rfl⟩, hspan u hu, rfl⟩

end

/-! ## Parsing -/

def item : Expr := oneOf [.ref "c_wsp", .ref "c_nl", .ref "rule"]

theorem exists_items (t : Text) : ∃ q ns, (reading t).Matches item.many 0 q ns := by
  have hp := Input.isBoundary_zero (Input.ofText t)
  have hs : (reading t).Answers item.many 0 := by
    refine Reading.answers item.many rfl hp ⟨?_, ?_⟩
    · intro name hn
      exact answers (by revert name; decide +kernel) hp
    · intro name hn q _ hq
      exact answers (by revert name; decide +kernel) hq
  rcases hs with hm | hf
  · exact hm
  · obtain ⟨_, _, _, _, hb⟩ := Reading.refuses_repetition.1 hf
    exact absurd ⟨Nat.zero_le _, fun _ h => by cases h⟩ hb

theorem start_sound : Session.Sound abnf [] {} := abnf.after_sound []

/-- What the asserted end of the input says if more is left at `q`. -/
def leftOver (t : Text) (q : Nat) : ParseError :=
  ⟨q, "Expected end of input but encountered " ++ (Input.ofText t).describeAt q, .ofText t⟩

theorem evaluate_left {t : Text} {q : Nat} {ns : List Node} (hm : (reading t).Matches item.many 0 q ns)
    (hq : (reading t).input.rest q ≠ []) :
    (abnf.evaluate "rulelist" t {}).1 = .error (.error (.parse (leftOver t q))) := by
  obtain ⟨hp, n, hn, hs, _⟩ := hm
  have hb := (hn.stop_boundary hp hs).2
  have hx := Input.suffix?_of_isBoundary hb
  have hskip : (reading t).input.skip (reading t).options 0 = 0 := Reading.skip_eq hp
  have hskip' : (reading t).input.skip (reading t).options q = q := Reading.skip_eq hb
  rw [← hskip] at hn
  have hend : ∀ k, (abnf.bareScope (.ofText t) abnf.options k).endOfInput true q =
      .error (.error (.parse (leftOver t q))) := by
    intro k
    rw [Scope.endOfInput_apply rfl hx, if_neg hq]
    rfl
  have hlast : Stops (fun k => Expr.evalRow (abnf.bareScope (.ofText t) abnf.options k) [.endOfInput true] q)
      (.error (.parse (leftOver t q))) := by
    unfold Expr.evalRow
    refine Stops.bind ⟨0, fun k _ => ?_⟩
    have hq' : (abnf.bareScope (.ofText t) abnf.options k).skip q = q := hskip'
    show ((Expr.endOfInput true).eval _ ((abnf.bareScope (.ofText t) abnf.options k).skip q) ()).1 = _
    rw [hq', Expr.eval, ofExcept_apply, hend]
  refine declares_rulelist.evaluate_stops start_sound rfl ?_ fun h => by cases h
  unfold listBody row Expr.eval
  refine Stops.bind ?_
  unfold Expr.evalRow
  refine (hn.settles rfl (Input.skip_boundary _ hp)).stops ?_
  simp only [hs]
  exact hlast.bind

theorem evaluate_all {t : Text} {q : Nat} {ns : List Node} (hm : (reading t).Matches item.many 0 q ns)
    (hq : (reading t).input.rest q = []) : ∃ n x, (abnf.evaluate "rulelist" t {}).1 = .ok n ∧ n.isFailed = false ∧
      (n.simplify.delete (.rule "c_wsp") true).delete (.rule "c_nl") true =
        .matched (.rule "rulelist") x 0 q (ns ++ [.matched .endOfInput [] q q []]) := by
  have hx := Input.suffix?_of_isBoundary hm.boundary
  have hend := (Reading.matches_endOfInput (a := true) (q := q) hx).2 ⟨hq, rfl, rfl⟩
  have hrow : (reading t).RowMatches [item.many, .endOfInput true] 0 q _ :=
    ⟨q, _, _, hm, ⟨q, _, _, hend, ⟨hm.boundary, rfl, rfl⟩, rfl⟩, rfl⟩
  have hbody : (reading t).Matches listBody 0 q _ := Reading.matches_sequence.2 hrow
  obtain ⟨x, hspan⟩ := hbody.span
  obtain ⟨hp, n, hn, hs, hparts⟩ :=
    (Reading.matches_rule (r := reading t) declares_rulelist).2 ⟨_, x, hbody, hspan, rfl⟩
  have hstop : n.stop ≠ none := by
    rw [hs]
    exact Option.some_ne_none q
  refine ⟨n, x, hn.evaluate start_sound rfl, by rw [Node.isFailed, hs]; rfl, ?_⟩
  rw [(Reading.whole (r := reading t) rfl hn hp hstop).cleaned]
  have htag := hn.tag hp
  obtain ⟨tag, text, offset, stop, children⟩ := n
  cases hs
  cases htag
  exact List.singleton_inj.1 (Node.parts_rule.symm.trans hparts)

/-! ## Trees -/

theorem parse_eq (t : Text) : (abnf.parse t {}).1 = (abnf.evaluate "rulelist" t {}).1.bind fun n =>
    if n.isFailed then .error (.error .noMatch) else .ok n.simplify := by
  show (abnf.parseRule "rulelist" t {}).1 = _
  unfold Grammar.parseRule
  rw [bind_apply]
  rcases abnf.evaluate "rulelist" t {} with ⟨f | n, s⟩
  · rfl
  · simp only [Except.bind]
    cases n.isFailed <;> rfl

theorem parseTree_eq (t : Text) : parseTree t = ((abnf.parse t {}).1.mapError .fault).bind fun n =>
    .ok ((n.delete (.rule "c_wsp") true).delete (.rule "c_nl") true) := by
  unfold parseTree
  rw [grammar_eq]
  rfl

theorem parseTree_all {t : Text} {q : Nat} {ns : List Node} (hm : (reading t).Matches item.many 0 q ns)
    (hq : (reading t).input.rest q = []) :
    ∃ x, parseTree t = .ok (.matched (.rule "rulelist") x 0 q (ns ++ [.matched .endOfInput [] q q []])) := by
  obtain ⟨n, x, he, hf, htree⟩ := evaluate_all hm hq
  refine ⟨x, ?_⟩
  rw [parseTree_eq, parse_eq, he, ← htree]
  simp only [Except.bind, hf]
  rfl

/-- A text is refused with a parse error, or its tree has what the items of the list leave. -/
theorem parseTree_cases (t : Text) :
    (∃ q, (Input.ofText t).rest q ≠ [] ∧ parseTree t = .error (.fault (.error (.parse (leftOver t q))))) ∨
    ∃ x q ns, (reading t).Matches item.many 0 q ns ∧ (reading t).input.rest q = [] ∧
      parseTree t = .ok (.matched (.rule "rulelist") x 0 q (ns ++ [.matched .endOfInput [] q q []])) := by
  obtain ⟨q, ns, hm⟩ := exists_items t
  by_cases hq : (reading t).input.rest q = []
  · obtain ⟨x, htree⟩ := parseTree_all hm hq
    exact .inr ⟨x, q, ns, hm, hq, htree⟩
  · refine .inl ⟨q, hq, ?_⟩
    rw [parseTree_eq, parse_eq, evaluate_left hm hq]
    rfl

end PegTree.Abnf
