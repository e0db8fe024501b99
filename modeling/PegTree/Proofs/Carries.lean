import PegTree.Proofs.Matching

/-!
# Readings side by side

A reading carries an expression over to another if the other matches the same text, and leaves the
same nodes but for their places, wherever the rests of the inputs are alike in the way the expression
can see.
-/

namespace PegTree

namespace Node

mutual
/-- A node without its places. -/
def bare : Node → Node
  | ⟨tag, text, _, _, children⟩ => ⟨tag, text, 0, none, bareList children⟩
def bareList : List Node → List Node
  | [] => []
  | n :: ns => n.bare :: bareList ns
end

theorem bareList_append (ns ms : List Node) : bareList (ns ++ ms) = bareList ns ++ bareList ms := by
  induction ns with
  | nil => rfl
  | cons n ns ih => rw [List.cons_append, bareList, bareList, ih, List.cons_append]

end Node

/-- From places `p` and `p'`, before `x` and `x'`, whatever `M` reaches `M'` reaches over the same text,
with `S` between what is left. -/
def Follows (S : Text → Text → Prop) (p p' : Nat) (x x' : Text) (M M' : Nat → List Node → Prop) : Prop :=
  ∀ q ns, M q ns → ∃ u y y' ns', x = u ++ y ∧ x' = u ++ y' ∧ q = p + byteSize u ∧ S y y' ∧
    M' (p' + byteSize u) ns' ∧ Node.bareList ns' = Node.bareList ns

namespace Follows

variable {S T : Text → Text → Prop} {p p' : Nat} {x x' : Text} {M M' N N' : Nat → List Node → Prop}

theorem imp (h : Follows S p p' x x' M M') (hst : ∀ y y', S y y' → T y y') : Follows T p p' x x' M M' := by
  intro q ns hm
  obtain ⟨u, y, y', ns', hx, hx', hq, hs, hm', hns⟩ := h q ns hm
  exact ⟨u, y, y', ns', hx, hx', hq, hst y y' hs, hm', hns⟩

theorem congr (h : Follows S p p' x x' M M') (hn : ∀ q ns, N q ns ↔ M q ns) (hn' : ∀ q ns, N' q ns ↔ M' q ns) :
    Follows S p p' x x' N N' := by
  intro q ns hm
  obtain ⟨u, y, y', ns', hx, hx', hq, hs, hm', hns⟩ := h q ns ((hn q ns).1 hm)
  exact ⟨u, y, y', ns', hx, hx', hq, hs, (hn' _ _).2 hm', hns⟩

theorem stay (hs : S x x') (hp : M' p' []) (h : ∀ q ns, M q ns → q = p ∧ ns = []) : Follows S p p' x x' M M' := by
  intro q ns hm
  obtain ⟨rfl, rfl⟩ := h q ns hm
  exact ⟨[], x, x', [], rfl, rfl, rfl, hs, hp, rfl⟩

end Follows

namespace Reading

variable (r r' : Reading)

/-- `r'` does what `r` does with the expression, where fewer than `n` characters are left to `r` and
`R` relates what is left. -/
def Carries (n : Nat) (R S : Text → Text → Prop) (e : Expr) : Prop :=
  ∀ p p' x x', x.length < n → r.input.suffix? p = some x → r'.input.suffix? p' = some x' → R x x' →
    Follows S p p' x x' (r.Matches e p) (r'.Matches e p') ∧ (r.Refuses e p → r'.Refuses e p')

def CarriesRow (n : Nat) (R S : Text → Text → Prop) (es : List Expr) : Prop :=
  ∀ p p' x x', x.length < n → r.input.suffix? p = some x → r'.input.suffix? p' = some x' → R x x' →
    Follows S p p' x x' (r.RowMatches es p) (r'.RowMatches es p') ∧ (r.RowRefuses es p → r'.RowRefuses es p')

variable {r r'} {n : Nat} {R S T : Text → Text → Prop} {e : Expr} {es : List Expr}

theorem Carries.imp (h : r.Carries r' n R S e) (hst : ∀ y y', S y y' → T y y') : r.Carries r' n R T e := by
  intro p p' x x' hlt hx hx' hr
  obtain ⟨hm, hf⟩ := h p p' x x' hlt hx hx' hr
  exact ⟨hm.imp hst, hf⟩

/-! ## Leaves -/

theorem carries_literal {ms : List Matcher} {c : Option Bool} (ho : r'.options = r.options)
    (h : ∀ x x', R x x' →
      firstLeading? ms (c.getD r.options.caseSensitive) x' = firstLeading? ms (c.getD r.options.caseSensitive) x ∧
      ∀ u y, firstLeading? ms (c.getD r.options.caseSensitive) x = some u → x = u ++ y →
        ∃ y', x' = u ++ y' ∧ S y y') :
    r.Carries r' n R S (.literal false ms c) := by
  intro p p' x x' _ hx hx' hr
  obtain ⟨heq, htake⟩ := h x x' hr
  rw [← ho] at heq
  refine ⟨fun q ns hm => ?_, fun hf => ?_⟩
  · obtain ⟨u, hu, rfl, rfl⟩ := (matches_literal hx).1 hm
    obtain ⟨y, hy⟩ := firstLeading?_append hu
    obtain ⟨y', hy', hs⟩ := htake u y hu hy
    rw [← ho] at hu
    exact ⟨u, y, y', _, hy, hy', rfl, hs, (matches_literal hx').2 ⟨u, heq.trans hu, rfl, rfl⟩, rfl⟩
  · have hnone := (refuses_literal hx).1 hf
    rw [← ho] at hnone
    exact (refuses_literal hx').2 (heq.trans hnone)

theorem carries_endOfLine (h : ∀ x x', R x x' → lineEnd? x' = lineEnd? x ∧
      ∀ u y, lineEnd? x = some u → x = u ++ y → ∃ y', x' = u ++ y' ∧ S y y') :
    r.Carries r' n R S (.endOfLine false) := by
  intro p p' x x' _ hx hx' hr
  obtain ⟨heq, htake⟩ := h x x' hr
  refine ⟨fun q ns hm => ?_, fun hf => (refuses_endOfLine hx').2 (heq.trans ((refuses_endOfLine hx).1 hf))⟩
  obtain ⟨u, hu, rfl, rfl⟩ := (matches_endOfLine hx).1 hm
  obtain ⟨y, hy⟩ := lineEnd?_append hu
  obtain ⟨y', hy', hs⟩ := htake u y hu hy
  exact ⟨u, y, y', _, hy, hy', rfl, hs, (matches_endOfLine hx').2 ⟨u, heq.trans hu, rfl, rfl⟩, rfl⟩

/-! ## Rows -/

theorem carriesRow_nil : r.CarriesRow r' n R R [] := by
  intro p p' x x' _ hx hx' hr
  refine ⟨.stay hr ⟨Input.isBoundary_of_suffix? hx', rfl, rfl⟩ fun q ns hm => ⟨hm.2.1, hm.2.2⟩, fun hf => hf.elim⟩

theorem Carries.then {k : Nat} (h : r.Carries r' n R S e) (hs : r.CarriesRow r' k S T es)
    (hk : ∀ p q ns, r.Matches e p q ns → n ≤ k ∨ n ≤ k + 1 ∧ p < q) : r.CarriesRow r' n R T (e :: es) := by
  intro p p' x x' hlt hx hx' hr
  obtain ⟨hm, hf⟩ := h p p' x x' hlt hx hx' hr
  have hnext : ∀ m ns, r.Matches e p m ns → ∃ u y y' ns', x = u ++ y ∧ x' = u ++ y' ∧ m = p + byteSize u ∧
      r'.Matches e p' (p' + byteSize u) ns' ∧ Node.bareList ns' = Node.bareList ns ∧
      Follows T m (p' + byteSize u) y y' (r.RowMatches es m) (r'.RowMatches es (p' + byteSize u)) ∧
      (r.RowRefuses es m → r'.RowRefuses es (p' + byteSize u)) := by
    intro m ns he
    obtain ⟨u, y, y', ns', rfl, rfl, rfl, hsy, he', hns⟩ := hm m ns he
    -- after something was consumed less is left for the rest of the row
    have hlen : y.length < k := by
      rw [List.length_append] at hlt
      rcases hk p _ ns he with hnk | ⟨hnk, hpq⟩
      · omega
      · have : u.length ≠ 0 := by
          intro h0
          rw [List.eq_nil_of_length_eq_zero h0] at hpq
          exact absurd hpq (Nat.lt_irrefl p)
        omega
    exact ⟨u, y, y', ns', rfl, rfl, rfl, he', hns,
      hs _ _ y y' hlen (Input.suffix?_add hx) (Input.suffix?_add hx') hsy⟩
  constructor
  · rintro q ns ⟨m, ns₁, ns₂, he, hes, rfl⟩
    obtain ⟨u, y, y', ns₁', rfl, rfl, rfl, he', hns₁, hrow, _⟩ := hnext m ns₁ he
    obtain ⟨v, z, z', ns₂', rfl, rfl, rfl, ht, hes', hns₂⟩ := hrow q ns₂ hes
    refine ⟨u ++ v, z, z', ns₁' ++ ns₂', by simp, by simp, by rw [byteSize_append, Nat.add_assoc], ht, ?_, ?_⟩
    · rw [byteSize_append, ← Nat.add_assoc]
      exact ⟨_, ns₁', ns₂', he', hes', rfl⟩
    · rw [Node.bareList_append, Node.bareList_append, hns₁, hns₂]
  · rintro (hfirst | ⟨m, ns, he, hes⟩)
    · exact .inl (hf hfirst)
    · obtain ⟨u, y, y', ns', _, _, _, he', _, _, hrest⟩ := hnext m ns he
      exact .inr ⟨_, ns', he', hrest hes⟩

theorem Carries.row (h : r.Carries r' n R S e) (hs : r.CarriesRow r' n S T es) : r.CarriesRow r' n R T (e :: es) :=
  h.then hs fun _ _ _ _ => .inl (Nat.le_refl n)

theorem CarriesRow.sequence (h : r.CarriesRow r' n R S es) : r.Carries r' n R S (.sequence false es) := by
  intro p p' x x' hlt hx hx' hr
  obtain ⟨hm, hf⟩ := h p p' x x' hlt hx hx' hr
  exact ⟨hm.congr (fun _ _ => matches_sequence) fun _ _ => matches_sequence,
    fun he => refuses_sequence.2 (hf (refuses_sequence.1 he))⟩

/-! ## Alternatives and repetitions -/

theorem carries_choice (h : ∀ e ∈ es, r.Carries r' n R S e) : r.Carries r' n R S (.choice false es) := by
  intro p p' x x' hlt hx hx' hr
  have hany : Follows S p p' x x' (r.AnyMatches es p) (r'.AnyMatches es p') ∧
      (r.AnyRefuses es p → r'.AnyRefuses es p') := by
    induction es with
    | nil => exact ⟨fun q ns hm => hm.elim, fun _ => Input.isBoundary_of_suffix? hx'⟩
    | cons e es ih =>
      obtain ⟨he, hes⟩ := List.forall_mem_cons.1 h
      obtain ⟨hm, hf⟩ := he p p' x x' hlt hx hx' hr
      obtain ⟨hms, hfs⟩ := ih hes
      refine ⟨fun q ns hany => ?_, fun hall => ⟨hf hall.1, hfs hall.2⟩⟩
      rcases hany with hany | ⟨hfirst, hany⟩
      · obtain ⟨u, y, y', ns', hu, hu', hq, hs, hm', hns⟩ := hm q ns hany
        exact ⟨u, y, y', ns', hu, hu', hq, hs, .inl hm', hns⟩
      · obtain ⟨u, y, y', ns', hu, hu', hq, hs, hm', hns⟩ := hms q ns hany
        exact ⟨u, y, y', ns', hu, hu', hq, hs, .inr ⟨hf hfirst, hm'⟩, hns⟩
  exact ⟨hany.1.congr (fun _ _ => matches_choice) fun _ _ => matches_choice,
    fun he => refuses_choice.2 (hany.2 (refuses_choice.1 he))⟩

theorem Carries.maybe (h : r.Carries r' n R R e) : r.Carries r' n R R e.maybe := by
  intro p p' x x' hlt hx hx' hr
  obtain ⟨hm, hf⟩ := h p p' x x' hlt hx hx' hr
  refine ⟨fun q ns he => ?_, fun he => absurd he not_refuses_optional⟩
  rcases matches_optional.1 he with hitem | ⟨hitem, rfl, rfl⟩
  · obtain ⟨u, y, y', ns', hu, hu', hq, hs, hm', hns⟩ := hm q ns hitem
    exact ⟨u, y, y', ns', hu, hu', hq, hs, matches_optional.2 (.inl hm'), hns⟩
  · exact ⟨[], x, x', [], rfl, rfl, rfl, hr, matches_optional.2 (.inr ⟨hf hitem, rfl, rfl⟩), rfl⟩

theorem Carries.repeats (h : r.Carries r' n R R e) {p q k : Nat} {ns : List Node} (hrep : r.Repeats e p q k ns)
    {p' : Nat} {x x' : Text} (hlt : x.length < n) (hx : r.input.suffix? p = some x)
    (hx' : r'.input.suffix? p' = some x') (hr : R x x') :
    ∃ u y y' ns', x = u ++ y ∧ x' = u ++ y' ∧ q = p + byteSize u ∧ R y y' ∧
      r'.Repeats e p' (p' + byteSize u) k ns' ∧ Node.bareList ns' = Node.bareList ns := by
  induction hrep generalizing p' x x' with
  | refused he => exact ⟨[], x, x', [], rfl, rfl, rfl, hr, .refused ((h _ p' x x' hlt hx hx' hr).2 he), rfl⟩
  | @still p ns he =>
    obtain ⟨u, y, y', ns', rfl, rfl, hq, hs, hm', hns⟩ := (h p p' x x' hlt hx hx' hr).1 _ _ he
    -- what takes nothing here takes nothing there
    have hu : byteSize u = 0 := by omega
    rw [hu] at hm'
    refine ⟨u, y, y', ns', rfl, rfl, hq, hs, ?_, hns⟩
    rw [hu]
    exact .still hm'
  | @cons p m q k ns ms he hne _ ih =>
    obtain ⟨u, y, y', ns', rfl, rfl, rfl, hs, hm', hns⟩ := (h p p' x x' hlt hx hx' hr).1 _ _ he
    have hlen : y.length < n := by
      rw [List.length_append] at hlt
      omega
    obtain ⟨v, z, z', ms', rfl, rfl, rfl, ht, hrep', hms⟩ :=
      ih hlen (Input.suffix?_add hx) (Input.suffix?_add hx') hs
    refine ⟨u ++ v, z, z', ns' ++ ms', by simp, by simp, by rw [byteSize_append, Nat.add_assoc], ht, ?_, ?_⟩
    · rw [byteSize_append, ← Nat.add_assoc]
      exact .cons hm' (by omega) hrep'
    · rw [Node.bareList_append, Node.bareList_append, hns, hms]

theorem Carries.repetition (h : r.Carries r' n R R e) (low : Nat) (high : Option Nat) :
    r.Carries r' n R R (.repetition false low high e) := by
  intro p p' x x' hlt hx hx' hr
  constructor
  · intro q ns hm
    obtain ⟨k, hrep, hb⟩ := matches_repetition.1 hm
    obtain ⟨u, y, y', ns', hu, hu', hq, hs, hrep', hns⟩ := h.repeats hrep hlt hx hx' hr
    exact ⟨u, y, y', ns', hu, hu', hq, hs, matches_repetition.2 ⟨k, hrep', hb⟩, hns⟩
  · intro hf
    obtain ⟨q, k, ns, hrep, hb⟩ := refuses_repetition.1 hf
    obtain ⟨u, y, y', ns', _, _, _, _, hrep', _⟩ := h.repeats hrep hlt hx hx' hr
    exact refuses_repetition.2 ⟨_, k, ns', hrep', hb⟩

/-! ## Rules -/

theorem Carries.rule {name : String} {rule : Rule} (h : r.Carries r' n R S rule.body)
    (hd : r.grammar.Declares name rule) (hd' : r'.grammar.Declares name rule)
    (hdrop : r'.drop name = r.drop name) :
    r.Carries r' n R S (.ref name) := by
  intro p p' x x' hlt hx hx' hr
  obtain ⟨hm, hf⟩ := h p p' x x' hlt hx hx' hr
  refine ⟨fun q ns he => ?_, fun he => (refuses_rule hd').2 (hf ((refuses_rule hd).1 he))⟩
  obtain ⟨inner, t, hbody, hspan, rfl⟩ := (matches_rule hd).1 he
  obtain ⟨u, y, y', inner', rfl, rfl, rfl, hs, hbody', hinner⟩ := hm q inner hbody
  obtain rfl : u = t := (Input.Span.of_suffix? hx).unique hspan
  refine ⟨u, y, y', _, rfl, rfl, rfl, hs, (matches_rule hd').2 ⟨inner', u, hbody', .of_suffix? hx', rfl⟩, ?_⟩
  rw [hdrop]
  split
  · rfl
  · simp only [Node.bareList, Node.matched, Node.bare, hinner]

end Reading

end PegTree
