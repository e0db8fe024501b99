import PegTree.Proofs.Matching

/-!
# Grammars that always answer

Where no rule can come back to itself before something is consumed, every rule matches or is
refused at every place: nothing goes on for ever and nothing is unknown.
-/

namespace PegTree

/-! ## What an expression leads to -/

def Matcher.firm : Matcher → Bool
  | .text t => !t.isEmpty
  | .pattern _ => false

namespace Expr

mutual
/-- Whether an expression is seen to match no empty text. -/
def firm : Expr → Bool
  | .literal _ ms _ => !ms.isEmpty && ms.all Matcher.firm
  | .sequence _ items => firmRow items
  | _ => false
def firmRow : List Expr → Bool
  | [] => false
  | e :: es => firm e || firmRow es
end

mutual
/-- Nothing is asserted, and no name is left open. -/
def soft : Expr → Bool
  | .literal a _ _ | .endOfLine a | .endOfInput a | .rule a _ => !a
  | .sequence a items | .choice a items => !a && softAll items
  | .repetition a _ _ item | .optional a item => !a && soft item
  | .placeholder _ _ => false
def softAll : List Expr → Bool
  | [] => true
  | e :: es => soft e && softAll es
end

mutual
def refs : Expr → List String
  | .rule _ name => [name]
  | .sequence _ items | .choice _ items => refsAll items
  | .repetition _ _ _ item | .optional _ item => refs item
  | _ => []
def refsAll : List Expr → List String
  | [] => []
  | e :: es => refs e ++ refsAll es
end

mutual
/-- The rules that may be tried where the expression itself is. -/
def leads : Expr → List String
  | .rule _ name => [name]
  | .sequence _ items => leadsRow items
  | .choice _ items => leadsAny items
  | .repetition _ _ _ item | .optional _ item => leads item
  | _ => []
def leadsRow : List Expr → List String
  | [] => []
  | e :: es => leads e ++ if firm e then [] else leadsRow es
def leadsAny : List Expr → List String
  | [] => []
  | e :: es => leads e ++ leadsAny es
end

mutual
theorem leads_subset (e : Expr) : e.leads ⊆ e.refs := by
  cases e with
  | rule a name => exact List.Subset.refl _
  | sequence a items => simpa only [leads, refs] using leadsRow_subset items
  | choice a items => simpa only [leads, refs] using leadsAny_subset items
  | repetition a low high item => simpa only [leads, refs] using leads_subset item
  | optional a item => simpa only [leads, refs] using leads_subset item
  | _ => exact List.nil_subset _
theorem leadsRow_subset (es : List Expr) : leadsRow es ⊆ refsAll es := by
  cases es with
  | nil => exact List.Subset.refl _
  | cons e es =>
    have he := leads_subset e
    have hes := leadsRow_subset es
    intro name h
    rw [leadsRow, List.mem_append] at h
    rw [refsAll, List.mem_append]
    rcases h with h | h
    · exact .inl (he h)
    · split at h
      · cases h
      · exact .inr (hes h)
theorem leadsAny_subset (es : List Expr) : leadsAny es ⊆ refsAll es := by
  cases es with
  | nil => exact List.Subset.refl _
  | cons e es =>
    have he := leads_subset e
    have hes := leadsAny_subset es
    intro name h
    rw [leadsAny, List.mem_append] at h
    rw [refsAll, List.mem_append]
    exact h.imp (@he name) (@hes name)
end

end Expr

/-! ## Firm expressions move on -/

theorem length_of_leading? {same : Char → Char → Bool} {needle t u : Text} (h : leading? same needle t = some u) :
    u.length = needle.length := by
  induction needle generalizing t u with
  | nil => simp_all [leading?]
  | cons c needle ih =>
    cases t with
    | nil => simp [leading?] at h
    | cons d t =>
      simp only [leading?] at h
      split at h
      · obtain ⟨v, hv, rfl⟩ := Option.map_eq_some_iff.1 h
        simp [ih hv]
      · cases h

theorem Matcher.firm_ne_nil {m : Matcher} (hm : m.firm = true) {c : Bool} {t : Text} :
    m.leading? c t ≠ some [] := by
  cases m with
  | text needle =>
    intro h
    have hl := length_of_leading? (show PegTree.leading? _ needle t = some [] from h)
    rw [List.eq_nil_of_length_eq_zero hl.symm] at hm
    cases hm
  | pattern p => cases hm

theorem byteSize_pos {t : Text} (h : t ≠ []) : 0 < byteSize t := by
  cases t with
  | nil => exact absurd rfl h
  | cons c t =>
    have := c.utf8Size_pos
    rw [byteSize_cons]
    omega

namespace Reading

variable {r : Reading} {p q : Nat} {ns : List Node}

theorem RowMatches.le {es : List Expr} (h : r.RowMatches es p q ns) : p ≤ q := by
  induction es generalizing p ns with
  | nil => exact Nat.le_of_eq h.2.1.symm
  | cons e es ih =>
    obtain ⟨m, _, _, hm, hes, _⟩ := h
    exact Nat.le_trans hm.le (ih hes)

mutual
theorem Matches.lt {e : Expr} {p q : Nat} {ns : List Node} (h : r.Matches e p q ns) (hs : e.soft = true)
    (hf : e.firm = true) : p < q := by
  cases e with
  | literal a ms c =>
    simp only [Expr.soft, Bool.not_eq_true'] at hs
    subst hs
    simp only [Expr.firm, Bool.and_eq_true, Bool.not_eq_true', List.isEmpty_eq_false_iff] at hf
    have hx := Input.suffix?_of_isBoundary h.1
    obtain ⟨t, ht, rfl, _⟩ := (matches_literal hx).1 h
    have hne : ms.isEmpty = false := by simpa using hf.1
    rw [firstLeading?, hne] at ht
    obtain ⟨m, hm, ht⟩ := List.exists_of_findSome?_eq_some ht
    have hpos : t ≠ [] := by
      rintro rfl
      exact Matcher.firm_ne_nil (List.all_eq_true.1 hf.2 m hm) ht
    have := byteSize_pos hpos
    omega
  | sequence a items =>
    simp only [Expr.soft, Bool.and_eq_true, Bool.not_eq_true'] at hs
    obtain ⟨rfl, hs⟩ := hs
    exact RowMatches.lt (matches_sequence.1 h) hs hf
  | _ => cases hf
theorem RowMatches.lt {es : List Expr} {p q : Nat} {ns : List Node} (h : r.RowMatches es p q ns)
    (hs : Expr.softAll es = true) (hf : Expr.firmRow es = true) : p < q := by
  cases es with
  | nil => cases hf
  | cons e es =>
    simp only [Expr.softAll, Bool.and_eq_true] at hs
    simp only [Expr.firmRow, Bool.or_eq_true] at hf
    obtain ⟨m, _, _, hm, hes, _⟩ := h
    rcases hf with hf | hf
    · exact Nat.lt_of_lt_of_le (Matches.lt hm hs.1 hf) hes.le
    · exact Nat.lt_of_le_of_lt hm.le (RowMatches.lt hes hs.2 hf)
end

/-! ## Answers -/

/-- The expression matches at the place, or it is refused. -/
def Answers (r : Reading) (e : Expr) (p : Nat) : Prop := (∃ q ns, r.Matches e p q ns) ∨ r.Refuses e p

theorem exists_repeats {e : Expr} {p : Nat} (hp : r.input.isBoundary p = true)
    (he : ∀ q, p ≤ q → r.input.isBoundary q = true → r.Answers e q) : ∃ q k ns, r.Repeats e p q k ns := by
  rcases he p (Nat.le_refl p) hp with ⟨m, ns, hm⟩ | hf
  · by_cases hmp : m = p
    · subst hmp
      exact ⟨m, 1, ns, .still hm⟩
    · have hle := hm.le
      have hsize := Input.le_size_of_isBoundary hm.boundary
      -- a match that is not the last one moves on, and the input ends
      obtain ⟨q, k, ns', hrep⟩ := exists_repeats hm.boundary fun q hq hb => he q (Nat.le_trans hle hq) hb
      exact ⟨q, k + 1, ns ++ ns', .cons hm hmp hrep⟩
  · exact ⟨p, 0, [], .refused hf⟩
termination_by r.input.size - p
decreasing_by omega

/-- The rules that the expression leads to answer here, and all rules it refers to do further on. -/
structure Supplied (r : Reading) (leads refs : List String) (p : Nat) : Prop where
  here : ∀ name ∈ leads, r.Answers (.ref name) p
  onward : ∀ name ∈ refs, ∀ q, p < q → r.input.isBoundary q = true → r.Answers (.ref name) q

theorem Supplied.mono {l l' refs refs' : List String} (h : r.Supplied l refs p) (hl : l' ⊆ l) (hr : refs' ⊆ refs) :
    r.Supplied l' refs' p :=
  ⟨fun name hn => h.here name (hl hn), fun name hn => h.onward name (hr hn)⟩

theorem Supplied.later {l l' refs : List String} (h : r.Supplied l refs p) (hl : l' ⊆ refs) (hpq : p < q)
    (hq : r.input.isBoundary q = true) : r.Supplied l' refs q :=
  ⟨fun name hn => h.onward name (hl hn) q hpq hq,
    fun name hn _ hq' => h.onward name hn _ (Nat.lt_trans hpq hq')⟩

mutual
theorem answers (e : Expr) {p : Nat} (hs : e.soft = true) (hp : r.input.isBoundary p = true)
    (h : r.Supplied e.leads e.refs p) : r.Answers e p := by
  have hx := Input.suffix?_of_isBoundary hp
  cases e with
  | literal a ms c =>
    simp only [Expr.soft, Bool.not_eq_true'] at hs
    subst hs
    cases ht : firstLeading? ms (c.getD r.options.caseSensitive) (r.input.rest p) with
    | some t => exact .inl ⟨_, _, (matches_literal hx).2 ⟨t, ht, rfl, rfl⟩⟩
    | none => exact .inr ((refuses_literal hx).2 ht)
  | sequence a items =>
    simp only [Expr.soft, Bool.and_eq_true, Bool.not_eq_true'] at hs
    obtain ⟨rfl, hs⟩ := hs
    rcases answersRow items hs hp h with ⟨q, ns, hrow⟩ | hrow
    · exact .inl ⟨q, ns, matches_sequence.2 hrow⟩
    · exact .inr (refuses_sequence.2 hrow)
  | choice a items =>
    simp only [Expr.soft, Bool.and_eq_true, Bool.not_eq_true'] at hs
    obtain ⟨rfl, hs⟩ := hs
    rcases answersAny items hs hp h with ⟨q, ns, hany⟩ | hany
    · exact .inl ⟨q, ns, matches_choice.2 hany⟩
    · exact .inr (refuses_choice.2 hany)
  | repetition a low high item =>
    simp only [Expr.soft, Bool.and_eq_true, Bool.not_eq_true'] at hs
    obtain ⟨rfl, hs⟩ := hs
    obtain ⟨q, k, ns, hrep⟩ := exists_repeats (e := item) hp fun q hpq hq => by
      rcases Nat.eq_or_lt_of_le hpq with rfl | hlt
      · exact answers item hs hq h
      · exact answers item hs hq (h.later item.leads_subset hlt hq)
    by_cases hb : InBounds low high k
    · exact .inl ⟨q, ns, matches_repetition.2 ⟨k, hrep, hb⟩⟩
    · exact .inr (refuses_repetition.2 ⟨q, k, ns, hrep, hb⟩)
  | optional a item =>
    simp only [Expr.soft, Bool.and_eq_true, Bool.not_eq_true'] at hs
    rcases answers item hs.2 hp h with ⟨q, ns, hm⟩ | hf
    · exact .inl ⟨q, ns, matches_optional.2 (.inl hm)⟩
    · exact .inl ⟨p, [], matches_optional.2 (.inr ⟨hf, rfl, rfl⟩)⟩
  | endOfLine a =>
    simp only [Expr.soft, Bool.not_eq_true'] at hs
    subst hs
    cases ht : lineEnd? (r.input.rest p) with
    | some t => exact .inl ⟨_, _, (matches_endOfLine hx).2 ⟨t, ht, rfl, rfl⟩⟩
    | none => exact .inr ((refuses_endOfLine hx).2 ht)
  | endOfInput a =>
    simp only [Expr.soft, Bool.not_eq_true'] at hs
    subst hs
    by_cases he : r.input.rest p = []
    · exact .inl ⟨_, _, (matches_endOfInput hx).2 ⟨he, rfl, rfl⟩⟩
    · exact .inr ((refuses_endOfInput hx).2 he)
  | rule a name =>
    simp only [Expr.soft, Bool.not_eq_true'] at hs
    subst hs
    exact h.here name (List.mem_singleton.2 rfl)
  | placeholder a name => cases hs
theorem answersRow (es : List Expr) {p : Nat} (hs : Expr.softAll es = true) (hp : r.input.isBoundary p = true)
    (h : r.Supplied (Expr.leadsRow es) (Expr.refsAll es) p) :
    (∃ q ns, r.RowMatches es p q ns) ∨ r.RowRefuses es p := by
  cases es with
  | nil => exact .inl ⟨p, [], hp, rfl, rfl⟩
  | cons e es =>
    simp only [Expr.softAll, Bool.and_eq_true] at hs
    have hre : e.refs ⊆ Expr.refsAll (e :: es) := List.subset_append_left _ _
    have hres : Expr.refsAll es ⊆ Expr.refsAll (e :: es) := List.subset_append_right _ _
    rcases answers e hs.1 hp (h.mono (List.subset_append_left _ _) hre) with ⟨m, ns, hm⟩ | hf
    · -- an item that takes nothing is not firm, so what follows it counts among what is tried here
      have hrest : r.Supplied (Expr.leadsRow es) (Expr.refsAll es) m := by
        rcases Nat.eq_or_lt_of_le hm.le with rfl | hlt
        · have hfirm : e.firm = false := by
            cases hf : e.firm with
            | false => rfl
            | true => exact absurd (hm.lt hs.1 hf) (Nat.lt_irrefl p)
          refine h.mono ?_ hres
          rw [Expr.leadsRow, hfirm]
          exact List.subset_append_right _ _
        · exact (h.mono (List.Subset.refl _) hres).later (Expr.leadsRow_subset es) hlt hm.boundary
      rcases answersRow es hs.2 hm.boundary hrest with ⟨q, ns', hrow⟩ | hrow
      · exact .inl ⟨q, ns ++ ns', m, ns, ns', hm, hrow, rfl⟩
      · exact .inr (.inr ⟨m, ns, hm, hrow⟩)
    · exact .inr (.inl hf)
theorem answersAny (es : List Expr) {p : Nat} (hs : Expr.softAll es = true) (hp : r.input.isBoundary p = true)
    (h : r.Supplied (Expr.leadsAny es) (Expr.refsAll es) p) :
    (∃ q ns, r.AnyMatches es p q ns) ∨ r.AnyRefuses es p := by
  cases es with
  | nil => exact .inr hp
  | cons e es =>
    simp only [Expr.softAll, Bool.and_eq_true] at hs
    rcases answers e hs.1 hp (h.mono (List.subset_append_left _ _) (List.subset_append_left _ _)) with
      ⟨q, ns, hm⟩ | hf
    · exact .inl ⟨q, ns, .inl hm⟩
    · rcases answersAny es hs.2 hp (h.mono (List.subset_append_right _ _) (List.subset_append_right _ _)) with
        ⟨q, ns, hany⟩ | hany
      · exact .inl ⟨q, ns, .inr ⟨hf, hany⟩⟩
      · exact .inr ⟨hf, hany⟩
end

end Reading

/-! ## Rules -/

/-- Rules that refer to one another only, and that lead to rules of lower rank only. -/
structure Grammar.Stratified (g : Grammar) (rules : List (String × Expr)) (rank : String → Nat) : Prop where
  declares : ∀ d ∈ rules, g.Declares d.1 ⟨d.1, {}, d.2⟩
  soft : ∀ d ∈ rules, d.2.soft = true
  closed : ∀ d ∈ rules, ∀ name ∈ d.2.refs, name ∈ rules.map (·.1)
  falling : ∀ d ∈ rules, ∀ name ∈ d.2.leads, rank name < rank d.1

theorem Grammar.Stratified.answers {r : Reading} {rules : List (String × Expr)} {rank : String → Nat}
    (h : r.grammar.Stratified rules rank) {name : String} (hn : name ∈ rules.map (·.1)) {p : Nat}
    (hp : r.input.isBoundary p = true) : r.Answers (.ref name) p := by
  obtain ⟨d, hd, rfl⟩ := List.mem_map.1 hn
  -- by induction on what remains of the input, and at one place on the rank
  have hbody : r.Answers d.2 p := by
    refine Reading.answers d.2 (h.soft d hd) hp ⟨fun name hname => ?_, fun name hname q hpq hq => ?_⟩
    · have := h.falling d hd name hname
      exact h.answers (h.closed d hd name (d.2.leads_subset hname)) hp
    · have := Input.le_size_of_isBoundary hq
      exact h.answers (h.closed d hd name hname) hq
  rcases hbody with ⟨q, ns, hm⟩ | hf
  · obtain ⟨t, ht⟩ := hm.span
    exact .inl ⟨q, _, (Reading.matches_rule (h.declares d hd)).2 ⟨ns, t, hm, ht, rfl⟩⟩
  · exact .inr ((Reading.refuses_rule (h.declares d hd)).2 hf)
termination_by (r.input.size - p, rank name)

end PegTree
