import PegTree.Proofs.Abnf.Passage
import PegTree.Proofs.Abnf.RoundTrip

/-!
# Texts one after another

The last line of a normal text ends, so its items are read alike when another text follows that does
not start with a blank, and then the items of the other text are read. The definitions of both are
there one after the other, up to the first that takes a name of the first text.
-/

namespace PegTree.Abnf

/-! ## Definitions in front of others -/

section
variable {e d d' d'' : Definitions} {name operator : String} {rhs : Expr}

theorem get?_isSome : (d.get? name).isSome = true ↔ name ∈ d.names := by
  unfold Definitions.get? Definitions.names
  exact mem_names_iff.symm

theorem define_ok (h : d.define name operator rhs = .ok d') :
    (operator = "=" ∧ name ∉ d.names ∧ d' = ⟨d.rules ++ [(name, rhs)]⟩) ∨
      (operator = "=/" ∧ name ∈ d.names ∧ d' = d.extend name rhs) := by
  unfold Definitions.define at h
  by_cases ho : operator = "="
  · rw [if_pos ho] at h
    by_cases hn : (d.get? name).isSome = true
    · rw [if_pos hn] at h
      cases h
    · rw [if_neg hn] at h
      cases h
      exact .inl ⟨ho, fun hm => hn (get?_isSome.2 hm), rfl⟩
  · rw [if_neg ho] at h
    by_cases ho' : operator = "=/"
    · rw [if_pos ho'] at h
      by_cases hn : (d.get? name).isSome = true
      · rw [if_pos hn] at h
        cases h
        exact .inr ⟨ho', get?_isSome.1 hn, rfl⟩
      · rw [if_neg hn] at h
        cases h
    · rw [if_neg ho'] at h
      cases h

theorem names_extend : (d.extend name rhs).names = d.names := by
  unfold Definitions.extend Definitions.names
  rw [List.map_map]
  apply List.map_congr_left
  intro r _
  by_cases h : r.1 = name <;> simp [h]

theorem names_define (h : d.define name operator rhs = .ok d') : d.names <+: d'.names := by
  rcases define_ok h with ⟨_, _, h⟩ | ⟨_, _, h⟩
  · subst h
    exact ⟨[name], by simp [Definitions.names]⟩
  · rw [h, names_extend]

def Definitions.append (e d : Definitions) : Definitions := ⟨e.rules ++ d.rules⟩

theorem append_empty : e.append {} = e := by
  simp [Definitions.append]

theorem names_append : (e.append d).names = e.names ++ d.names := by
  simp [Definitions.append, Definitions.names]

theorem extend_fresh (h : name ∉ e.names) : e.extend name rhs = e := by
  obtain ⟨rules⟩ := e
  unfold Definitions.extend
  congr 1
  conv_rhs => rw [← List.map_id rules]
  apply List.map_congr_left
  intro r hr
  have hn : r.1 ≠ name := by
    intro hn
    exact h (List.mem_map.2 ⟨r, hr, hn⟩)
  simp [hn]

theorem extend_append (h : name ∉ e.names) : (e.append d).extend name rhs = e.append (d.extend name rhs) := by
  calc (e.append d).extend name rhs = (e.extend name rhs).append (d.extend name rhs) := by
        simp [Definitions.extend, Definitions.append]
    _ = e.append (d.extend name rhs) := by rw [extend_fresh h]

theorem define_append (h : d.define name operator rhs = .ok d') (hn : name ∉ e.names) :
    (e.append d).define name operator rhs = .ok (e.append d') := by
  have hget : ((e.append d).get? name).isSome = true ↔ name ∈ d.names := by
    rw [get?_isSome, names_append, List.mem_append]
    simp [hn]
  unfold Definitions.define
  rcases define_ok h with ⟨ho, hd, h⟩ | ⟨ho, hd, h⟩
  · rw [if_pos ho, if_neg fun hs => hd (hget.1 hs), h]
    simp [Definitions.append]
  · have ho' : operator ≠ "=" := by
      rw [ho]
      decide
    rw [if_neg ho', if_pos ho, if_pos (hget.2 hd), h, extend_append hn]

theorem define_taken (h : d.define name operator rhs = .ok d') (hn : name ∈ e.names) (hd : name ∉ d.names) :
    (e.append d).define name operator rhs = .error (.ofGrammar (.duplicateRule name)) ∧
      d'.names = d.names ++ [name] := by
  rcases define_ok h with ⟨ho, _, h⟩ | ⟨_, hmem, _⟩
  · have hget : ((e.append d).get? name).isSome = true := by
      rw [get?_isSome, names_append]
      exact List.mem_append_left _ hn
    unfold Definitions.define
    rw [if_pos ho, if_pos hget, h]
    exact ⟨rfl, by simp [Definitions.names]⟩
  · exact absurd hmem hd

theorem addRule_cases (n : Node) : (∃ x, ∀ d : Definitions, d.addRule n = .error x) ∨
    ∃ name operator rhs, ∀ d : Definitions, d.addRule n = d.define name operator rhs := by
  unfold Definitions.addRule
  cases child n "rulename" with
  | error x => exact .inl ⟨x, fun _ => rfl⟩
  | ok a =>
    cases child n "defined_as" with
    | error x => exact .inl ⟨x, fun _ => rfl⟩
    | ok b =>
      cases child n "elements" with
      | error x => exact .inl ⟨x, fun _ => rfl⟩
      | ok c =>
        show (∃ x, ∀ d : Definitions, (alternationIn c.tag c.children >>= d.define _ _) = .error x) ∨
          ∃ name operator rhs, ∀ d : Definitions, (alternationIn c.tag c.children >>= d.define _ _) = _
        cases alternationIn c.tag c.children with
        | error x => exact .inl ⟨x, fun _ => rfl⟩
        | ok rhs => exact .inr ⟨_, _, rhs, fun _ => rfl⟩

theorem define_of_addRule {n : Node} (h : d.addRule n = .ok d') :
    ∃ name operator rhs, d.define name operator rhs = .ok d' ∧
      ∀ d : Definitions, d.addRule n = d.define name operator rhs := by
  rcases addRule_cases n with ⟨x, hx⟩ | ⟨name, operator, rhs, hdef⟩
  · rw [hx] at h
    cases h
  · exact ⟨name, operator, rhs, by rw [← hdef, h], hdef⟩

theorem bind_ok {α β : Type} {x : Except Error α} {f : α → Except Error β} {b : β} (h : (x >>= f) = .ok b) :
    ∃ a, x = .ok a ∧ f a = .ok b := by
  cases x with
  | error e => cases h
  | ok a => exact ⟨a, rfl, h⟩

theorem names_addRules {ns : List Node} (h : ns.foldlM Definitions.addRule d = .ok d') : d.names <+: d'.names := by
  induction ns generalizing d with
  | nil =>
    cases h
    exact List.prefix_refl _
  | cons n ns ih =>
    rw [List.foldlM_cons] at h
    obtain ⟨d₁, hn, h⟩ := bind_ok h
    obtain ⟨_, _, _, hdef, _⟩ := define_of_addRule hn
    exact (names_define hdef).trans (ih h)

/-- All definitions after those in front of them, or the first name that these have already. -/
def Definitions.joined (e d : Definitions) : Except Error Definitions :=
  match d.names.find? e.names.contains with
  | none => .ok (e.append d)
  | some name => .error (.ofGrammar (.duplicateRule name))

theorem joined_fresh (h : ∀ name ∈ d.names, name ∉ e.names) : e.joined d = .ok (e.append d) := by
  have hfind : d.names.find? e.names.contains = none := by
    rw [List.find?_eq_none]
    simpa using h
  unfold Definitions.joined
  rw [hfind]

theorem joined_taken (hd : ∀ name ∈ d.names, name ∉ e.names) (hn : name ∈ e.names)
    (h : d.names ++ [name] <+: d'.names) :
    e.joined d' = .error (.ofGrammar (.duplicateRule name)) := by
  have hfind : d.names.find? e.names.contains = none := by
    rw [List.find?_eq_none]
    simpa using hd
  obtain ⟨more, hmore⟩ := h
  unfold Definitions.joined
  rw [← hmore, List.find?_append, List.find?_append, hfind]
  simp [hn]

theorem fresh_define (h : d.define name operator rhs = .ok d') (hd : ∀ m ∈ d.names, m ∉ e.names)
    (hn : name ∉ e.names) :
    ∀ m ∈ d'.names, m ∉ e.names := by
  rcases define_ok h with ⟨_, _, h⟩ | ⟨_, _, h⟩
  · intro m hm
    rw [h] at hm
    simp only [Definitions.names, List.map_append, List.map_cons, List.map_nil, List.mem_append,
      List.mem_singleton] at hm
    rcases hm with hm | hm
    · exact hd m hm
    · rw [hm]
      exact hn
  · rw [h, names_extend]
    exact hd

theorem addRules_joined {ns : List Node} (h : ns.foldlM Definitions.addRule d = .ok d')
    (hd : ∀ name ∈ d.names, name ∉ e.names) : ns.foldlM Definitions.addRule (e.append d) = e.joined d' := by
  induction ns generalizing d with
  | nil =>
    cases h
    rw [joined_fresh hd]
    rfl
  | cons n ns ih =>
    rw [List.foldlM_cons] at h
    obtain ⟨d₁, hn, h⟩ := bind_ok h
    obtain ⟨name, operator, rhs, hdef, hall⟩ := define_of_addRule hn
    rw [List.foldlM_cons, hall]
    by_cases hname : name ∈ e.names
    · obtain ⟨herr, hnames⟩ := define_taken hdef hname fun hm => hd name hm hname
      rw [herr, joined_taken hd hname (hnames ▸ names_addRules h)]
      rfl
    · rw [define_append hdef hname]
      exact ih h (fresh_define hdef hd hname)

end

/-! ## Items -/

section
variable {t₁ t₂ : Text}

theorem suffix?_append {p : Nat} {x : Text} (h : (reading t₁).input.suffix? p = some x) :
    (reading (t₁ ++ t₂)).input.suffix? p = some (x ++ t₂) := by
  obtain ⟨w, ht, hp⟩ := Input.suffix?_eq_some_iff.1 h
  have ht : t₁ = w ++ x := ht
  refine Input.suffix?_eq_some_iff.2 ⟨w, ?_, hp⟩
  show t₁ ++ t₂ = w ++ (x ++ t₂)
  rw [ht, List.append_assoc]

theorem suffix?_end (t₁ t₂ : Text) : (reading (t₁ ++ t₂)).input.suffix? (byteSize t₁) = some t₂ :=
  Input.suffix?_eq_some_iff.2 ⟨t₁, rfl, rfl⟩

theorem item_end {p q : Nat} {ns : List Node} (hp : (reading t₁).input.suffix? p = some [])
    (hm : (reading t₁).Matches item p q ns) : q = p ∧ ns = [] := by
  obtain ⟨_, hnil, rfl⟩ := reads_item_end p hp
  exact hm.unique rfl hnil

/-- Before the end of a line an item is read alike when something flush follows. -/
theorem item_append (hflush : Flush t₂) {p m : Nat} {ns : List Node} {x : Text}
    (hm : (reading t₁).Matches item p m ns)
    (hx : (reading t₁).input.suffix? p = some x) (hne : x ≠ []) (hlast : ∀ c ∈ x.getLast?, c = '\n') :
    ∃ y ns', (reading t₁).input.suffix? m = some y ∧ (∀ c ∈ y.getLast?, c = '\n') ∧
      (reading (t₁ ++ t₂)).Matches item p m ns' ∧ Node.bareList ns' = Node.bareList ns := by
  obtain ⟨v, c, rfl⟩ := (List.eq_nil_or_concat x).resolve_left hne
  rw [List.concat_eq_append] at hx hlast
  obtain rfl : c = '\n' := hlast c (by simp)
  have hlines : SameLines (v ++ ['\n']) (v ++ ['\n'] ++ t₂) :=
    ⟨v, [], t₂, rfl, by simp, fun c hc => (by cases hc), hflush⟩
  have hpassage : Passage t₁ (t₁ ++ t₂) SameLines SameOrPast := .lines
  obtain ⟨u, y, y', ns', hu, hu', rfl, _, hm', hns⟩ :=
    (hpassage.item _ (fun _ _ => .inl) p p _ _ (Nat.lt_succ_self _) hx (suffix?_append hx) hlines).1 m ns hm
  rw [hu] at hx hlast
  refine ⟨y, ns', Input.suffix?_add hx, fun c hc => hlast c ?_, hm', hns⟩
  rw [List.getLast?_append, hc]
  rfl

theorem items_append (hflush : Flush t₂) {q₂ k₂ : Nat} {ms : List Node}
    (htail : (reading (t₁ ++ t₂)).Repeats item (byteSize t₁) q₂ k₂ ms) {p q k : Nat} {ns : List Node}
    (h : (reading t₁).Repeats item p q k ns) (hq : (reading t₁).input.rest q = []) {x : Text}
    (hx : (reading t₁).input.suffix? p = some x) (hlast : ∀ c ∈ x.getLast?, c = '\n') :
    ∃ k' ns', (reading (t₁ ++ t₂)).Repeats item p q₂ k' (ns' ++ ms) ∧ Node.bareList ns' = Node.bareList ns := by
  -- where nothing is left of the first text, the items of the other one come next
  have hdone : ∀ {p : Nat}, (reading t₁).input.suffix? p = some [] →
      ∃ k', (reading (t₁ ++ t₂)).Repeats item p q₂ k' ([] ++ ms) := by
    intro p hp
    obtain ⟨w, ht, hw⟩ := Input.suffix?_eq_some_iff.1 hp
    have ht : t₁ = w := ht.trans (List.append_nil w)
    rw [hw, ← ht]
    exact ⟨k₂, htail⟩
  induction h generalizing x with
  | refused _ =>
    obtain rfl : x = [] := (Input.rest_of_suffix? hx).symm.trans hq
    obtain ⟨k', hrep⟩ := hdone hx
    exact ⟨k', [], hrep, rfl⟩
  | still hm =>
    obtain rfl : x = [] := (Input.rest_of_suffix? hx).symm.trans hq
    obtain ⟨_, rfl⟩ := item_end hx hm
    obtain ⟨k', hrep⟩ := hdone hx
    exact ⟨k', [], hrep, rfl⟩
  | @cons p m q k ns ns₂ hm hne _ ih =>
    have hmore : x ≠ [] := by
      rintro rfl
      exact hne (item_end hx hm).1
    obtain ⟨y, ns', hy, hlast', hm', hns⟩ := item_append hflush hm hx hmore hlast
    obtain ⟨k', ns₂', hrep, hns₂⟩ := ih hq hy hlast'
    refine ⟨k' + 1, ns' ++ ns₂', ?_, ?_⟩
    · rw [List.append_assoc]
      exact .cons hm' hne hrep
    · rw [Node.bareList_append, Node.bareList_append, hns, hns₂]

theorem items_after (t₁ : Text) {q k : Nat} {ns : List Node} (h : (reading t₂).Repeats item 0 q k ns)
    (hq : (reading t₂).input.rest q = []) : ∃ q' ns', (reading (t₁ ++ t₂)).Repeats item (byteSize t₁) q' k ns' ∧
      (reading (t₁ ++ t₂)).input.rest q' = [] ∧ Node.bareList ns' = Node.bareList ns := by
  have hstart : (reading t₂).input.suffix? 0 = some t₂ := Input.suffix?_eq_some_iff.2 ⟨[], rfl, rfl⟩
  have hsame : Passage t₂ (t₁ ++ t₂) Eq Eq := .same
  obtain ⟨u, y, _, ns', hu, hu', rfl, rfl, hrep, hns⟩ :=
    (hsame.item _ fun _ _ h => h).repeats h (Nat.lt_succ_self _) hstart (suffix?_end t₁ t₂) rfl
  have hleft := Input.suffix?_add (hstart.trans (congrArg some hu))
  have hleft' := Input.suffix?_add ((suffix?_end t₁ t₂).trans (congrArg some hu'))
  have hend : y = [] := (Input.rest_of_suffix? hleft).symm.trans hq
  exact ⟨_, ns', hrep, (Input.rest_of_suffix? hleft').trans hend, hns⟩

end

/-! ## Texts -/

section
variable {t t₁ t₂ : Text} {d d₁ d₂ : Definitions}

theorem normal_append (h₁ : Normal t₁) (h₂ : Normal t₂) (hhead : ∀ c ∈ t₂.head?, isBlank c = false) :
    Normal (t₁ ++ t₂) where
  ended c hc := by
    rw [List.getLast?_append] at hc
    cases hlast : t₂.getLast? with
    | none =>
      rw [hlast] at hc
      exact h₁.ended c hc
    | some b =>
      rw [hlast] at hc
      exact h₂.ended c (hlast.trans hc)
  solid := by
    rw [← List.cons_append]
    refine List.isChain_append.2 ⟨h₁.solid, (List.isChain_cons.1 h₂.solid).2, fun c _ b hb hn => ?_⟩
    rw [hn] at hb
    exact absurd (hhead '\n' hb) (by decide)
  flush := by
    by_cases ht : t₁ = []
    · rw [ht]
      exact h₂.flush
    · refine .inr fun hchain => ?_
      rw [← List.cons_append] at hchain
      exact (h₁.flush.resolve_left ht) (List.isChain_append.1 hchain).1

/-- A normal text that is compiled is a list of items, and the definitions are what they add. -/
theorem items_of_compile (hn : normalize t = t) (hc : compile t = .ok d) :
    ∃ q k ns, (reading t).Repeats item 0 q k ns ∧ (reading t).input.rest q = [] ∧ addRules {} ns = .ok d := by
  rcases parseTree_cases t with ⟨q, _, hq⟩ | ⟨_, q, ns, hm, hend, _⟩
  · unfold compile at hc
    rw [hn, hq] at hc
    cases hc
  · obtain ⟨k, hrep⟩ := Reading.matches_many.1 hm
    exact ⟨q, k, ns, hrep, hend, (compile_items hn hm hend).symm.trans hc⟩

theorem compile_joined (h₁ : normalize t₁ = t₁) (h₂ : normalize t₂ = t₂) (hc₁ : compile t₁ = .ok d₁)
    (hc₂ : compile t₂ = .ok d₂) (hhead : ∀ c ∈ t₂.head?, isBlank c = false) :
    compile (t₁ ++ t₂) = d₁.joined d₂ := by
  have hflush : Flush t₂ := by
    intro c hc hmem
    have hb := hhead c hc
    rcases List.mem_pair.1 hmem with rfl | rfl <;> exact absurd hb (by decide)
  have hnormal : Normal (t₁ ++ t₂) := normal_append (h₁ ▸ normal_normalize t₁) (h₂ ▸ normal_normalize t₂) hhead
  obtain ⟨q₁, k₁, ns₁, hrep₁, hend₁, hadd₁⟩ := items_of_compile h₁ hc₁
  obtain ⟨q₂, k₂, ns₂, hrep₂, hend₂, hadd₂⟩ := items_of_compile h₂ hc₂
  obtain ⟨q, ms₂, htail, hend, hbare₂⟩ := items_after t₁ hrep₂ hend₂
  have hstart : (reading t₁).input.suffix? 0 = some t₁ := Input.suffix?_eq_some_iff.2 ⟨[], rfl, rfl⟩
  have hlast : ∀ c ∈ t₁.getLast?, c = '\n' := (h₁ ▸ normal_normalize t₁ : Normal t₁).ended
  obtain ⟨k, ms₁, hrep, hbare₁⟩ := items_append hflush htail hrep₁ hend₁ hstart hlast
  have hm := Reading.matches_many.2 ⟨k, hrep⟩
  calc compile (t₁ ++ t₂) = addRules {} (ms₁ ++ ms₂) := compile_items (normalize_normal hnormal) hm hend
    _ = addRules {} ms₁ >>= fun d => addRules d ms₂ := addRules_append {} ms₁ ms₂
    _ = addRules d₁ ms₂ := by rw [addRules_bare {} hbare₁, hadd₁]; rfl
    _ = addRules d₁ ns₂ := addRules_bare d₁ hbare₂
    _ = addRules (d₁.append {}) ns₂ := by rw [append_empty]
    _ = d₁.joined d₂ := addRules_joined hadd₂ (List.forall_mem_nil _)

/-- Compiled blocks that follow each other define what they define alone, the first block's rules in front,
unless the second one has a name of the first: then its first such name is in error. -/
theorem compile_append (h₁ : normalize t₁ = t₁) (h₂ : normalize t₂ = t₂) (hc₁ : compile t₁ = .ok d₁)
    (hc₂ : compile t₂ = .ok d₂) (hhead : ∀ c ∈ t₂.head?, isBlank c = false) :
    ((∀ name ∈ d₂.names, name ∉ d₁.names) → compile (t₁ ++ t₂) = .ok ⟨d₁.rules ++ d₂.rules⟩) ∧
    ∀ name, d₂.names.find? d₁.names.contains = some name →
      compile (t₁ ++ t₂) = .error (.ofGrammar (.duplicateRule name)) := by
  rw [compile_joined h₁ h₂ hc₁ hc₂ hhead]
  constructor
  · exact joined_fresh
  · intro name hname
    unfold Definitions.joined
    rw [hname]

theorem compile_append_twice :
    compile ("a = b\n".toList ++ "c = a\nc =/ d\n".toList) =
      .ok ⟨[("a", .placeholder false "b"),
        ("c", (Expr.placeholder false "a").orElse (.placeholder false "d"))]⟩ ∧
    compile ("a = b\n".toList ++ "c = a\na = c\n".toList) = .error (.ofGrammar (.duplicateRule "a")) := by
  have hone : compile "a = b\n".toList = .ok ⟨[("a", .placeholder false "b")]⟩ := by decide +kernel
  have hown : compile "c = a\nc =/ d\n".toList =
      .ok ⟨[("c", (Expr.placeholder false "a").orElse (.placeholder false "d"))]⟩ := by decide +kernel
  have htwo : compile "c = a\na = c\n".toList =
      .ok ⟨[("c", .placeholder false "a"), ("a", .placeholder false "c")]⟩ := by decide +kernel
  have hhead : ∀ {t : Text}, ∀ c ∈ ('c' :: t).head?, isBlank c = false := by
    intro t c hc
    cases hc
    rfl
  constructor
  · exact (compile_append (by decide +kernel) (by decide +kernel) hone hown hhead).1 (by decide)
  · exact (compile_append (by decide +kernel) (by decide +kernel) hone htwo hhead).2 "a" (by decide)

end

end PegTree.Abnf
