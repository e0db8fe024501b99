import PegTree.Abnf.Register
import PegTree.Proofs.Abnf.Naming
import PegTree.Proofs.Abnf.Rules

/-!
# What registering a text leaves behind

A text that is not compiled leaves a grammar as it is. One that is compiled brings the core tokens first
and then its rules, one by one, up to the first whose name is taken. So a text whose rules clash with
those of the grammar has left something behind unless nothing stood before the clash.
-/

namespace PegTree

namespace Grammar

variable {g : Grammar} {name : String}

theorem hasRule_iff : g.hasRule name = true ↔ name ∈ g.ruleNames := by
  simp [hasRule, rule?, ruleNames]

theorem hasToken_iff : g.hasToken name = true ↔ name ∈ g.tokens.map (·.1) := by
  unfold hasToken token?
  exact mem_names_iff.symm

/-! ## Core tokens -/

theorem addCoreTokens_known {x : String × Expr} {ts : List (String × Expr)} (h : g.hasToken x.1 = true) :
    g.addCoreTokens (x :: ts) = g.addCoreTokens ts := by
  simp [addCoreTokens, h]

theorem addCoreTokens_missing {x : String × Expr} {ts : List (String × Expr)} (h : g.hasToken x.1 = false) :
    g.addCoreTokens (x :: ts) = addCoreTokens { g with tokens := g.tokens ++ [x] } ts := by
  simp [addCoreTokens, h]

def equip (g : Grammar) (ts : List (String × Expr)) : Grammar :=
  { g with tokens := g.tokens ++ ts.filter (!g.hasToken ·.1) }

theorem addCoreTokens_eq {ts : List (String × Expr)} (h : (ts.map (·.1)).Nodup) :
    g.addCoreTokens ts = g.equip ts := by
  induction ts generalizing g with
  | nil => simp [addCoreTokens, equip]
  | cons x ts ih =>
    obtain ⟨hx, hts⟩ := List.nodup_cons.1 h
    by_cases hg : g.hasToken x.1 = true
    · rw [addCoreTokens_known hg, ih hts]
      simp [equip, hg]
    · have hg : g.hasToken x.1 = false := by simpa using hg
      -- the token that is new now is none of those to come
      have hsame : ts.filter (fun y => !hasToken { g with tokens := g.tokens ++ [x] } y.1) =
          ts.filter (!g.hasToken ·.1) := by
        apply List.filter_congr
        intro y hy
        have hne : y.1 ≠ x.1 := fun he => hx (List.mem_map.2 ⟨y, hy, he⟩)
        congr 1
        rw [Bool.eq_iff_iff, hasToken_iff, hasToken_iff]
        simp [hne]
      rw [addCoreTokens_missing hg, ih hts]
      simp [equip, hg, hsame]

/-! ## Definitions -/

def ruleOf (d : String × Expr) : RuleDecl := ⟨d.1, {}, fun token? => .ok (Abnf.resolve token? d.2)⟩

def withRules (g : Grammar) (ds : List (String × Expr)) : Grammar := { g with rules := g.rules ++ ds.map ruleOf }

theorem addDefinitions_taken {d : String × Expr} {ds : List (String × Expr)} (h : g.hasRule d.1 = true) :
    g.addDefinitions (d :: ds) = (g, .error (.ofGrammar (.duplicateRule d.1))) := by
  simp [addDefinitions, addRule, h]

theorem addDefinitions_free {d : String × Expr} {ds : List (String × Expr)} (h : g.hasRule d.1 = false) :
    g.addDefinitions (d :: ds) = (g.withRules [d]).addDefinitions ds := by
  simp [addDefinitions, addRule, withRules, ruleOf, h]

/-- Of definitions whose names differ, those before the first whose name is taken become rules. -/
theorem addDefinitions_cases {ds : List (String × Expr)} (h : (ds.map (·.1)).Nodup) :
    ((∀ d ∈ ds, g.hasRule d.1 = false) ∧ g.addDefinitions ds = (g.withRules ds, .ok ())) ∨
    ∃ before clash after, ds = before ++ clash :: after ∧ (∀ d ∈ before, g.hasRule d.1 = false) ∧
      g.hasRule clash.1 = true ∧
      g.addDefinitions ds = (g.withRules before, .error (.ofGrammar (.duplicateRule clash.1))) := by
  induction ds generalizing g with
  | nil => exact .inl ⟨List.forall_mem_nil _, by simp [addDefinitions, withRules]⟩
  | cons d ds ih =>
    obtain ⟨hd, hds⟩ := List.nodup_cons.1 h
    by_cases hg : g.hasRule d.1 = true
    · refine .inr ⟨[], d, ds, rfl, List.forall_mem_nil _, hg, ?_⟩
      rw [addDefinitions_taken hg]
      simp [withRules]
    · have hg : g.hasRule d.1 = false := by simpa using hg
      have hmore : ∀ ds, (g.withRules [d]).withRules ds = g.withRules (d :: ds) := by
        intro ds
        simp [withRules]
      -- the rule that is new now clashes with none of those to come
      have hsame : ∀ d' ∈ ds, (g.withRules [d]).hasRule d'.1 = g.hasRule d'.1 := by
        intro d' hd'
        have hne : d'.1 ≠ d.1 := fun he => hd (List.mem_map.2 ⟨d', hd', he⟩)
        rw [Bool.eq_iff_iff, hasRule_iff, hasRule_iff]
        simp [withRules, ruleNames, ruleOf, hne]
      rw [addDefinitions_free hg]
      rcases ih hds with ⟨hall, heq⟩ | ⟨before, clash, after, hsplit, hall, hclash, heq⟩
      · refine .inl ⟨List.forall_mem_cons.2 ⟨hg, fun d' hd' => ?_⟩, by rw [heq, hmore]⟩
        rw [← hsame d' hd']
        exact hall d' hd'
      · have hmem : ∀ d' ∈ before ++ [clash], d' ∈ ds := by
          intro d' hd'
          rw [hsplit]
          simp at hd' ⊢
          tauto
        refine .inr ⟨d :: before, clash, after, by rw [hsplit, List.cons_append],
          List.forall_mem_cons.2 ⟨hg, fun d' hd' => ?_⟩, ?_, by rw [heq, hmore]⟩
        · rw [← hsame d' (hmem d' (List.mem_append_left _ hd'))]
          exact hall d' hd'
        · rw [← hsame clash (hmem clash (by simp))]
          exact hclash

end Grammar

/-! ## Texts -/

namespace Abnf

theorem coreTokens_eq : coreTokens = .ok tokens := by rfl

theorem nodup_tokens : (tokens.map (·.1)).Nodup := by decide +kernel

end Abnf

namespace Grammar

variable {g : Grammar} {t : Text}

theorem addAbnf_of_compile {d : Abnf.Definitions} (h : Abnf.compile t = .ok d) :
    g.addAbnf t = (g.equip Abnf.tokens).addDefinitions d.rules := by
  unfold addAbnf
  rw [h, Abnf.coreTokens_eq]
  simp only [addCoreTokens_eq Abnf.nodup_tokens]

/-- What a call can do: nothing, everything, or what comes before the first clash. -/
theorem addAbnf_cases (g : Grammar) (t : Text) : (∃ e, Abnf.compile t = .error e ∧ g.addAbnf t = (g, .error e)) ∨
    (∃ d, Abnf.compile t = .ok d ∧ (∀ r ∈ d.rules, g.hasRule r.1 = false) ∧
      g.addAbnf t = ((g.equip Abnf.tokens).withRules d.rules, .ok ())) ∨
    ∃ d before clash after, Abnf.compile t = .ok d ∧ d.rules = before ++ clash :: after ∧
      (∀ r ∈ before, g.hasRule r.1 = false) ∧ g.hasRule clash.1 = true ∧
      g.addAbnf t = ((g.equip Abnf.tokens).withRules before, .error (.ofGrammar (.duplicateRule clash.1))) := by
  cases hc : Abnf.compile t with
  | error e =>
    refine .inl ⟨e, rfl, ?_⟩
    unfold addAbnf
    rw [hc]
  | ok d =>
    rw [addAbnf_of_compile hc]
    rcases addDefinitions_cases (g := g.equip Abnf.tokens) (Abnf.compile_names hc).1 with
      ⟨hall, heq⟩ | ⟨before, clash, after, hsplit, hall, hclash, heq⟩
    · exact .inr (.inl ⟨d, rfl, hall, heq⟩)
    · exact .inr (.inr ⟨d, before, clash, after, rfl, hsplit, hall, hclash, heq⟩)

theorem addAbnf_free {d : Abnf.Definitions} (h : Abnf.compile t = .ok d)
    (hall : ∀ r ∈ d.rules, g.hasRule r.1 = false) :
    g.addAbnf t = ((g.equip Abnf.tokens).withRules d.rules, .ok ()) := by
  rcases addAbnf_cases g t with ⟨e, hc, _⟩ | ⟨d', hc, _, heq⟩ |
    ⟨d', before, clash, after, hc, hsplit, _, hclash, _⟩
  · rw [h] at hc
    cases hc
  · rw [h] at hc
    cases hc
    exact heq
  · rw [h] at hc
    cases hc
    rw [hall clash (by simp [hsplit])] at hclash
    cases hclash

theorem addAbnf_ok_iff {d : Abnf.Definitions} (h : Abnf.compile t = .ok d) :
    (g.addAbnf t).2 = .ok () ↔ ∀ r ∈ d.rules, g.hasRule r.1 = false := by
  constructor
  · intro hok
    rcases addAbnf_cases g t with ⟨e, _, heq⟩ | ⟨d', hc, hall, _⟩ | ⟨_, _, _, _, _, _, _, _, heq⟩
    · rw [heq] at hok
      cases hok
    · rw [h] at hc
      cases hc
      exact hall
    · rw [heq] at hok
      cases hok
  · intro hall
    rw [addAbnf_free h hall]

theorem equip_tokens_iff {ts : List (String × Expr)} :
    (g.equip ts).tokens = g.tokens ↔ ∀ token ∈ ts, g.hasToken token.1 = true := by
  simp [equip, List.filter_eq_nil_iff]

theorem withRules_rules_iff {ds : List (String × Expr)} : (g.withRules ds).rules = g.rules ↔ ds = [] := by
  simp [withRules]

/-- A call in error whose text is not compiled leaves all as it was. If it is compiled, the rules before the
first clash are there and so are all core tokens; nothing has changed just if there was none of either to add. -/
theorem addAbnf_error {e : Abnf.Error} (h : (g.addAbnf t).2 = .error e) :
    (∀ e', Abnf.compile t = .error e' → e' = e ∧ (g.addAbnf t).1 = g) ∧
    ∀ d, Abnf.compile t = .ok d → ∃ before clash after, d.rules = before ++ clash :: after ∧
      (∀ r ∈ before, g.hasRule r.1 = false) ∧ g.hasRule clash.1 = true ∧ e = .ofGrammar (.duplicateRule clash.1) ∧
      (g.addAbnf t).1 = (g.equip Abnf.tokens).withRules before ∧
      ((g.addAbnf t).1.rules = g.rules ∧ (g.addAbnf t).1.tokens = g.tokens ↔
        before = [] ∧ ∀ token ∈ Abnf.tokens, g.hasToken token.1 = true) := by
  rcases addAbnf_cases g t with ⟨e', hc, heq⟩ | ⟨d, _, _, heq⟩ |
    ⟨d, before, clash, after, hc, hsplit, hall, hclash, heq⟩
  · rw [heq] at h ⊢
    cases h
    simp [hc]
  · rw [heq] at h
    cases h
  · rw [heq] at h ⊢
    cases h
    refine ⟨by simp [hc], fun d' hd' => ?_⟩
    obtain rfl : d = d' := by simpa [hc] using hd'
    refine ⟨before, clash, after, hsplit, hall, hclash, rfl, rfl, ?_⟩
    rw [← withRules_rules_iff (g := g), ← equip_tokens_iff]
    rfl

def occupied : Grammar := { rules := [⟨"b", {}, fun _ => .ok (.literal false [.text ['x']] none)⟩] }

theorem addAbnf_error_first : (occupied.addAbnf "b = %x61".toList).2 = .error (.ofGrammar (.duplicateRule "b")) ∧
    (occupied.addAbnf "b = %x61".toList).1.ruleNames = ["b"] ∧
    (occupied.addAbnf "b = %x61".toList).1.tokens ≠ occupied.tokens := by
  have hc : Abnf.compile "b = %x61".toList = .ok
      ⟨[("b", .literal false [.text ['a']] (some true))]⟩ := by decide +kernel
  have he : (occupied.addAbnf "b = %x61".toList).2 = .error (.ofGrammar (.duplicateRule "b")) := by
    rw [addAbnf_of_compile hc]
    rfl
  obtain ⟨before, clash, after, hsplit, _, _, _, hleft, hsame⟩ := (addAbnf_error he).2 _ hc
  have hnone : before = [] := by
    have hlength := congrArg List.length hsplit
    simp at hlength
    exact List.eq_nil_of_length_eq_zero (by omega)
  subst hnone
  have hrules : (occupied.addAbnf "b = %x61".toList).1.rules = occupied.rules := by
    rw [hleft, withRules_rules_iff.2 rfl, equip]
  have hnames : (occupied.addAbnf "b = %x61".toList).1.ruleNames = ["b"] := by
    rw [ruleNames, hrules]
    rfl
  have hmissing : ¬ ∀ token ∈ Abnf.tokens, occupied.hasToken token.1 = true := by decide +kernel
  exact ⟨he, hnames, fun htokens => hmissing (hsame.1 ⟨hrules, htokens⟩).2⟩

/-- A clash at the second definition leaves the first one behind. -/
theorem occupied_left_behind : ¬ ∀ (g : Grammar) (t : Text) (e : Abnf.Error), (g.addAbnf t).2 = .error e →
    (g.addAbnf t).1.rules = g.rules ∧ (g.addAbnf t).1.tokens = g.tokens := by
  intro hall
  have hc : Abnf.compile "a = %x61\nb = %x62".toList = .ok ⟨[("a", .literal false [.text ['a']] (some true)),
      ("b", .literal false [.text ['b']] (some true))]⟩ := by decide +kernel
  have hleft : (occupied.addAbnf "a = %x61\nb = %x62".toList).2 = .error (.ofGrammar (.duplicateRule "b")) ∧
      (occupied.addAbnf "a = %x61\nb = %x62".toList).1.ruleNames = ["b", "a"] := by
    rw [addAbnf_of_compile hc]
    exact ⟨rfl, rfl⟩
  obtain ⟨he, hnames⟩ := hleft
  have hrules := (hall _ _ _ he).1
  rw [ruleNames, hrules] at hnames
  exact absurd hnames (by decide)

end Grammar

end PegTree
