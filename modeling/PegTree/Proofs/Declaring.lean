import PegTree.Proofs.Abnf.Registration

/-!
# Declaring a grammar

A grammar is declared call by call. A call registers what it is to register up to the first rule whose name is
taken, behind what is there already. So each rule and each token that has been registered keeps its name.
-/

namespace PegTree

/-! ## Calls that declare -/

inductive Declaration where
  | options (o : Options)
  | configure (f : Options → Options)
  | startAt (name : String)
  | token (name : String) (alternatives : List Matcher)
  | tokenExpr (name : String) (e : Expr)
  | rule (name : String) (body : (token? : String → Option Expr) → Except Error Expr)
  | ruleWith (decl : RuleDecl)
  | abnf (t : Text)

namespace Declaration

def isAbnf : Declaration → Bool
  | .abnf _ => true
  | _ => false

def rules : Declaration → List RuleDecl
  | .rule name body => [⟨name, {}, body⟩]
  | .ruleWith decl => [decl]
  | .abnf t => (Abnf.compile t).toOption.elim [] fun d => d.rules.map Grammar.ruleOf
  | _ => []

def tokens : Declaration → List (String × Expr)
  | .token name ms => [(name, .literal false ms none)]
  | .tokenExpr name e => [(name, e)]
  | .abnf t => (Abnf.compile t).toOption.elim [] fun _ => Abnf.tokens
  | _ => []

def settings (x : Options × Option String) : Declaration → Options × Option String
  | .options o => (o, x.2)
  | .configure f => (f x.1, x.2)
  | .startAt name => (x.1, some name)
  | _ => x

end Declaration

namespace Grammar

/-- What is attempted in vain changes nothing. -/
def attempt (g : Grammar) : Except Error Grammar → Grammar × Except Abnf.Error Unit
  | .ok g' => (g', .ok ())
  | .error e => (g, .error (.ofGrammar e))

def declare (g : Grammar) : Declaration → Grammar × Except Abnf.Error Unit
  | .options o => (g.configure fun _ => o, .ok ())
  | .configure f => (g.configure f, .ok ())
  | .startAt name => (g.startAt name, .ok ())
  | .token name ms => g.attempt (g.addToken name (.literal false ms none))
  | .tokenExpr name e => g.attempt (g.addToken name e)
  | .rule name body => g.attempt (g.addRule ⟨name, {}, body⟩)
  | .ruleWith decl => g.attempt (g.addRule decl)
  | .abnf t => g.addAbnf t

def declaredFrom (g : Grammar) (calls : List Declaration) : Grammar := calls.foldl (fun g d => (g.declare d).1) g

def declared (calls : List Declaration) : Grammar := declaredFrom {} calls

/-- The rules that a call registers: those up to the first whose name is taken. -/
def newRules (g : Grammar) (d : Declaration) : List RuleDecl := d.rules.takeWhile (!g.hasRule ·.name)

def newTokens (g : Grammar) (d : Declaration) : List (String × Expr) := d.tokens.filter (!g.hasToken ·.1)

/-- What calls register one after the other. -/
def history {α : Type} (new : Grammar → Declaration → List α) : Grammar → List Declaration → List α
  | _, [] => []
  | g, d :: calls => new g d ++ history new (g.declare d).1 calls

end Grammar

/-! ## What a call registers -/

section
variable {g : Grammar} {d : Declaration} {name : String}

theorem Declaration.nodup_rules (d : Declaration) : (d.rules.map (·.name)).Nodup := by
  cases d with
  | abnf t =>
    simp only [Declaration.rules]
    cases hc : Abnf.compile t with
    | error e => simp [Except.toOption]
    | ok d =>
      have hnames : (d.rules.map Grammar.ruleOf).map (·.name) = d.names := by
        simp [Grammar.ruleOf, Abnf.Definitions.names, Function.comp_def]
      simpa [Except.toOption, hnames] using (Abnf.compile_names hc).1
  | _ => simp [Declaration.rules]

theorem Declaration.nodup_tokens (d : Declaration) : (d.tokens.map (·.1)).Nodup := by
  cases d with
  | abnf t =>
    simp only [Declaration.tokens]
    cases Abnf.compile t with
    | error e => simp [Except.toOption]
    | ok d => simpa [Except.toOption] using Abnf.nodup_tokens
  | _ => simp [Declaration.tokens]

namespace Grammar

theorem attempt_addToken (name : String) (e : Expr) : g.attempt (g.addToken name e) =
    if g.hasToken name then (g, .error (.ofGrammar (.duplicateToken name)))
    else ({ g with tokens := g.tokens ++ [(name, e)] }, .ok ()) := by
  unfold addToken
  by_cases h : g.hasToken name = true <;> simp [h, attempt]

theorem attempt_addRule (decl : RuleDecl) : g.attempt (g.addRule decl) =
    if g.hasRule decl.name then (g, .error (.ofGrammar (.duplicateRule decl.name)))
    else ({ g with rules := g.rules ++ [decl] }, .ok ()) := by
  unfold addRule
  by_cases h : g.hasRule decl.name = true <;> simp [h, attempt]

/-- What a call does to the rules and to the tokens, and that it has done all of it if it is not in error;
but a text leaves tokens alone that are there already. -/
theorem declare_new (g : Grammar) (d : Declaration) : (g.declare d).1.rules = g.rules ++ g.newRules d ∧
    (g.declare d).1.tokens = g.tokens ++ g.newTokens d ∧
    ((g.declare d).2 = .ok () → g.newRules d = d.rules ∧ (d.isAbnf = false → g.newTokens d = d.tokens)) := by
  unfold newRules newTokens
  cases d with
  | options o => simp [declare, configure, Declaration.rules, Declaration.tokens]
  | configure f => simp [declare, configure, Declaration.rules, Declaration.tokens]
  | startAt name => simp [declare, startAt, Declaration.rules, Declaration.tokens]
  | token name ms =>
    simp only [declare, attempt_addToken, Declaration.rules, Declaration.tokens]
    by_cases h : g.hasToken name = true <;> simp [h]
  | tokenExpr name e =>
    simp only [declare, attempt_addToken, Declaration.rules, Declaration.tokens]
    by_cases h : g.hasToken name = true <;> simp [h]
  | rule name body =>
    simp only [declare, attempt_addRule, Declaration.rules, Declaration.tokens]
    by_cases h : g.hasRule name = true <;> simp [h]
  | ruleWith decl =>
    simp only [declare, attempt_addRule, Declaration.rules, Declaration.tokens]
    by_cases h : g.hasRule decl.name = true <;> simp [h]
  | abnf t =>
    have hrule : ∀ ds : List (String × Expr), (ds.map ruleOf).takeWhile (!g.hasRule ·.name) =
        (ds.takeWhile (!g.hasRule ·.1)).map ruleOf := by
      intro ds
      rw [List.takeWhile_map]
      rfl
    simp only [declare, Declaration.rules, Declaration.tokens, Declaration.isAbnf]
    rcases addAbnf_cases g t with ⟨e, hc, heq⟩ | ⟨d, hc, hall, heq⟩ |
      ⟨d, before, clash, after, hc, hsplit, hall, hclash, heq⟩
    · simp [heq, hc, Except.toOption]
    · have hwhole : d.rules.takeWhile (!g.hasRule ·.1) = d.rules := by
        rw [List.takeWhile_eq_self_iff]
        simpa using hall
      simp [heq, hc, Except.toOption, hrule, hwhole, withRules, equip]
    · have hpart : d.rules.takeWhile (!g.hasRule ·.1) = before := by
        rw [hsplit, List.takeWhile_append_of_pos (by simpa using hall)]
        simp [hclash]
      simp [heq, hc, Except.toOption, hrule, hpart, withRules, equip]

theorem declare_settings (g : Grammar) (d : Declaration) :
    ((g.declare d).1.options, (g.declare d).1.start) = d.settings (g.options, g.start) := by
  have htoken : ∀ name e, ((g.attempt (g.addToken name e)).1.options, (g.attempt (g.addToken name e)).1.start) =
      (g.options, g.start) := by
    intro name e
    rw [attempt_addToken]
    by_cases h : g.hasToken name = true <;> simp [h]
  have hrule : ∀ decl, ((g.attempt (g.addRule decl)).1.options, (g.attempt (g.addRule decl)).1.start) =
      (g.options, g.start) := by
    intro decl
    rw [attempt_addRule]
    by_cases h : g.hasRule decl.name = true <;> simp [h]
  cases d with
  | options o => rfl
  | configure f => rfl
  | startAt name => rfl
  | token name ms => exact htoken name _
  | tokenExpr name e => exact htoken name e
  | rule name body => exact hrule _
  | ruleWith decl => exact hrule decl
  | abnf t =>
    simp only [declare, Declaration.settings]
    rcases addAbnf_cases g t with ⟨_, _, heq⟩ | ⟨_, _, _, heq⟩ | ⟨_, _, _, _, _, _, _, _, heq⟩
    · rw [heq]
    · simp [heq, withRules, equip]
    · simp [heq, withRules, equip]

theorem newRules_prefix (g : Grammar) (d : Declaration) : g.newRules d <+: d.rules := List.takeWhile_prefix _

theorem rules_of_text {t : Text} {ds : Abnf.Definitions} (h : Abnf.compile t = .ok ds) :
    ∃ tree, Abnf.parseTree (Abnf.normalize t) = .ok tree ∧
      (tree.childrenNamed "rule").Pairwise (·.offset < ·.offset) ∧
      (Declaration.abnf t).rules.map (·.name) = (tree.childrenNamed "rule").filterMap Abnf.defined? := by
  obtain ⟨_, tree, htree, hplaces, hnames⟩ := Abnf.compile_names h
  refine ⟨tree, htree, hplaces, ?_⟩
  rw [← hnames]
  simp [Declaration.rules, h, Except.toOption, ruleOf, Abnf.Definitions.names]

/-! ## Names -/

structure Keyed (g : Grammar) : Prop where
  rules : g.ruleNames.Nodup
  tokens : (g.tokens.map (·.1)).Nodup

theorem Keyed.declare (h : g.Keyed) (d : Declaration) : (g.declare d).1.Keyed where
  rules := by
    rw [ruleNames, (g.declare_new d).1, List.map_append]
    refine List.nodup_append.2 ⟨h.rules, ?_, fun m hm m' hm' he => ?_⟩
    · exact d.nodup_rules.sublist ((List.takeWhile_sublist _).map _)
    · obtain ⟨decl, hdecl, rfl⟩ := List.mem_map.1 hm'
      have hfree := List.mem_takeWhile_imp hdecl
      rw [he] at hm
      simp [hasRule_iff.2 hm] at hfree
  tokens := by
    rw [(g.declare_new d).2.1, List.map_append]
    refine List.nodup_append.2 ⟨h.tokens, ?_, fun m hm m' hm' he => ?_⟩
    · exact d.nodup_tokens.sublist (List.filter_sublist.map _)
    · obtain ⟨token, htoken, rfl⟩ := List.mem_map.1 hm'
      have hfree := (List.mem_filter.1 htoken).2
      rw [he] at hm
      simp [hasToken_iff.2 hm] at hfree

theorem Keyed.rule?_eq_some (h : g.Keyed) {decl : RuleDecl} :
    g.rule? name = some decl ↔ decl ∈ g.rules ∧ decl.name = name := by
  constructor
  · intro hr
    exact ⟨List.mem_of_find?_eq_some hr, by simpa using List.find?_some hr⟩
  · intro ⟨hd, hn⟩
    have hsome : g.hasRule name = true := hasRule_iff.2 (hn ▸ List.mem_map_of_mem hd)
    obtain ⟨decl', hdecl'⟩ := Option.isSome_iff_exists.1 hsome
    have hn' : decl'.name = name := by simpa using List.find?_some hdecl'
    rw [hdecl', List.inj_on_of_nodup_map h.rules (List.mem_of_find?_eq_some hdecl') hd (hn'.trans hn.symm)]

theorem Keyed.token?_eq_some (h : g.Keyed) {e : Expr} : g.token? name = some e ↔ (name, e) ∈ g.tokens := by
  have hmem : ∀ {e : Expr}, g.token? name = some e → (name, e) ∈ g.tokens := by
    intro e he
    obtain ⟨l, l', hl, _⟩ := List.lookup_eq_some_iff.1 he
    simp [hl]
  constructor
  · exact hmem
  · intro ht
    have hsome : g.hasToken name = true := hasToken_iff.2 (List.mem_map_of_mem ht)
    obtain ⟨e', he'⟩ := Option.isSome_iff_exists.1 hsome
    have hsame : (name, e') = (name, e) := List.inj_on_of_nodup_map h.tokens (hmem he') ht rfl
    rw [he', (Prod.mk.inj hsame).2]

/-! ## Runs of calls -/

theorem declaredFrom_cons (g : Grammar) (d : Declaration) (calls : List Declaration) :
    g.declaredFrom (d :: calls) = (g.declare d).1.declaredFrom calls := rfl

theorem declaredFrom_rules (g : Grammar) (calls : List Declaration) :
    (g.declaredFrom calls).rules = g.rules ++ history newRules g calls := by
  induction calls generalizing g with
  | nil => simp [declaredFrom, history]
  | cons d calls ih =>
    rw [declaredFrom_cons, ih, (g.declare_new d).1, history, List.append_assoc]

theorem declaredFrom_tokens (g : Grammar) (calls : List Declaration) :
    (g.declaredFrom calls).tokens = g.tokens ++ history newTokens g calls := by
  induction calls generalizing g with
  | nil => simp [declaredFrom, history]
  | cons d calls ih =>
    rw [declaredFrom_cons, ih, (g.declare_new d).2.1, history, List.append_assoc]

theorem declared_append (before after : List Declaration) :
    declared (before ++ after) = (declared before).declaredFrom after := by
  simp [declared, declaredFrom]

theorem Keyed.declaredFrom (h : g.Keyed) (calls : List Declaration) : (g.declaredFrom calls).Keyed := by
  induction calls generalizing g with
  | nil => exact h
  | cons d calls ih => exact ih (h.declare d)

theorem keyed_declared (calls : List Declaration) : (declared calls).Keyed := by
  have hstart : Keyed {} := ⟨.nil, .nil⟩
  exact hstart.declaredFrom calls

theorem declared_found (before after : List Declaration) (d : Declaration) :
    (∀ decl ∈ (declared before).newRules d, (declared (before ++ d :: after)).rule? decl.name = some decl) ∧
    ∀ token ∈ (declared before).newTokens d, (declared (before ++ d :: after)).token? token.1 = some token.2 := by
  have hkeyed := keyed_declared (before ++ d :: after)
  constructor
  · intro decl hd
    refine hkeyed.rule?_eq_some.2 ⟨?_, rfl⟩
    rw [declared_append, declaredFrom_rules, history]
    simp [hd]
  · intro token ht
    apply hkeyed.token?_eq_some.2
    rw [declared_append, declaredFrom_tokens, history]
    simp [ht]

end Grammar

end

end PegTree
