import PegTree.Proofs.Declaring
import PegTree.Proofs.Termination

/-!
# The registry of a grammar

A registry keeps rules in an array with an index of their names, and tokens in a table. Sessions parse with the
lists of a `Grammar`, and a registry is not run: it is the layer of the array and the index beside those lists. It
stays in step with them whatever is called (`Registry.Mirrors`), gives the same answers to the same calls, and a
lookup of a rule does not leave the array.
-/

namespace PegTree

/-! ## The registry -/

structure Registry where
  options : Options := {}
  rules : Array RuleDecl := #[]
  index : Std.HashMap String Nat := ∅
  tokens : Std.HashMap String Expr := ∅
  start : Option String := none

namespace Registry

def rule? (r : Registry) (name : String) : Option RuleDecl := r.index[name]?.bind (r.rules[·]?)

def addToken (r : Registry) (name : String) (e : Expr) : Registry × Except Abnf.Error Unit :=
  if r.tokens.contains name then (r, .error (.ofGrammar (.duplicateToken name)))
  else ({ r with tokens := r.tokens.insert name e }, .ok ())

def addRule (r : Registry) (decl : RuleDecl) : Registry × Except Abnf.Error Unit :=
  if r.index.contains decl.name then (r, .error (.ofGrammar (.duplicateRule decl.name)))
  else ({ r with index := r.index.insert decl.name r.rules.size, rules := r.rules.push decl }, .ok ())

def andThen (x : Registry × Except Abnf.Error Unit) (next : Registry → Registry × Except Abnf.Error Unit) :
    Registry × Except Abnf.Error Unit :=
  match x.2 with
  | .ok () => next x.1
  | .error e => (x.1, .error e)

def addCoreTokens (r : Registry) : List (String × Expr) → Registry × Except Abnf.Error Unit
  | [] => (r, .ok ())
  | (name, e) :: rest =>
    if r.tokens.contains name then r.addCoreTokens rest
    else andThen (r.addToken name e) (·.addCoreTokens rest)

def addDefinitions (r : Registry) : List (String × Expr) → Registry × Except Abnf.Error Unit
  | [] => (r, .ok ())
  | d :: rest => andThen (r.addRule (Grammar.ruleOf d)) (·.addDefinitions rest)

def addAbnf (r : Registry) (t : Text) : Registry × Except Abnf.Error Unit :=
  match Abnf.compile t, Abnf.coreTokens with
  | .ok d, .ok tokens => andThen (r.addCoreTokens tokens) (·.addDefinitions d.rules)
  | .error e, _ => (r, .error e)
  | .ok _, .error e => (r, .error (.ofGrammar e))

def declare (r : Registry) : Declaration → Registry × Except Abnf.Error Unit
  | .options o => ({ r with options := o }, .ok ())
  | .configure f => ({ r with options := f r.options }, .ok ())
  | .startAt name => ({ r with start := some name }, .ok ())
  | .token name ms => r.addToken name (.literal false ms none)
  | .tokenExpr name e => r.addToken name e
  | .rule name body => r.addRule ⟨name, {}, body⟩
  | .ruleWith decl => r.addRule decl
  | .abnf t => r.addAbnf t

def declared (calls : List Declaration) : Registry := calls.foldl (fun r d => (r.declare d).1) {}

def build (r : Registry) : Except Error Registry :=
  match r.start with
  | some name => if r.index.contains name then .ok r else .error (.unknownRule name)
  | none => .ok r

end Registry

/-! ## In step -/

theorem getElem?_concat_iff {α : Type} {l : List α} {a b : α} {i : Nat} :
    (l ++ [a])[i]? = some b ↔ l[i]? = some b ∨ i = l.length ∧ a = b := by
  rw [List.getElem?_append]
  by_cases hi : i < l.length
  · have hne : i ≠ l.length := Nat.ne_of_lt hi
    simp [hi, hne]
  · have hnone : l[i]? = none := List.getElem?_eq_none (Nat.le_of_not_lt hi)
    rw [if_neg hi, hnone, List.getElem?_singleton]
    by_cases he : i = l.length
    · simp [he]
    · have hne : i - l.length ≠ 0 := by omega
      simp [he, hne]

def Indexes (index : Std.HashMap String Nat) (names : List String) : Prop :=
  ∀ (name : String) (i : Nat), index[name]? = some i ↔ names[i]? = some name

section
variable {index : Std.HashMap String Nat} {names : List String} {name : String} (h : Indexes index names)
include h

theorem Indexes.contains : index.contains name = true ↔ name ∈ names := by
  rw [Std.HashMap.contains_eq_isSome_getElem?, Option.isSome_iff_exists, List.mem_iff_getElem?]
  simp only [h name]

theorem Indexes.push (hnew : name ∉ names) : Indexes (index.insert name names.length) (names ++ [name]) := by
  intro m i
  rw [Std.HashMap.getElem?_insert, getElem?_concat_iff]
  by_cases hm : name = m
  · have hout : names[i]? ≠ some m := fun hi => hnew (hm ▸ List.mem_of_getElem? hi)
    simp [hm, hout, eq_comm]
  · simp [hm, h m i]

end

/-- A registry and a grammar that hold the same; the index leads to the rule of each name. -/
structure Registry.Mirrors (r : Registry) (g : Grammar) : Prop where
  options : r.options = g.options
  start : r.start = g.start
  rules : r.rules.toList = g.rules
  tokens : ∀ name : String, r.tokens[name]? = g.token? name
  index : ∀ (name : String) (i : Nat), r.index[name]? = some i ↔ g.ruleNames[i]? = some name

def Registry.InStep (x : Registry × Except Abnf.Error Unit) (y : Grammar × Except Abnf.Error Unit) : Prop :=
  x.2 = y.2 ∧ x.1.Mirrors y.1

namespace Registry.Mirrors

variable {r : Registry} {g : Grammar} (h : r.Mirrors g)
include h

theorem contains_index (name : String) : r.index.contains name = g.hasRule name := by
  rw [Bool.eq_iff_iff, Grammar.hasRule_iff]
  exact Indexes.contains h.index

theorem contains_token (name : String) : r.tokens.contains name = g.hasToken name := by
  rw [Std.HashMap.contains_eq_isSome_getElem?, h.tokens]
  rfl

theorem size_rules : r.rules.size = g.ruleNames.length := by
  rw [Grammar.ruleNames, List.length_map, ← h.rules, Array.length_toList]

theorem in_range {name : String} {i : Nat} (hi : r.index[name]? = some i) : i < r.rules.size := by
  rw [h.size_rules]
  exact (List.getElem?_eq_some_iff.1 ((h.index name i).1 hi)).1

theorem addToken (name : String) (e : Expr) : InStep (r.addToken name e) (g.attempt (g.addToken name e)) := by
  rw [Grammar.attempt_addToken]
  unfold Registry.addToken
  rw [h.contains_token]
  by_cases ht : g.hasToken name = true
  · simp only [ht, if_true]
    exact ⟨rfl, h⟩
  · simp only [ht]
    refine ⟨rfl, ?_⟩
    have hnone : g.tokens.lookup name = none := Option.not_isSome_iff_eq_none.1 ht
    refine { h with tokens := fun name' => ?_ }
    have hold := h.tokens name'
    unfold Grammar.token? at hold ⊢
    simp only [Bool.false_eq_true, if_false]
    rw [Std.HashMap.getElem?_insert, List.lookup_append, hold]
    by_cases hn : name = name'
    · subst hn
      simp [hnone]
    · have hne : (name' == name) = false := by simp [Ne.symm hn]
      simp [hn, hne, List.lookup_cons]

theorem addRule (decl : RuleDecl) : InStep (r.addRule decl) (g.attempt (g.addRule decl)) := by
  rw [Grammar.attempt_addRule]
  unfold Registry.addRule
  rw [h.contains_index]
  by_cases hd : g.hasRule decl.name = true
  · simp only [hd, if_true]
    exact ⟨rfl, h⟩
  · simp only [hd]
    refine ⟨rfl, ?_⟩
    have hnew : decl.name ∉ g.ruleNames := fun hm => hd (Grammar.hasRule_iff.2 hm)
    have hnames : Grammar.ruleNames { g with rules := g.rules ++ [decl] } = g.ruleNames ++ [decl.name] := by
      simp [Grammar.ruleNames]
    refine { h with rules := ?_, index := ?_ }
    · simp [h.rules]
    · simp only [Bool.false_eq_true, if_false]
      rw [hnames, h.size_rules]
      exact Indexes.push h.index hnew

omit h in
theorem andThen {x : Registry × Except Abnf.Error Unit} {g : Grammar} {y : Grammar × Except Abnf.Error Unit}
    {next : Registry → Registry × Except Abnf.Error Unit} (hx : InStep x (g, .ok ()))
    (hnext : x.1.Mirrors g → InStep (next x.1) y) : InStep (andThen x next) y := by
  unfold Registry.andThen
  rw [hx.1]
  exact hnext hx.2

theorem addCoreTokens (ts : List (String × Expr)) : InStep (r.addCoreTokens ts) (g.addCoreTokens ts, .ok ()) := by
  induction ts generalizing r g with
  | nil => exact ⟨rfl, h⟩
  | cons token ts ih =>
    unfold Registry.addCoreTokens
    rw [h.contains_token]
    have hadd := h.addToken token.1 token.2
    rw [Grammar.attempt_addToken] at hadd
    by_cases ht : g.hasToken token.1 = true
    · rw [if_pos ht, Grammar.addCoreTokens_known ht]
      exact ih h
    · rw [if_neg ht] at hadd ⊢
      rw [Grammar.addCoreTokens_missing (by simpa using ht)]
      exact andThen hadd fun hr => ih hr

theorem addDefinitions (ds : List (String × Expr)) : InStep (r.addDefinitions ds) (g.addDefinitions ds) := by
  induction ds generalizing r g with
  | nil => exact ⟨rfl, h⟩
  | cons d ds ih =>
    unfold Registry.addDefinitions
    have hadd := h.addRule (Grammar.ruleOf d)
    rw [Grammar.attempt_addRule] at hadd
    by_cases hd : g.hasRule (Grammar.ruleOf d).name = true
    · rw [if_pos hd] at hadd
      rw [Grammar.addDefinitions_taken hd]
      unfold Registry.andThen
      rw [hadd.1]
      exact ⟨rfl, hadd.2⟩
    · rw [if_neg hd] at hadd
      rw [Grammar.addDefinitions_free (Bool.eq_false_iff.2 hd)]
      exact andThen hadd fun hr => ih hr

theorem addAbnf (t : Text) : InStep (r.addAbnf t) (g.addAbnf t) := by
  unfold Registry.addAbnf Grammar.addAbnf
  rw [Abnf.coreTokens_eq]
  cases Abnf.compile t with
  | error e => exact ⟨rfl, h⟩
  | ok d => exact andThen (h.addCoreTokens _) fun hr => hr.addDefinitions _

theorem declare (d : Declaration) : InStep (r.declare d) (g.declare d) := by
  cases d with
  | options o => exact ⟨rfl, { h with options := rfl }⟩
  | configure f => exact ⟨rfl, { h with options := congrArg f h.options }⟩
  | startAt name => exact ⟨rfl, { h with start := rfl }⟩
  | token name ms => exact h.addToken name _
  | tokenExpr name e => exact h.addToken name e
  | rule name body => exact h.addRule _
  | ruleWith decl => exact h.addRule decl
  | abnf t => exact h.addAbnf t

theorem rule? (hg : g.Keyed) (name : String) : r.rule? name = g.rule? name := by
  unfold Registry.rule?
  cases hi : r.index[name]? with
  | none =>
    have hnot : g.hasRule name = false := by
      rw [← h.contains_index, Std.HashMap.contains_eq_isSome_getElem?, hi]
      rfl
    exact (Option.not_isSome_iff_eq_none.1 (Bool.eq_false_iff.1 hnot)).symm
  | some i =>
    have hname : g.ruleNames[i]? = some name := (h.index name i).1 hi
    obtain ⟨decl, hdecl, rfl⟩ : ∃ decl, g.rules[i]? = some decl ∧ decl.name = name := by
      simpa [Grammar.ruleNames] using hname
    have hat : r.rules[i]? = some decl := by
      rw [← Array.getElem?_toList, h.rules]
      exact hdecl
    rw [hg.rule?_eq_some.2 ⟨List.mem_of_getElem? hdecl, rfl⟩]
    exact hat

theorem build : (∃ e, r.build = .error e ∧ g.checked = .error e) ∨ r.build = .ok r ∧ g.checked = .ok g := by
  unfold Registry.build Grammar.checked
  rw [h.start]
  cases g.start with
  | none => exact .inr ⟨rfl, rfl⟩
  | some name =>
    simp only [h.contains_index]
    by_cases hn : g.hasRule name = true
    · exact .inr ⟨by rw [if_pos hn], by rw [if_pos hn]⟩
    · exact .inl ⟨_, by rw [if_neg hn], by rw [if_neg hn]⟩

end Registry.Mirrors

theorem Grammar.hasRule_of_checked {g g' : Grammar} {name : String} (hs : g.start = some name)
    (h : g.checked = .ok g') : g.hasRule name = true := by
  unfold checked at h
  by_contra hn
  simp only [hs, if_neg hn] at h
  cases h

theorem Registry.mirrors_declared (calls : List Declaration) :
    (Registry.declared calls).Mirrors (Grammar.declared calls) := by
  have hstart : Registry.Mirrors {} {} := by
    constructor <;> simp [Grammar.token?, Grammar.ruleNames]
  unfold Registry.declared Grammar.declared Grammar.declaredFrom
  generalize ({} : Registry) = r at hstart ⊢
  generalize ({} : Grammar) = g at hstart ⊢
  induction calls generalizing r g with
  | nil => exact hstart
  | cons d calls ih => exact ih _ _ (hstart.declare d).2

/-! ## Parses -/

/-- A body that fails to be built, or else neither a missing start rule nor a rule that is not found. -/
def Grammar.Met (g : Grammar) (f : Fault) : Prop :=
  g.Unbuilt f ∨ f ≠ .error .noStartRule ∧ ∀ name, f = .error (.unknownRule name) → g.rule? name = none

theorem Grammar.evaluate_met (g : Grammar) (asked : List Call) {name : String} {t : Text} {f : Fault}
    (h : (g.evaluate name t (g.after asked)).1 = .error f) : g.Met f := by
  have hhost : (Session.host g).Sound g (.ofText t) (Session.Sound g) g.Met (fun _ _ _ _ => True) := by
    apply Session.host_sound_of
    · intro name hr
      refine .inr ⟨by simp, fun name' he => ?_⟩
      cases he
      exact hr
    · intro decl hd e he
      exact .inl ⟨decl, hd, e, he, rfl⟩
    all_goals simp [Grammar.Met]
  exact ((hhost.evaluateWith (fun _ => trivial) name).error (g.after_sound asked) h).2

/-! ## The invariant -/

structure Registry.Kept (calls : List Declaration) (r : Registry) : Prop where
  distinct : (r.rules.toList.map (·.name)).Nodup
  index : ∀ (name : String) (i : Nat), r.index[name]? = some i ↔ r.rules[i]?.map (·.name) = some name
  -- no lookup of a rule leaves the array
  within : ∀ (name : String) (i : Nat), r.index[name]? = some i → i < r.rules.size
  -- the rules stand in the order in which they have been registered
  order : r.rules.toList = Grammar.history Grammar.newRules {} calls
  -- what a call has registered is found whatever has been called after it
  found : ∀ before d after, calls = before ++ d :: after →
    (∀ decl ∈ (Grammar.declared before).newRules d, r.rule? decl.name = some decl) ∧
      ∀ token ∈ (Grammar.declared before).newTokens d, r.tokens[token.1]? = some token.2
  -- a call registers some of what it is to register, from the first on, and all of it if it is not in error
  registers : ∀ d, (Grammar.declared calls).newRules d <+: d.rules ∧ ((r.declare d).2 = .ok () →
    (Grammar.declared calls).newRules d = d.rules ∧
      (d.isAbnf = false → (Grammar.declared calls).newTokens d = d.tokens))
  failed : ∀ d e, d.isAbnf = false → (r.declare d).2 = .error e → (r.declare d).1 = r
  -- the rules of a text are those that it defines by `=`, in the order of their places
  placed : ∀ t ds, Abnf.compile t = .ok ds → ∃ tree, Abnf.parseTree (Abnf.normalize t) = .ok tree ∧
    (tree.childrenNamed "rule").Pairwise (·.offset < ·.offset) ∧
    (Declaration.abnf t).rules.map (·.name) = (tree.childrenNamed "rule").filterMap Abnf.defined?
  -- the grammar that sessions parse with holds the same and gives the same answers
  mirrors : r.Mirrors (Grammar.declared calls)
  answers : ∀ d, (r.declare d).2 = ((Grammar.declared calls).declare d).2
  -- a finished registry has its start rule, so no parse misses it unless a body is built to say so
  started : ∀ name, r.start = some name → ∀ r', r.build = .ok r' → r' = r ∧ (∃ decl, r.rule? name = some decl) ∧
    ∀ asked t f, ((Grammar.declared calls).parse t ((Grammar.declared calls).after asked)).1 = .error f →
      (Grammar.declared calls).Unbuilt f ∨ f ≠ .error .noStartRule ∧ f ≠ .error (.unknownRule name)

theorem Registry.declare_failed {r : Registry} {d : Declaration} {e : Abnf.Error} (hd : d.isAbnf = false)
    (h : (r.declare d).2 = .error e) : (r.declare d).1 = r := by
  have htoken : ∀ name e', (r.addToken name e').2 = .error e → (r.addToken name e').1 = r := by
    intro name e' h
    unfold Registry.addToken at h ⊢
    by_cases ht : r.tokens.contains name = true <;> simp_all
  have hrule : ∀ decl, (r.addRule decl).2 = .error e → (r.addRule decl).1 = r := by
    intro decl h
    unfold Registry.addRule at h ⊢
    by_cases hr : r.index.contains decl.name = true <;> simp_all
  cases d with
  | abnf t => cases hd
  | token name ms => exact htoken name _ h
  | tokenExpr name e' => exact htoken name e' h
  | rule name body => exact hrule _ h
  | ruleWith decl => exact hrule decl h
  | _ => cases h

theorem Grammar.parse_met {g : Grammar} {name : String} (hs : g.start = some name) (asked : List Call) {t : Text}
    {f : Fault} (h : (g.parse t (g.after asked)).1 = .error f) : g.Met f := by
  unfold parse at h
  rw [hs] at h
  simp only [parseRule_fst] at h
  cases he : (g.evaluate name t (g.after asked)).1 with
  | error f' =>
    rw [he] at h
    cases h
    exact g.evaluate_met asked he
  | ok n =>
    rw [he] at h
    by_cases hn : n.isFailed = true
    · simp only [Except.bind, hn, if_true] at h
      cases h
      simp [Met]
    · simp only [Except.bind, hn] at h
      cases h

/-- Whatever is called in whatever order, be it in error or not, a registry keeps its rules and its tokens. -/
theorem registry_kept (calls : List Declaration) : (Registry.declared calls).Kept calls := by
  have hm := Registry.mirrors_declared calls
  have hk := Grammar.keyed_declared calls
  have hnames : (Registry.declared calls).rules.toList.map (·.name) = (Grammar.declared calls).ruleNames := by
    rw [hm.rules]
    rfl
  refine {
    mirrors := hm, distinct := ?distinct, index := ?index, within := ?within, order := ?order, found := ?found,
    registers := ?registers, failed := ?failed, placed := ?placed, answers := ?answers, started := ?started }
  case distinct =>
    rw [hnames]
    exact hk.rules
  case index =>
    intro name i
    rw [hm.index, ← hnames]
    simp
  case within =>
    intro name i
    exact hm.in_range
  case order =>
    rw [hm.rules]
    exact (Grammar.declaredFrom_rules {} calls).trans (List.nil_append _)
  case found =>
    intro before d after hsplit
    subst hsplit
    obtain ⟨hrules, htokens⟩ := Grammar.declared_found before after d
    constructor
    · intro decl hd
      rw [hm.rule? hk]
      exact hrules decl hd
    · intro token ht
      rw [hm.tokens]
      exact htokens token ht
  case registers =>
    intro d
    refine ⟨Grammar.newRules_prefix _ d, fun hok => ?_⟩
    rw [(hm.declare d).1] at hok
    exact ((Grammar.declared calls).declare_new d).2.2 hok
  case failed =>
    intro d e
    exact Registry.declare_failed
  case placed =>
    intro t ds
    exact Grammar.rules_of_text
  case answers =>
    intro d
    exact (hm.declare d).1
  case started =>
    intro name hs r' hb
    rcases hm.build with ⟨e, hfail, _⟩ | ⟨hsame, hchecked⟩
    · rw [hfail] at hb
      cases hb
    · rw [hm.start] at hs
      obtain ⟨decl, hdecl⟩ := Option.isSome_iff_exists.1 (Grammar.hasRule_of_checked hs hchecked)
      refine ⟨?_, ⟨decl, ?_⟩, fun asked t f hf => ?_⟩
      · rw [hsame] at hb
        exact (Except.ok.inj hb).symm
      · rw [hm.rule? hk]
        exact hdecl
      · refine (Grammar.parse_met hs asked hf).imp id fun ⟨hno, hknown⟩ => ⟨hno, fun he => ?_⟩
        rw [hknown name he] at hdecl
        cases hdecl

end PegTree
