import PegTree.Proofs.Declaring
import PegTree.Proofs.Placeholders

/-!
# Resolution

Resolving binds every name on a right-hand side to a token or to a rule and leaves the rest as it is. So the rules
of an ABNF text are built without placeholders, and no parse with them finds a reference unresolved.
-/

namespace PegTree.Abnf

variable {token? : String → Option Expr}

def FreeTokens (token? : String → Option Expr) : Prop := ∀ name e, token? name = some e → e.placeholders = []

/-! ## Right-hand sides -/

/-- What a right-hand side resolves to. -/
structure Resolves (token? : String → Option Expr) (rhs e : Expr) : Prop where
  free : e.placeholders = []
  again : resolve token? e = e
  -- what is no placeholder stays where it is, with as many items
  kept : ∀ path x, rhs.at? path = some x → (∀ a name, x ≠ .placeholder a name) → ∃ y, e.at? path = some y ∧
    y.head = x.head ∧ y.asserted = x.asserted ∧ y.items.length = x.items.length
  -- a constant name becomes its token, asserted if the placeholder or the token was
  constant : ∀ path a name token, rhs.at? path = some (.placeholder a name) → isConstantName name = true →
    token? name = some token → e.at? path = some (token.setAsserted (token.asserted || a))
  -- any other name becomes a reference to a rule
  referred : ∀ path a name, rhs.at? path = some (.placeholder a name) →
    isConstantName name = false ∨ token? name = none → e.at? path = some (.rule a name)

theorem binding_cases (token? : String → Option Expr) (name : String) :
    (∃ token, isConstantName name = true ∧ token? name = some token ∧ binding token? name = token) ∨
      (isConstantName name = false ∨ token? name = none) ∧ binding token? name = .ref name := by
  unfold binding
  cases ht : token? name with
  | none => exact .inr ⟨.inr rfl, rfl⟩
  | some token =>
    by_cases hc : isConstantName name = true
    · exact .inl ⟨token, hc, rfl, if_pos hc⟩
    · exact .inr ⟨.inl (Bool.eq_false_iff.2 hc), if_neg hc⟩

theorem FreeTokens.binding (ht : FreeTokens token?) (name : String) : (binding token? name).placeholders = [] := by
  rcases binding_cases token? name with ⟨token, _, htoken, hb⟩ | ⟨_, hb⟩
  · rw [hb]
    exact ht name token htoken
  · rw [hb]
    rfl

theorem FreeTokens.resolve (ht : FreeTokens token?) (rhs : Expr) : (resolve token? rhs).placeholders = [] :=
  Expr.placeholders_mapPlaceholders ht.binding rhs

theorem FreeTokens.resolves (ht : FreeTokens token?) (rhs : Expr) :
    Resolves token? rhs (Abnf.resolve token? rhs) where
  free := ht.resolve rhs
  again := Expr.mapPlaceholders_of_free (ht.resolve rhs)
  kept path x hx hno := by
    obtain ⟨hhead, hasserted⟩ := Expr.head_mapPlaceholders (f := Abnf.binding token?) hno
    refine ⟨_, Expr.at?_mapPlaceholders hx, hhead, hasserted, ?_⟩
    rw [Expr.items_mapPlaceholders hno, List.length_map]
  constant path a name token hx hc htoken := by
    have h := Expr.at?_mapPlaceholders (f := Abnf.binding token?) hx
    rcases binding_cases token? name with ⟨token', _, htoken', hb⟩ | ⟨hno, _⟩
    · rw [Expr.mapPlaceholders, hb, Option.some.inj (htoken'.symm.trans htoken)] at h
      exact h
    · simp [hc, htoken] at hno
  referred path a name hx hno := by
    have h := Expr.at?_mapPlaceholders (f := Abnf.binding token?) hx
    rcases binding_cases token? name with ⟨token, hc, htoken, _⟩ | ⟨_, hb⟩
    · simp [hc, htoken] at hno
    · rw [Expr.mapPlaceholders, hb] at h
      exact h

end PegTree.Abnf

namespace PegTree

open Abnf

/-! ## Grammars -/

def RuleDecl.Plain (decl : RuleDecl) : Prop :=
  ∀ token?, FreeTokens token? → ∀ e, decl.body token? = .ok e → e.placeholders = []

def Declaration.Plain (d : Declaration) : Prop :=
  (∀ token ∈ d.tokens, token.2.placeholders = []) ∧ ∀ decl ∈ d.rules, decl.Plain

theorem Abnf.free_tokens : ∀ token ∈ tokens, token.2.placeholders = [] := by decide +kernel

theorem Grammar.plain_ruleOf (d : String × Expr) : (Grammar.ruleOf d).Plain := by
  intro token? ht e he
  cases he
  exact ht.resolve d.2

theorem Declaration.plain_abnf (t : Text) : (Declaration.abnf t).Plain := by
  cases hc : Abnf.compile t with
  | error e =>
    have hnone : (Declaration.abnf t).tokens = [] ∧ (Declaration.abnf t).rules = [] := by
      simp only [Declaration.tokens, Declaration.rules, hc, Except.toOption, Option.elim_none, and_self]
    unfold Plain
    rw [hnone.1, hnone.2]
    exact ⟨List.forall_mem_nil _, List.forall_mem_nil _⟩
  | ok d =>
    have hall : (Declaration.abnf t).tokens = Abnf.tokens ∧
        (Declaration.abnf t).rules = d.rules.map Grammar.ruleOf := by
      simp only [Declaration.tokens, Declaration.rules, hc, Except.toOption, Option.elim_some, and_self]
    unfold Plain
    rw [hall.1, hall.2]
    refine ⟨Abnf.free_tokens, fun decl hd => ?_⟩
    obtain ⟨r, _, rfl⟩ := List.mem_map.1 hd
    exact Grammar.plain_ruleOf r

theorem Declaration.plain_token (name : String) (ms : List Matcher) : (Declaration.token name ms).Plain :=
  ⟨List.forall_mem_singleton.2 rfl, List.forall_mem_nil _⟩

namespace Grammar

structure Plain (g : Grammar) : Prop where
  tokens : ∀ token ∈ g.tokens, token.2.placeholders = []
  rules : ∀ decl ∈ g.rules, decl.Plain

variable {g : Grammar}

theorem Plain.freeTokens (hg : g.Plain) : FreeTokens g.token? := by
  intro name e he
  obtain ⟨l, l', hl, _⟩ := List.lookup_eq_some_iff.1 he
  exact hg.tokens (name, e) (by simp [hl])

theorem Plain.free (hg : g.Plain) : g.Free := by
  intro name rule ⟨decl, hr, hb⟩
  unfold build at hb
  cases hbody : decl.body g.token? with
  | error e =>
    rw [hbody] at hb
    cases hb
  | ok e =>
    rw [hbody] at hb
    cases hb
    exact hg.rules decl (List.mem_of_find?_eq_some hr) _ hg.freeTokens e hbody

theorem Plain.declare (hg : g.Plain) {d : Declaration} (hd : d.Plain) : (g.declare d).1.Plain where
  tokens token ht := by
    rw [(g.declare_new d).2.1] at ht
    exact (List.mem_append.1 ht).elim (hg.tokens token) fun h => hd.1 token (List.mem_filter.1 h).1
  rules decl hdecl := by
    rw [(g.declare_new d).1] at hdecl
    exact (List.mem_append.1 hdecl).elim (hg.rules decl) fun h => hd.2 decl ((g.newRules_prefix d).subset h)

theorem plain_declared {calls : List Declaration} (hcalls : ∀ d ∈ calls, d.Plain) : (declared calls).Plain := by
  have hstart : Plain {} := ⟨List.forall_mem_nil _, List.forall_mem_nil _⟩
  unfold declared
  generalize ({} : Grammar) = g at hstart ⊢
  induction calls generalizing g with
  | nil => exact hstart
  | cons d calls ih =>
    obtain ⟨hd, hcalls⟩ := List.forall_mem_cons.1 hcalls
    exact ih hcalls _ (hstart.declare hd)

theorem mem_history_rules {calls : List Declaration} {decl : RuleDecl} (h : decl ∈ history newRules g calls) :
    ∃ d ∈ calls, decl ∈ d.rules := by
  induction calls generalizing g with
  | nil => cases h
  | cons d calls ih =>
    rcases List.mem_append.1 h with hd | hrest
    · exact ⟨d, List.mem_cons_self, (g.newRules_prefix d).subset hd⟩
    · obtain ⟨d', hd', hdecl⟩ := ih hrest
      exact ⟨d', List.mem_cons_of_mem _ hd', hdecl⟩

/-- A body that fails to be built is that of a rule that a call has declared by code. -/
theorem unbuilt_declared {calls : List Declaration} {e : Error} (h : (declared calls).Unbuilt (.error e)) :
    ∃ d ∈ calls, d.isAbnf = false ∧ ∃ decl ∈ d.rules, decl.body (declared calls).token? = .error e := by
  obtain ⟨decl, hmem, e', hb, he⟩ := h
  cases he
  rw [declared, declaredFrom_rules] at hmem
  obtain ⟨d, hd, hdecl⟩ := mem_history_rules ((List.mem_append.1 hmem).resolve_left List.not_mem_nil)
  have hbody : decl.body (declared calls).token? = .error e := by
    unfold build at hb
    cases hbody : decl.body (declared calls).token? with
    | error e' =>
      rw [hbody] at hb
      cases hb
      rfl
    | ok body =>
      rw [hbody] at hb
      cases hb
  refine ⟨d, hd, ?_, decl, hdecl, hbody⟩
  -- a rule of a text is built whatever the tokens are
  cases d with
  | abnf t =>
    simp only [Declaration.rules] at hdecl
    cases hc : Abnf.compile t with
    | error x =>
      rw [hc] at hdecl
      cases hdecl
    | ok ds =>
      rw [hc] at hdecl
      obtain ⟨r, _, rfl⟩ := List.mem_map.1 hdecl
      cases hbody
  | _ => rfl

/-- Some parse, after whatever else was asked, stops as the reference to a name is unresolved. -/
def Misses (g : Grammar) (x : String) : Prop := ∃ (asked : List Call) (name : String) (t : Text),
  (g.evaluate name t (g.after asked)).1 = .error (.error (.unresolved x)) ∨
    (g.parseRule name t (g.after asked)).1 = .error (.error (.unresolved x)) ∨
    (g.parse t (g.after asked)).1 = .error (.error (.unresolved x))

theorem Plain.misses (hg : g.Plain) {x : String} (h : g.Misses x) : g.Unbuilt (.error (.unresolved x)) := by
  obtain ⟨asked, name, t, h | h | h⟩ := h
  · exact evaluate_bound hg.free asked h
  · exact parseRule_bound hg.free asked h
  · exact parse_bound hg.free asked h

end Grammar

/-- Resolving binds every placeholder and nothing else. With rules of texts and of code without placeholders no
reference is unresolved in any parse, but for bodies that answer so instead of being built. -/
theorem Abnf.resolution_binds (g : Grammar) (hg : FreeTokens g.token?) (calls : List Declaration)
    (hcalls : ∀ d ∈ calls, d.Plain) :
    (∀ rhs, Resolves g.token? rhs (resolve g.token? rhs)) ∧
    (∀ x, (Grammar.declared calls).Misses x → ∃ d ∈ calls, d.isAbnf = false ∧
      ∃ decl ∈ d.rules, decl.body (Grammar.declared calls).token? = .error (.unresolved x)) ∧
    ((∀ d ∈ calls, d.isAbnf = false → ∀ decl ∈ d.rules, ∀ x,
        decl.body (Grammar.declared calls).token? ≠ .error (.unresolved x)) →
      ∀ x, ¬ (Grammar.declared calls).Misses x) := by
  have hmiss : ∀ x, (Grammar.declared calls).Misses x → ∃ d ∈ calls, d.isAbnf = false ∧
      ∃ decl ∈ d.rules, decl.body (Grammar.declared calls).token? = .error (.unresolved x) := fun _ h =>
    Grammar.unbuilt_declared ((Grammar.plain_declared hcalls).misses h)
  refine ⟨hg.resolves, hmiss, fun hnever x h => ?_⟩
  obtain ⟨d, hd, hcode, decl, hdecl, hbody⟩ := hmiss x h
  exact hnever d hd hcode decl hdecl x hbody

def Abnf.signedLine : RuleDecl :=
  ⟨"line", {}, fun token? => (requireToken token? "SIGN").map fun sign => .sequence false [sign, .ref "number"]⟩

def Abnf.signed : List Declaration :=
  [.abnf "number = 1*DIGIT".toList, .token "SIGN" [.text ['-']], .ruleWith signedLine]

theorem Abnf.signedLine_body (token? : String → Option Expr) :
    (∃ sign, token? "SIGN" = some sign ∧ signedLine.body token? = .ok (.sequence false [sign, .ref "number"])) ∨
      signedLine.body token? = .error (.unknownToken "SIGN") := by
  cases hs : token? "SIGN" with
  | none => exact .inr (by simp only [signedLine, requireToken, hs, Except.map])
  | some sign => exact .inl ⟨sign, rfl, by simp only [signedLine, requireToken, hs, Except.map]⟩

theorem Abnf.resolution_binds_signed :
    let g : Grammar := { tokens := [("SIGN", .text ['-'])] }
    FreeTokens g.token? ∧ (∀ d ∈ signed, d.Plain) ∧
    Resolves g.token? (.sequence false [.placeholder true "SIGN", .placeholder false "number"])
      (.sequence false [.literal true [.text ['-']] none, .ref "number"]) ∧
    ∀ x, ¬ (Grammar.declared signed).Misses x := by
  intro g
  have hg : FreeTokens g.token? := by
    have hplain : g.Plain := ⟨List.forall_mem_singleton.2 rfl, List.forall_mem_nil _⟩
    exact hplain.freeTokens
  have hline : signedLine.Plain := by
    intro token? ht e he
    rcases signedLine_body token? with ⟨sign, hsign, hb⟩ | hb
    · rw [hb] at he
      cases he
      show sign.placeholders ++ [] = []
      rw [ht "SIGN" sign hsign, List.append_nil]
    · rw [hb] at he
      cases he
  have hcalls : ∀ d ∈ signed, d.Plain := by
    simp only [signed, List.forall_mem_cons]
    refine ⟨Declaration.plain_abnf _, Declaration.plain_token _ _, ⟨List.forall_mem_nil _, ?_⟩,
      List.forall_mem_nil _⟩
    exact List.forall_mem_singleton.2 hline
  have h := resolution_binds g hg signed hcalls
  refine ⟨hg, hcalls, h.1 (.sequence false [.placeholder true "SIGN", .placeholder false "number"]), h.2.2 ?_⟩
  simp only [signed, List.forall_mem_cons]
  refine ⟨(fun h => by cases h), fun _ => List.forall_mem_nil _,
    fun _ => List.forall_mem_singleton.2 fun x hx => ?_, List.forall_mem_nil _⟩
  rcases signedLine_body _ with ⟨_, _, hb⟩ | hb
  · cases hb.symm.trans hx
  · cases hb.symm.trans hx

example : (Expr.placeholder false "number").parse [] {} = .error (.error (.unresolved "number")) := rfl

end PegTree
