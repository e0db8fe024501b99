import PegTree.Proofs.Abnf.Lines
import PegTree.Proofs.Declaring
import PegTree.Proofs.History

/-!
# The order of declarations

References are looked up by name when a rule is used. So it does not matter in which order rules and tokens
have been declared, be it call by call or in the lines of a text.
-/

namespace PegTree

/-! ## Grammars that answer alike -/

namespace Grammar

/-- The same sessions, and in them the same trees and faults. -/
def AnswersLike (g g' : Grammar) : Prop :=
  g.after = g'.after ∧ g.evaluate = g'.evaluate ∧ g.parseRule = g'.parseRule

structure Alike (g g' : Grammar) : Prop where
  options : g.options = g'.options
  start : g.start = g'.start
  rule? : g.rule? = g'.rule?
  token? : g.token? = g'.token?
  length : g.rules.length = g'.rules.length

section
variable {g g' : Grammar} (h : g.Alike g')
include h

theorem Alike.sessionRule : Session.rule g = Session.rule g' := by
  funext name
  have hbuild : g.build = g'.build := by
    funext decl
    simp [Grammar.build, h.token?]
  simp [Session.rule, hbuild, h.rule?]

theorem Alike.scope : g.scope = g'.scope := by
  funext i o depth
  simp [Grammar.scope, Session.host, nestingBound, h.sessionRule, h.length]

theorem Alike.evaluate : g.evaluate = g'.evaluate := by
  funext name t
  simp [Grammar.evaluate, h.scope, h.options]

theorem Alike.parseRule : g.parseRule = g'.parseRule := by
  funext name t
  simp [Grammar.parseRule, h.evaluate, h.options]

theorem Alike.answer : g.answer = g'.answer := by
  funext s call
  cases call with
  | rule name => simp [Grammar.answer, h.sessionRule]
  | evaluate name t => simp [Grammar.answer, h.evaluate]
  | parseRule name t => simp [Grammar.answer, h.parseRule]
  | parse t => simp [Grammar.answer, Grammar.parse, h.parseRule, h.start]
  | apply e t o depth p => simp [Grammar.answer, h.scope]

theorem Alike.answersLike : g.AnswersLike g' := by
  refine ⟨?_, h.evaluate, h.parseRule⟩
  funext calls
  simp [Grammar.after, h.answer]

end

/-! ## The same declarations in any order -/

structure Rearranged (g g' : Grammar) : Prop where
  options : g.options = g'.options
  start : g.start = g'.start
  rules : ∀ decl, decl ∈ g.rules ↔ decl ∈ g'.rules
  tokens : ∀ token, token ∈ g.tokens ↔ token ∈ g'.tokens

section
variable {g g' : Grammar} (h : g.Rearranged g')
include h

theorem Rearranged.alike (hk : g.Keyed) (hk' : g'.Keyed) : g.Alike g' where
  options := h.options
  start := h.start
  rule? := by
    funext name
    apply Option.ext
    intro decl
    rw [hk.rule?_eq_some, hk'.rule?_eq_some, h.rules]
  token? := by
    funext name
    apply Option.ext
    intro e
    rw [hk.token?_eq_some, hk'.token?_eq_some, h.tokens]
  length := by
    have hperm : g.rules.Perm g'.rules :=
      (List.perm_ext_iff_of_nodup hk.rules.of_map hk'.rules.of_map).2 h.rules
    exact hperm.length_eq

theorem Rearranged.hasRule (name : String) : g.hasRule name = g'.hasRule name := by
  rw [Bool.eq_iff_iff, hasRule_iff, hasRule_iff, ruleNames, ruleNames, List.mem_map, List.mem_map]
  simp only [h.rules]

theorem Rearranged.hasToken (name : String) : g.hasToken name = g'.hasToken name := by
  rw [Bool.eq_iff_iff, hasToken_iff, hasToken_iff, List.mem_map, List.mem_map]
  simp only [h.tokens]

theorem Rearranged.declare (d : Declaration) : (g.declare d).1.Rearranged (g'.declare d).1 := by
  have hrules : g.newRules d = g'.newRules d := by simp [newRules, h.hasRule]
  have htokens : g.newTokens d = g'.newTokens d := by simp [newTokens, h.hasToken]
  have hsettings := g.declare_settings d
  rw [h.options, h.start, ← g'.declare_settings d] at hsettings
  obtain ⟨ho, hs⟩ := Prod.mk.inj hsettings
  refine ⟨ho, hs, fun decl => ?_, fun token => ?_⟩
  · rw [(g.declare_new d).1, (g'.declare_new d).1, List.mem_append, List.mem_append, h.rules, hrules]
  · rw [(g.declare_new d).2.1, (g'.declare_new d).2.1, List.mem_append, List.mem_append, h.tokens, htokens]

theorem Rearranged.declaredFrom (calls : List Declaration) :
    (g.declaredFrom calls).Rearranged (g'.declaredFrom calls) := by
  induction calls generalizing g g' with
  | nil => exact h
  | cons d calls ih => exact ih (h.declare d)

end

/-! ## Texts -/

theorem withRules_rearranged {g : Grammar} {ds ds' : List (String × Expr)} (h : ds.Perm ds') :
    (g.withRules ds).Rearranged (g.withRules ds') where
  options := rfl
  start := rfl
  rules decl := by simp [withRules, h.mem_iff]
  tokens _ := Iff.rfl

theorem addAbnf_rearranged {g : Grammar} {t t' : Text} {d d' : Abnf.Definitions} (hc : Abnf.compile t = .ok d)
    (hc' : Abnf.compile t' = .ok d') (hp : d.rules.Perm d'.rules) (hfree : ∀ r ∈ d.rules, g.hasRule r.1 = false) :
    (g.addAbnf t).1.Rearranged (g.addAbnf t').1 := by
  have hfree' : ∀ r ∈ d'.rules, g.hasRule r.1 = false := fun r hr => hfree r (hp.mem_iff.2 hr)
  rw [addAbnf_free hc hfree, addAbnf_free hc' hfree']
  exact withRules_rearranged hp

/-- Whichever order the same rules and tokens have been declared in, the answers are the same. So they are if
the lines of a text that defines one rule by each line are permuted, whatever has been or is declared besides:
the text is registered just if none of its names is taken. -/
theorem order_irrelevant :
    (∀ calls calls' : List Declaration, (declared calls).Rearranged (declared calls') →
      (declared calls).AnswersLike (declared calls')) ∧
    ∀ (before more : List Declaration) (t t' : Text), (∀ l ∈ Abnf.filledLines t, Abnf.DefiningLine l) →
      (((Abnf.filledLines t).filterMap Abnf.soleDefinition?).map (·.1)).Nodup →
      (Abnf.filledLines t).Perm (Abnf.filledLines t') →
      (((declared before).addAbnf t).2 = .ok () ↔
        ∀ r ∈ (Abnf.filledLines t).filterMap Abnf.soleDefinition?, (declared before).hasRule r.1 = false) ∧
      (((declared before).addAbnf t).2 = .ok () → ((declared before).addAbnf t').2 = .ok () ∧
        (declared (before ++ .abnf t :: more)).AnswersLike (declared (before ++ .abnf t' :: more))) := by
  have horder : ∀ calls calls' : List Declaration, (declared calls).Rearranged (declared calls') →
      (declared calls).AnswersLike (declared calls') := by
    intro calls calls' h
    exact (h.alike (keyed_declared calls) (keyed_declared calls')).answersLike
  refine ⟨horder, fun before more t t' hlines hn hp => ?_⟩
  have hdefs := hp.filterMap Abnf.soleDefinition?
  have hc := Abnf.compile_lines hlines hn
  have hc' := Abnf.compile_lines (fun l hl => hlines l (hp.mem_iff.2 hl)) ((hdefs.map _).nodup_iff.1 hn)
  refine ⟨addAbnf_ok_iff hc, fun hok => ⟨?_, horder _ _ ?_⟩⟩
  · rw [addAbnf_ok_iff hc']
    rw [addAbnf_ok_iff hc] at hok
    exact fun r hr => hok r (hdefs.mem_iff.2 hr)
  · rw [declared_append, declared_append, declaredFrom_cons, declaredFrom_cons]
    apply Rearranged.declaredFrom
    simp only [Grammar.declare]
    exact addAbnf_rearranged hc hc' hdefs ((addAbnf_ok_iff hc).1 hok)

def ping : RuleDecl :=
  ⟨"ping", {}, fun _ => .ok (.sequence false [.literal false [.text ['a']] none, .ref "pong"])⟩

def pong : RuleDecl := ⟨"pong", {}, fun _ => .ok (.optional false (.ref "ping"))⟩

theorem order_irrelevant_ping :
    (declared [.ruleWith ping, .ruleWith pong]).AnswersLike (declared [.ruleWith pong, .ruleWith ping]) ∧
    (declared [.abnf "a = b\nb = \"x\"\n".toList]).AnswersLike (declared [.abnf "b = \"x\"\na = b".toList]) := by
  constructor
  · apply order_irrelevant.1
    refine ⟨rfl, rfl, fun decl => ?_, fun token => Iff.rfl⟩
    have hrules : (declared [.ruleWith ping, .ruleWith pong]).rules = [ping, pong] := rfl
    have hrules' : (declared [.ruleWith pong, .ruleWith ping]).rules = [pong, ping] := rfl
    rw [hrules, hrules', List.mem_pair, List.mem_pair]
    exact or_comm
  · have hlines : Abnf.filledLines "a = b\nb = \"x\"\n".toList = ["a = b".toList, "b = \"x\"".toList] := by decide
    have hlines' : Abnf.filledLines "b = \"x\"\na = b".toList = ["b = \"x\"".toList, "a = b".toList] := by decide
    have hfirst : Abnf.soleDefinition? "a = b".toList = some ("a", .placeholder false "b") := by decide +kernel
    have hsecond :
        Abnf.soleDefinition? "b = \"x\"".toList = some ("b", .literal false [.text ['x']] (some false)) := by
      decide +kernel
    have hswap := (order_irrelevant.2 [] [] "a = b\nb = \"x\"\n".toList "b = \"x\"\na = b".toList ?_ ?_ ?_).2
    · exact (hswap (by decide +kernel)).2
    · rw [hlines]
      intro l hl
      rcases List.mem_pair.1 hl with hl | hl
      · rw [hl]
        refine ⟨fun c hc => ?_, by rw [hfirst]; rfl⟩
        obtain rfl : 'a' = c := by simpa using hc
        rfl
      · rw [hl]
        refine ⟨fun c hc => ?_, by rw [hsecond]; rfl⟩
        obtain rfl : 'b' = c := by simpa using hc
        rfl
    · rw [hlines, List.filterMap_cons_some hfirst, List.filterMap_cons_some hsecond]
      decide
    · rw [hlines, hlines']
      exact .swap _ _ _

end Grammar

end PegTree
