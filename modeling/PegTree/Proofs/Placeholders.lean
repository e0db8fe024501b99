import PegTree.Expr.Placeholder
import PegTree.Proofs.History

/-!
# Placeholders

What is put in place of the placeholders of an expression leaves every other part of it where it is. An evaluation
only meets a placeholder if there is one, so where no body of a rule has one, no reference is found unresolved,
whatever has been built before.
-/

namespace PegTree

namespace Expr

/-! ## Places in an expression -/

def items : Expr → List Expr
  | .sequence _ items | .choice _ items => items
  | .repetition _ _ _ item | .optional _ item => [item]
  | _ => []

/-- The part of an expression that is found by going down to the items of these numbers. -/
def at? (e : Expr) : List Nat → Option Expr
  | [] => some e
  | k :: path => e.items[k]?.bind (·.at? path)

/-- What an expression is but for its assertion and its items. -/
inductive Head where
  | literal (matchers : List Matcher) (caseSensitive : Option Bool)
  | sequence
  | choice
  | repetition (low : Nat) (high : Option Nat)
  | optional
  | endOfLine
  | endOfInput
  | rule (name : String)
  | placeholder (name : String)

def head : Expr → Head
  | .literal _ matchers caseSensitive => .literal matchers caseSensitive
  | .sequence .. => .sequence
  | .choice .. => .choice
  | .repetition _ low high _ => .repetition low high
  | .optional .. => .optional
  | .endOfLine _ => .endOfLine
  | .endOfInput _ => .endOfInput
  | .rule _ name => .rule name
  | .placeholder _ name => .placeholder name

/-! ## Replacing placeholders -/

variable {f : String → Expr}

theorem mapPlaceholdersList_eq (es : List Expr) : mapPlaceholdersList f es = es.map (mapPlaceholders f) := by
  induction es with
  | nil => rfl
  | cons e es ih => rw [mapPlaceholdersList, ih, List.map_cons]

@[simp] theorem placeholders_setAsserted (a : Bool) (e : Expr) :
    (e.setAsserted a).placeholders = e.placeholders := by
  cases e <;> simp [setAsserted, placeholders]

theorem items_mapPlaceholders {e : Expr} (he : ∀ a name, e ≠ .placeholder a name) :
    (e.mapPlaceholders f).items = e.items.map (mapPlaceholders f) := by
  cases e with
  | sequence a es => exact mapPlaceholdersList_eq es
  | choice a es => exact mapPlaceholdersList_eq es
  | placeholder a name => exact absurd rfl (he a name)
  | _ => rfl

theorem head_mapPlaceholders {e : Expr} (he : ∀ a name, e ≠ .placeholder a name) :
    (e.mapPlaceholders f).head = e.head ∧ (e.mapPlaceholders f).asserted = e.asserted := by
  cases e with
  | placeholder a name => exact absurd rfl (he a name)
  | _ => exact ⟨rfl, rfl⟩

theorem at?_mapPlaceholders {e x : Expr} {path : List Nat} (h : e.at? path = some x) :
    (e.mapPlaceholders f).at? path = some (x.mapPlaceholders f) := by
  induction path generalizing e with
  | nil =>
    cases h
    rfl
  | cons k path ih =>
    obtain ⟨item, hitem, hx⟩ := Option.bind_eq_some_iff.1 h
    -- there is nothing below a placeholder, so none is on the way
    have he : ∀ a name, e ≠ .placeholder a name := by
      rintro a name rfl
      cases hitem
    rw [at?, items_mapPlaceholders he, List.getElem?_map, hitem]
    exact ih hx

mutual
theorem placeholders_mapPlaceholders (hf : ∀ name, (f name).placeholders = []) (e : Expr) :
    (e.mapPlaceholders f).placeholders = [] := by
  cases e with
  | placeholder a name =>
    rw [mapPlaceholders, placeholders_setAsserted]
    exact hf name
  | sequence a es => exact placeholdersList_mapPlaceholders hf es
  | choice a es => exact placeholdersList_mapPlaceholders hf es
  | repetition a low high e => exact placeholders_mapPlaceholders hf e
  | optional a e => exact placeholders_mapPlaceholders hf e
  | _ => rfl
theorem placeholdersList_mapPlaceholders (hf : ∀ name, (f name).placeholders = []) (es : List Expr) :
    placeholdersList (mapPlaceholdersList f es) = [] := by
  cases es with
  | nil => rfl
  | cons e es =>
    rw [mapPlaceholdersList, placeholdersList, placeholders_mapPlaceholders hf e,
      placeholdersList_mapPlaceholders hf es, List.append_nil]
end

mutual
theorem mapPlaceholders_of_free {e : Expr} (he : e.placeholders = []) : e.mapPlaceholders f = e := by
  cases e with
  | placeholder a name => cases he
  | sequence a es => exact congrArg (Expr.sequence a) (mapPlaceholdersList_of_free he)
  | choice a es => exact congrArg (Expr.choice a) (mapPlaceholdersList_of_free he)
  | repetition a low high e => exact congrArg (Expr.repetition a low high) (mapPlaceholders_of_free he)
  | optional a e => exact congrArg (Expr.optional a) (mapPlaceholders_of_free he)
  | _ => rfl
theorem mapPlaceholdersList_of_free {es : List Expr} (hes : placeholdersList es = []) :
    mapPlaceholdersList f es = es := by
  cases es with
  | nil => rfl
  | cons e es =>
    obtain ⟨he, hes⟩ := List.append_eq_nil_iff.1 hes
    rw [mapPlaceholdersList, mapPlaceholders_of_free he, mapPlaceholdersList_of_free hes]
end

end Expr

/-! ## Evaluations -/

open Eval

def Fault.isUnresolved : Fault → Bool
  | .error (.unresolved _) => true
  | _ => false

/-- A reference is found unresolved at most if a body failed so when it was built. -/
def Grammar.Bound (g : Grammar) (f : Fault) : Prop := f.isUnresolved = true → g.Unbuilt f

theorem Grammar.bound_of_resolved {g : Grammar} {f : Fault} (h : f.isUnresolved = false) : g.Bound f := by
  intro hf
  rw [h] at hf
  cases hf

/-- An evaluation that keeps `I` and finds no reference unresolved by itself. -/
def Eval.Settled {σ α : Type} (g : Grammar) (I : σ → Prop) (x : Eval σ α) : Prop :=
  Triple I x (fun _ => I) (fun f t => I t ∧ g.Bound f)

section
variable {σ α : Type} {g : Grammar} {I : σ → Prop}

theorem Eval.Settled.pure (a : α) : (pure a : Eval σ α).Settled g I := Triple.pure fun _ h => h

theorem Eval.Settled.bind {β : Type} {x : Eval σ α} {y : α → Eval σ β} (hx : x.Settled g I)
    (hy : ∀ a, (y a).Settled g I) : (x >>= y).Settled g I := Triple.bind hx hy

theorem Eval.Settled.throw {f : Fault} (hf : f.isUnresolved = false) : (throw f : Eval σ α).Settled g I :=
  Triple.throw fun _ h => ⟨h, g.bound_of_resolved hf⟩

theorem Eval.Settled.ofExcept {x : Except Fault α} (h : ∀ f, x = .error f → f.isUnresolved = false) :
    (ofExcept x : Eval σ α).Settled g I :=
  Triple.ofExcept (fun _ _ _ h => h) fun f hf _ ht => ⟨ht, g.bound_of_resolved (h f hf)⟩

theorem Eval.Settled.of_parse {x : Except Fault α} {i : Input} {p : Nat}
    (h : ∀ {f}, x = .error f → ∃ message, f = .error (.parse ⟨p, message, i⟩)) :
    (Eval.ofExcept x : Eval σ α).Settled g I := by
  refine .ofExcept fun f hf => ?_
  obtain ⟨message, rfl⟩ := h hf
  rfl

end

section
variable {σ : Type} {g : Grammar} {s : Scope σ} {I : σ → Prop}

theorem Eval.Settled.of_leaf {a : Bool} {x : Except Fault Node}
    (h : ∀ {f}, x = .error f → (∃ q, f = .insideCharacter q) ∨ a = true ∧ ∃ e, f = .error (.parse e)) :
    (Eval.ofExcept x : Eval σ Node).Settled g I := by
  refine .ofExcept fun f hf => ?_
  rcases h hf with ⟨q, rfl⟩ | ⟨_, e, rfl⟩
  · rfl
  · rfl

mutual
/-- Without placeholders, what is found unresolved is found so in the rules that are referred to. -/
theorem eval_settled (hr : ∀ a name p, (s.refer a name p).Settled g I) {e : Expr}
    (he : e.placeholders = []) (p : Nat) :
    (e.eval s p).Settled g I := by
  cases e with
  | literal a ms c =>
    unfold Expr.eval
    exact .of_leaf Scope.literal_fault
  | sequence a items =>
    unfold Expr.eval
    exact (evalRow_settled hr he p).bind fun run => .of_parse Scope.closeSequence_error
  | choice a items =>
    unfold Expr.eval
    exact (evalAny_settled hr he _).bind fun trial => .of_parse Scope.closeChoice_error
  | repetition a low high item =>
    unfold Expr.eval
    have hrun := repeatRun_stops (g.bound_of_resolved rfl) (fun q => eval_settled hr (e := item) he q) (s := s)
    exact Eval.Settled.bind (hrun _ _ _) fun run => .of_parse Scope.closeRepetition_error
  | optional a item =>
    unfold Expr.eval
    exact Eval.Settled.bind (eval_settled hr (e := item) he p) fun n => .pure _
  | endOfLine a =>
    unfold Expr.eval
    exact .of_leaf Scope.endOfLine_fault
  | endOfInput a =>
    unfold Expr.eval
    exact .of_parse s.endOfInput_error
  | rule a name =>
    unfold Expr.eval
    exact hr a name p
  | placeholder a name => cases he
theorem evalRow_settled (hr : ∀ a name p, (s.refer a name p).Settled g I) {es : List Expr}
    (hes : Expr.placeholdersList es = []) (p : Nat) : (Expr.evalRow s es p).Settled g I := by
  cases es with
  | nil =>
    unfold Expr.evalRow
    exact .pure _
  | cons e es =>
    obtain ⟨he, hes⟩ := List.append_eq_nil_iff.1 hes
    unfold Expr.evalRow
    refine Eval.Settled.bind (eval_settled hr he _) fun n => ?_
    cases n.stop with
    | none => exact .pure _
    | some stop => exact (evalRow_settled hr hes stop).bind fun run => .pure _
theorem evalAny_settled (hr : ∀ a name p, (s.refer a name p).Settled g I) {es : List Expr}
    (hes : Expr.placeholdersList es = []) (p : Nat) : (Expr.evalAny s es p).Settled g I := by
  cases es with
  | nil =>
    unfold Expr.evalAny
    exact .pure _
  | cons e es =>
    obtain ⟨he, hes⟩ := List.append_eq_nil_iff.1 hes
    unfold Expr.evalAny
    refine Eval.Settled.bind (eval_settled hr he _) fun n => ?_
    cases n.isFailed with
    | true => exact (evalAny_settled hr hes p).bind fun trial => .pure _
    | false => exact .pure _
end

end

/-! ## Rules -/

def Grammar.Free (g : Grammar) : Prop := ∀ name rule, g.Declares name rule → rule.body.placeholders = []

theorem callRule_settled {g : Grammar} (hg : g.Free) (i : Input) (fuel : Nat) (o : Options) (depth : Nat)
    (st : List Frame) (a : Bool) (name : String) (p : Nat) :
    (callRule (Session.host g) i fuel o depth a name p).Settled g (Session.Sound g st) := by
  refine Session.callRule_triple (φ := fun _ => True) g i ?unknown ?unbuilt ?recursion ?fuel ?limit ?body ?close
    fuel o depth st a name p trivial
  case unknown => exact fun _ _ => g.bound_of_resolved rfl
  case unbuilt => exact fun decl hd e he _ => ⟨decl, hd, e, he, rfl⟩
  case recursion => exact fun _ _ => g.bound_of_resolved rfl
  case fuel => exact g.bound_of_resolved rfl
  case limit => exact fun _ => g.bound_of_resolved rfl
  case body =>
    intro name rule hdecl s I hr q
    exact eval_settled (fun a name q => hr a name q trivial) (hg name rule hdecl) q
  case close =>
    intro o a name q tree f _ hf
    obtain ⟨message, rfl⟩ := closeRule_error hf
    exact g.bound_of_resolved rfl

namespace Grammar

variable {g : Grammar} (hg : g.Free) (asked : List Call) {name x : String} {t : Text}
include hg

theorem evaluate_bound (h : (g.evaluate name t (g.after asked)).1 = .error (.error (.unresolved x))) :
    g.Unbuilt (.error (.unresolved x)) :=
  ((callRule_settled hg _ _ _ _ [] _ _ _).error (g.after_sound asked) h).2 rfl

theorem parseRule_bound (h : (g.parseRule name t (g.after asked)).1 = .error (.error (.unresolved x))) :
    g.Unbuilt (.error (.unresolved x)) := by
  rw [parseRule_fst] at h
  cases he : (g.evaluate name t (g.after asked)).1 with
  | error f =>
    rw [he] at h
    cases h
    exact evaluate_bound hg asked he
  | ok n =>
    rw [he] at h
    by_cases hn : n.isFailed = true
    · simp only [Except.bind, hn, if_true] at h
      cases h
    · simp only [Except.bind, hn] at h
      cases h

theorem parse_bound (h : (g.parse t (g.after asked)).1 = .error (.error (.unresolved x))) :
    g.Unbuilt (.error (.unresolved x)) := by
  unfold parse at h
  cases hs : g.start with
  | none =>
    rw [hs] at h
    cases h
  | some name =>
    rw [hs] at h
    exact parseRule_bound hg asked h

end Grammar

end PegTree
