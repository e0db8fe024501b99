import PegTree.Proofs.History
import PegTree.Proofs.Refinement
import PegTree.Proofs.Stack

/-!
# Evaluations in lockstep

A view changes which expressions are asserted and whether failed attempts are kept, and says what is
to be seen of a node. If each way to make a node agrees with a view then whole evaluations do: the
changed one comes to what is seen of the other's result, unless that one stops with an excused fault.
-/

namespace PegTree

open Eval

/-! ## Views -/

namespace Expr

mutual
/-- Changes how an expression and all parts of it are asserted. -/
def mapAsserted (f : Bool → Bool) : Expr → Expr
  | .literal a matchers caseSensitive => .literal (f a) matchers caseSensitive
  | .sequence a items => .sequence (f a) (mapAssertedList f items)
  | .choice a items => .choice (f a) (mapAssertedList f items)
  | .repetition a low high item => .repetition (f a) low high (mapAsserted f item)
  | .optional a item => .optional (f a) (mapAsserted f item)
  | .endOfLine a => .endOfLine (f a)
  | .endOfInput a => .endOfInput (f a)
  | .rule a name => .rule (f a) name
  | .placeholder a name => .placeholder (f a) name
def mapAssertedList (f : Bool → Bool) : List Expr → List Expr
  | [] => []
  | e :: es => mapAsserted f e :: mapAssertedList f es
end

theorem mapAssertedList_eq (f : Bool → Bool) (es : List Expr) : mapAssertedList f es = es.map (mapAsserted f) := by
  induction es with
  | nil => rfl
  | cons e es ih => rw [mapAssertedList, ih, List.map_cons]

theorem id_mapAsserted (f : Bool → Bool) (e : Expr) : (e.mapAsserted f).id = e.id := by
  cases e with
  | literal a matchers c => cases matchers <;> rfl
  | _ => rfl

mutual
theorem mapAsserted_self (e : Expr) : e.mapAsserted (fun a => a) = e := by
  cases e with
  | sequence a items => rw [mapAsserted, mapAssertedList_self items]
  | choice a items => rw [mapAsserted, mapAssertedList_self items]
  | repetition a low high item => rw [mapAsserted, mapAsserted_self item]
  | optional a item => rw [mapAsserted, mapAsserted_self item]
  | _ => rfl
theorem mapAssertedList_self (es : List Expr) : mapAssertedList (fun a => a) es = es := by
  match es with
  | [] => rfl
  | e :: es => rw [mapAssertedList, mapAsserted_self e, mapAssertedList_self es]
end

end Expr

structure View where
  node : Node → Node
  asserted : Bool → Bool
  includeFailed : Bool → Bool

namespace View

def options (v : View) (o : Options) : Options := { o with includeFailed := v.includeFailed o.includeFailed }

def expr (v : View) (e : Expr) : Expr := e.mapAsserted v.asserted

def exprs (v : View) (es : List Expr) : List Expr := Expr.mapAssertedList v.asserted es

def run (v : View) (r : Run) : Run := ⟨r.matched.map v.node, r.stop, r.refused.map v.node⟩

def trial (v : View) (t : Trial) : Trial := ⟨t.failed.map v.node, t.chosen.map v.node⟩

def rule (v : View) (r : Rule) : Rule := { r with body := v.expr r.body }

def decl (v : View) (d : RuleDecl) : RuleDecl := { d with body := fun token? => (d.body token?).map v.expr }

def grammar (v : View) (g : Grammar) : Grammar :=
  { g with options := v.options g.options, rules := g.rules.map v.decl }

def frame (v : View) (f : Frame) : Frame := { f with options := v.options f.options }

end View

/-- Under options that keep failed attempts as `K` says, each way to make a node agrees with the view,
but for faults in `E`. -/
structure View.Fair (v : View) (K : Bool → Prop) (E : Fault → Prop) : Prop where
  text : ∀ n, (v.node n).text = n.text
  stop : ∀ n, (v.node n).stop = n.stop
  matched : ∀ (o : Options) tag t p q (before ns after : List Node), K o.includeFailed →
    (∀ n ∈ before, n.stop = none) → (∀ n ∈ ns, n.stop ≠ none) → (∀ n ∈ after, n.stop = none) →
    v.node (.matched tag t p q (o.kept before ++ ns ++ o.kept after)) =
      .matched tag t p q
        ((v.options o).kept (before.map v.node) ++ ns.map v.node ++ (v.options o).kept (after.map v.node))
  failed : ∀ (o : Options) tag p ns, K o.includeFailed →
    v.node (.failed tag p (o.kept ns)) = .failed tag p ((v.options o).kept (ns.map v.node))
  refusal : ∀ i a p message n, (∃ f, refuse i a p message n = .error f ∧ E f) ∨
    refuse i (v.asserted a) p message (v.node n) = (refuse i a p message n).map v.node
  injective : ∀ b b', K b → K b' → v.includeFailed b = v.includeFailed b' → b = b'
  adds_none : ∀ b, K b → v.includeFailed b = true → b = true

/-! ## What is seen of closings -/

/-- The second result is what is seen of the first, unless that is an excused fault. -/
def View.Sees (v : View) (E : Fault → Prop) (r r' : Except Fault Node) : Prop :=
  (∃ f, r = .error f ∧ E f) ∨ r' = r.map v.node

theorem View.Sees.bind {v : View} {E : Fault → Prop} {α : Type} (x : Except Fault α)
    {k k' : α → Except Fault Node} (h : ∀ r, v.Sees E (k r) (k' r)) : v.Sees E (x >>= k) (x >>= k') := by
  cases x with
  | ok r => exact h r
  | error f => exact .inr rfl

/-- All matches of a run matched, and the attempt after them did not. -/
structure Run.Proper (r : Run) : Prop where
  matched : ∀ n ∈ r.matched, n.stop ≠ none
  refused : ∀ n ∈ r.refused.toList, n.stop = none

structure Trial.Proper (t : Trial) : Prop where
  failed : ∀ n ∈ t.failed, n.stop = none
  chosen : ∀ n ∈ t.chosen.toList, n.stop ≠ none

namespace View.Fair

variable {v : View} {K : Bool → Prop} {E : Fault → Prop} {i : Input} {o : Options} {a : Bool} {p : Nat}

section
variable (hv : v.Fair K E) (ho : K o.includeFailed)
include hv

theorem text_join (start stop : Nat) (ns : List Node) :
    joinText i start stop (ns.map v.node) = joinText i start stop ns :=
  joinText_map hv.text rfl ns

include ho

theorem leaf (tag : Tag) (t : Text) (p q : Nat) : v.node (.matched tag t p q []) = .matched tag t p q [] := by
  have h := hv.matched o tag t p q [] [] [] ho (by simp) (by simp) (by simp)
  simpa [Options.kept_nil] using h

theorem failed_leaf (tag : Tag) (p : Nat) : v.node (.failed tag p []) = .failed tag p [] := by
  have h := hv.failed o tag p [] ho
  simpa [Options.kept_nil] using h

theorem row (tag : Tag) (t : Text) (p q : Nat) {ns : List Node} (hns : ∀ n ∈ ns, n.stop ≠ none) :
    v.node (.matched tag t p q ns) = .matched tag t p q (ns.map v.node) := by
  have h := hv.matched o tag t p q [] ns [] ho (by simp) hns (by simp)
  simpa [Options.kept_nil] using h

theorem sees_refuse (tag : Tag) (q p : Nat) (message : String) {ns ms : List Node}
    (hns : (v.options o).kept (ns.map v.node) = (v.options o).kept ms) :
    v.Sees E (refuse i a q message (.failed tag p (o.kept ns)))
      (refuse i (v.asserted a) q message (.failed tag p ((v.options o).kept ms))) := by
  have h := hv.refusal i a q message (.failed tag p (o.kept ns))
  rw [hv.failed o tag p ns ho, hns] at h
  exact h

theorem sees_leaf_refuse (tag : Tag) (q p : Nat) (message : String) :
    v.Sees E (refuse i a q message (.failed tag p [])) (refuse i (v.asserted a) q message (.failed tag p [])) := by
  have h := hv.refusal i a q message (.failed tag p [])
  rw [hv.failed_leaf ho] at h
  exact h

theorem sees_leaf (tag : Tag) (t : Text) (p q : Nat) :
    v.Sees E (.ok (.matched tag t p q [])) (.ok (.matched tag t p q [])) := by
  refine .inr ?_
  show _ = Except.ok (v.node _)
  rw [hv.leaf ho]

theorem sees_literal (ms : List Matcher) (c : Option Bool) (p : Nat) :
    v.Sees E ((Scope.plain i o).literal a ms c p)
      ((Scope.plain i (v.options o)).literal (v.asserted a) ms c p) := by
  unfold Scope.literal
  by_cases hm : ms.isEmpty = true
  · rw [if_pos hm, if_pos hm]
    exact hv.sees_leaf ho _ _ _ _
  · rw [if_neg hm, if_neg hm]
    refine .bind (((Cursor.ofOffset i p).skip o).accept? _) fun r => ?_
    cases r with
    | none => exact hv.sees_leaf_refuse ho _ _ _ _
    | some r => exact hv.sees_leaf ho _ _ _ _

theorem sees_endOfLine (p : Nat) :
    v.Sees E ((Scope.plain i o).endOfLine a p) ((Scope.plain i (v.options o)).endOfLine (v.asserted a) p) := by
  unfold Scope.endOfLine
  refine .bind ((Cursor.ofOffset i p).accept? _) fun r => ?_
  cases r with
  | some r => exact hv.sees_leaf ho _ _ _ _
  | none =>
    show v.Sees E (if ((Cursor.ofOffset i p).skip o).atEnd = true then _ else _)
      (if ((Cursor.ofOffset i p).skip o).atEnd = true then _ else _)
    split
    · exact hv.sees_leaf ho _ _ _ _
    · exact hv.sees_leaf_refuse ho _ _ _ _

theorem sees_endOfInput (p : Nat) :
    v.Sees E ((Scope.plain i o).endOfInput a p) ((Scope.plain i (v.options o)).endOfInput (v.asserted a) p) := by
  show v.Sees E (if i.size ≤ i.skip o p then _ else _) (if i.size ≤ i.skip o p then _ else _)
  split
  · exact hv.sees_leaf ho _ _ _ _
  · exact hv.sees_leaf_refuse ho _ _ _ _

theorem sees_sequence (items : List Expr) (p : Nat) {r : Run} (hr : r.Proper) :
    v.Sees E ((Scope.plain i o).closeSequence a items p r)
      ((Scope.plain i (v.options o)).closeSequence (v.asserted a) (v.exprs items) p (v.run r)) := by
  obtain ⟨ns, q, refused⟩ := r
  cases refused with
  | none =>
    refine .inr ?_
    show Except.ok (Node.matched _ (joinText i p q (ns.map v.node)) _ _ (ns.map v.node)) = Except.ok (v.node _)
    rw [hv.text_join]
    exact congrArg Except.ok (hv.row ho _ _ _ _ hr.matched).symm
  | some n =>
    have hid : ∀ k : Nat, ((v.exprs items)[k]?.map Expr.id).getD "" = (items[k]?.map Expr.id).getD "" := by
      intro k
      unfold View.exprs
      rw [Expr.mapAssertedList_eq, List.getElem?_map, Option.map_map]
      have hcomp : Expr.id ∘ Expr.mapAsserted v.asserted = Expr.id := funext (Expr.id_mapAsserted _)
      rw [hcomp]
    simp only [Scope.closeSequence, View.run, Option.map_some, hid, List.length_map]
    exact hv.sees_refuse ho _ _ _ _ (by simp)

theorem sees_choice (p place : Nat) {t : Trial} (ht : t.Proper) :
    v.Sees E ((Scope.plain i o).closeChoice a p place t)
      ((Scope.plain i (v.options o)).closeChoice (v.asserted a) p place (v.trial t)) := by
  obtain ⟨fs, chosen⟩ := t
  cases chosen with
  | none => exact hv.sees_refuse ho _ _ _ _ rfl
  | some n =>
    cases hs : n.stop with
    | none => exact absurd hs (ht.chosen n (by simp))
    | some q =>
      have hm := hv.matched o .choice n.text p q fs [n] [] ho ht.failed (by simp [hs]) (by simp)
      simp only [Options.kept_nil, List.append_nil, List.map_nil, List.map_cons] at hm
      simp only [Scope.closeChoice, View.trial, Option.map_some, Option.bind_some, hv.stop, hs, hv.text]
      exact .inr (congrArg Except.ok hm.symm)

theorem sees_repetition (low : Nat) (high : Option Nat) (p : Nat) {r : Run} (hr : r.Proper) :
    v.Sees E ((Scope.plain i o).closeRepetition a low high p r)
      ((Scope.plain i (v.options o)).closeRepetition (v.asserted a) low high p (v.run r)) := by
  obtain ⟨ns, q, refused⟩ := r
  have hkept : (v.options o).kept ((ns ++ o.kept refused.toList).map v.node) =
      (v.options o).kept (ns.map v.node ++ (v.options o).kept (refused.map v.node).toList) := by
    unfold Options.kept
    by_cases hb : (v.options o).includeFailed = true
    · rw [if_pos hb, if_pos hb, if_pos hb, if_pos (hv.adds_none _ ho hb), List.map_append]
      cases refused <;> rfl
    · rw [if_neg hb, if_neg hb]
  have hm :=
    hv.matched o .repetition (joinText i p q ns) p q [] ns refused.toList ho (by simp) hr.matched hr.refused
  simp only [Options.kept_nil, List.nil_append, List.map_nil] at hm
  have hlist : (refused.map v.node).toList = refused.toList.map v.node := by cases refused <;> rfl
  simp only [Scope.closeRepetition, View.run, List.length_map]
  split
  · exact hv.sees_refuse ho _ _ _ _ hkept
  · split
    · exact hv.sees_refuse ho _ _ _ _ hkept
    · refine .inr ?_
      show _ = Except.ok (v.node _)
      rw [hlist]
      show Except.ok (Node.matched _ (joinText i p q (ns.map v.node)) _ _ _) = _
      rw [hv.text_join]
      exact congrArg Except.ok hm.symm

theorem optional_eq (p : Nat) (n : Node) :
    (Scope.plain i (v.options o)).closeOptional p (v.node n) = v.node ((Scope.plain i o).closeOptional p n) := by
  unfold Scope.closeOptional
  rw [hv.stop]
  cases hs : n.stop with
  | some q =>
    have hn : ∀ m ∈ [n], m.stop ≠ none := by simp [hs]
    simp only [hv.text]
    exact (hv.row ho .optional n.text p q hn).symm
  | none =>
    have hm := hv.matched o .optional [] p p [n] [] [] ho (by simp [hs]) (by simp) (by simp)
    simp only [Options.kept_nil, List.append_nil, List.map_nil, List.map_cons] at hm
    exact hm.symm

theorem sees_rule (name : String) (p : Nat) (tree : Node) :
    v.Sees E (closeRule i o a name p tree) (closeRule i (v.options o) (v.asserted a) name p (v.node tree)) := by
  unfold closeRule
  rw [hv.stop]
  cases hs : tree.stop with
  | some q =>
    refine .inr ?_
    show _ = Except.ok (v.node _)
    rw [hv.row ho _ _ _ _ (by simp [hs])]
    simp only [hv.text, List.map_cons, List.map_nil]
  | none => exact hv.sees_refuse ho _ _ _ _ rfl

end

end View.Fair

/-! ## What is seen of evaluations -/

namespace Eval

variable {σ τ α β γ : Type} {E : Fault → Prop} {P Q R D : σ → τ → Prop}

theorem map_apply (f : α → β) (x : Eval σ α) (s : σ) : (f <$> x) s = ((x s).1.map f, (x s).2) := by
  show ExceptT.bindCont (m := StateM σ) _ (x s).1 (x s).2 = _
  cases (x s).1 <;> rfl

theorem map_ensuring (f : α → β) (x : Eval σ α) (cleanup : Eval σ Unit) :
    f <$> x.ensuring cleanup = (f <$> x).ensuring cleanup := by
  funext s
  unfold ensuring
  simp only [map_apply, bind_apply, attempt_apply]
  rcases cleanup (x s).2 with ⟨_ | _, s'⟩
  · rfl
  · rfl

/-- What is seen of a value determines how the second evaluation goes on. -/
theorem Refines.bind_map {f : α → β} {v : Eval σ α} {w : Eval τ β} {x : α → Eval σ γ} {y : β → Eval τ γ}
    (hv : Refines E P (f <$> v) w R D)
    (hx : ∀ a, (∃ s t, P s t ∧ (v s).1 = .ok a) → Refines E R (x a) (y (f a)) Q D) :
    Refines E P (v >>= x) (w >>= y) Q D := by
  intro s t hst
  have h := hv s t hst
  have ha : ∀ a, (v s).1 = .ok a → Refines E R (x a) (y (f a)) Q D := fun a ha => hx a ⟨s, t, hst, ha⟩
  rw [map_apply] at h
  rw [bind_apply, bind_apply]
  generalize v s = a at h ha ⊢
  generalize w t = b at h ⊢
  obtain ⟨r, s'⟩ := a
  cases r with
  | error e =>
    cases h with
    | excused hf => exact .excused hf
    | error h => exact .error h
  | ok a =>
    cases h with
    | ok h => exact ha a rfl _ _ h

theorem Triple.any (x : Eval σ α) : Triple (fun _ => True) x (fun _ _ => True) (fun _ _ => True) := by
  intro s _
  rcases x s with ⟨_ | _, _⟩ <;> trivial

end Eval

/-! ## Expressions -/

section
variable {σ : Type} (s : Scope σ)

theorem evalRow_proper (es : List Expr) (p : Nat) :
    Triple (fun _ => True) (Expr.evalRow s es p) (fun r _ => r.Proper) (fun _ _ => True) := by
  induction es generalizing p with
  | nil =>
    unfold Expr.evalRow
    exact .pure fun _ _ => ⟨by simp, by simp⟩
  | cons e es ih =>
    unfold Expr.evalRow
    refine (Triple.any _).bind fun n => ?_
    cases hs : n.stop with
    | none => exact .pure fun _ _ => ⟨by simp, by simpa using hs⟩
    | some stop =>
      refine (ih stop).bind fun r => .pure fun _ hr => ⟨?_, hr.refused⟩
      exact List.forall_mem_cons.2 ⟨by simp [hs], hr.matched⟩

theorem evalAny_proper (es : List Expr) (p : Nat) :
    Triple (fun _ => True) (Expr.evalAny s es p) (fun t _ => t.Proper) (fun _ _ => True) := by
  induction es with
  | nil =>
    unfold Expr.evalAny
    exact .pure fun _ _ => ⟨by simp, by simp⟩
  | cons e es ih =>
    unfold Expr.evalAny
    refine (Triple.any _).bind fun n => ?_
    cases hs : n.stop with
    | none =>
      simp only [Node.isFailed, hs, Option.isNone_none, if_true]
      refine ih.bind fun t => .pure fun _ ht => ⟨?_, ht.chosen⟩
      exact List.forall_mem_cons.2 ⟨hs, ht.failed⟩
    | some stop =>
      simp only [Node.isFailed, hs, Option.isNone_some, Bool.false_eq_true, if_false]
      exact .pure fun _ _ => ⟨by simp, by simp [hs]⟩

theorem repeatRun_proper (item : Nat → Eval σ Node) : ∀ (fuel place : Nat) (done : List Node),
    (∀ n ∈ done, n.stop ≠ none) →
    Triple (fun _ => True) (s.repeatRun item fuel place done) (fun r _ => r.Proper) (fun _ _ => True)
  | 0, _, _, _ => .throw fun _ _ => trivial
  | fuel + 1, place, done, hdone => by
    unfold Scope.repeatRun
    refine (Triple.any _).bind fun n => ?_
    cases hs : n.stop with
    | none => exact .pure fun _ _ => ⟨by simpa using hdone, by simpa using hs⟩
    | some stop =>
      have hmore : ∀ m ∈ n :: done, m.stop ≠ none := List.forall_mem_cons.2 ⟨by simp [hs], hdone⟩
      dsimp only
      split
      · exact .pure fun _ _ => ⟨fun m hm => hmore m (List.mem_reverse.1 hm), by simp⟩
      · exact repeatRun_proper item fuel stop (n :: done) hmore

end

namespace View

variable {v : View} {K : Bool → Prop} {E : Fault → Prop} {σ τ : Type} {R : σ → τ → Prop} {i : Input} {o : Options}
  {refer : Bool → String → Nat → Eval σ Node} {refer' : Bool → String → Nat → Eval τ Node}

theorem Sees.refines {r r' : Except Fault Node} (h : v.Sees E r r') :
    Refines E R (v.node <$> .ofExcept r) (.ofExcept r') R R := by
  intro s t hst
  rw [map_apply, ofExcept_apply, ofExcept_apply]
  rcases h with ⟨f, rfl, hf⟩ | rfl
  · exact .excused hf
  · cases r with
    | ok n => exact .ok hst
    | error f => exact .error hst

theorem Fair.repeatRun (hv : v.Fair K E) {item : Nat → Eval σ Node} {item' : Nat → Eval τ Node}
    (hi : ∀ p, Refines E R (v.node <$> item p) (item' p) R R) :
    ∀ (fuel place : Nat) (done : List Node),
      Refines E R (v.run <$> Scope.repeatRun ⟨i, o, refer⟩ item fuel place done)
        (Scope.repeatRun ⟨i, v.options o, refer'⟩ item' fuel place (done.map v.node)) R R
  | 0, _, _ => .throw _ fun _ _ h => h
  | fuel + 1, place, done => by
    unfold Scope.repeatRun
    rw [map_bind]
    refine (hi (i.skip o place)).bind_map fun n _ => ?_
    rw [hv.stop]
    cases n.stop with
    | none =>
      dsimp only
      rw [← List.map_reverse]
      exact .pure _ fun _ _ h => h
    | some stop =>
      dsimp only
      by_cases he : stop = Scope.skip ⟨i, o, refer⟩ place
      · have he' : stop = Scope.skip ⟨i, v.options o, refer'⟩ place := he
        rw [if_pos he, if_pos he', ← List.map_cons, ← List.map_reverse]
        exact .pure _ fun _ _ h => h
      · have he' : stop ≠ Scope.skip ⟨i, v.options o, refer'⟩ place := he
        rw [if_neg he, if_neg he']
        exact hv.repeatRun hi fuel stop (n :: done)

mutual
theorem Fair.eval (hv : v.Fair K E) (ho : K o.includeFailed)
    (hr : ∀ a name p, Refines E R (v.node <$> refer a name p) (refer' (v.asserted a) name p) R R)
    (e : Expr) (p : Nat) :
    Refines E R (v.node <$> e.eval ⟨i, o, refer⟩ p) ((v.expr e).eval ⟨i, v.options o, refer'⟩ p) R R := by
  cases e with
  | literal a ms c =>
    unfold expr Expr.mapAsserted Expr.eval
    exact (hv.sees_literal ho ms c p).refines
  | sequence a items =>
    unfold expr Expr.mapAsserted Expr.eval
    rw [map_bind]
    refine (Fair.evalRow hv ho hr items p).bind_map fun r ⟨s, _, _, hs⟩ => ?_
    exact (hv.sees_sequence ho items p ((evalRow_proper _ _ _).ok trivial hs)).refines
  | choice a items =>
    unfold expr Expr.mapAsserted Expr.eval
    rw [map_bind]
    refine (Fair.evalAny hv ho hr items _).bind_map fun t ⟨s, _, _, hs⟩ => ?_
    exact (hv.sees_choice ho p _ ((evalAny_proper _ _ _).ok trivial hs)).refines
  | repetition a low high item =>
    unfold expr Expr.mapAsserted Expr.eval
    rw [map_bind]
    refine (hv.repeatRun (fun q => Fair.eval hv ho hr item q) _ _ []).bind_map fun r ⟨s, _, _, hs⟩ => ?_
    exact (hv.sees_repetition ho low high p ((repeatRun_proper _ _ _ _ _ (by simp)).ok trivial hs)).refines
  | optional a item =>
    unfold expr Expr.mapAsserted Expr.eval
    rw [map_bind]
    refine (Fair.eval hv ho hr item p).bind_map fun n _ => ?_
    rw [map_pure]
    show Refines E R (pure (v.node ((Scope.plain i o).closeOptional p n)))
      (pure ((Scope.plain i (v.options o)).closeOptional p (v.node n))) R R
    rw [hv.optional_eq ho]
    exact .pure _ fun _ _ h => h
  | endOfLine a =>
    unfold expr Expr.mapAsserted Expr.eval
    exact (hv.sees_endOfLine ho p).refines
  | endOfInput a =>
    unfold expr Expr.mapAsserted Expr.eval
    exact (hv.sees_endOfInput ho p).refines
  | rule a name =>
    unfold expr Expr.mapAsserted Expr.eval
    exact hr a name p
  | placeholder a name =>
    unfold expr Expr.mapAsserted Expr.eval
    exact .throw _ fun _ _ h => h
theorem Fair.evalRow (hv : v.Fair K E) (ho : K o.includeFailed)
    (hr : ∀ a name p, Refines E R (v.node <$> refer a name p) (refer' (v.asserted a) name p) R R) (es : List Expr)
    (p : Nat) : Refines E R (v.run <$> Expr.evalRow ⟨i, o, refer⟩ es p)
      (Expr.evalRow ⟨i, v.options o, refer'⟩ (v.exprs es) p) R R := by
  cases es with
  | nil =>
    unfold exprs Expr.mapAssertedList Expr.evalRow
    exact .pure _ fun _ _ h => h
  | cons e es =>
    unfold exprs Expr.mapAssertedList Expr.evalRow
    rw [map_bind]
    refine (Fair.eval hv ho hr e _).bind_map fun n _ => ?_
    rw [hv.stop]
    cases n.stop with
    | none => exact .pure _ fun _ _ h => h
    | some stop =>
      dsimp only
      rw [map_bind]
      exact (Fair.evalRow hv ho hr es stop).bind_map fun r _ => .pure _ fun _ _ h => h
theorem Fair.evalAny (hv : v.Fair K E) (ho : K o.includeFailed)
    (hr : ∀ a name p, Refines E R (v.node <$> refer a name p) (refer' (v.asserted a) name p) R R) (es : List Expr)
    (p : Nat) : Refines E R (v.trial <$> Expr.evalAny ⟨i, o, refer⟩ es p)
      (Expr.evalAny ⟨i, v.options o, refer'⟩ (v.exprs es) p) R R := by
  cases es with
  | nil =>
    unfold exprs Expr.mapAssertedList Expr.evalAny
    exact .pure _ fun _ _ h => h
  | cons e es =>
    unfold exprs Expr.mapAssertedList Expr.evalAny
    rw [map_bind]
    refine (Fair.eval hv ho hr e p).bind_map fun n _ => ?_
    have hf : (v.node n).isFailed = n.isFailed := by rw [Node.isFailed, hv.stop, Node.isFailed]
    rw [hf]
    cases n.isFailed with
    | true =>
      simp only [if_true, map_bind]
      exact (Fair.evalAny hv ho hr es p).bind_map fun t _ => .pure _ fun _ _ h => h
    | false => exact .pure _ fun _ _ h => h
end

end View

/-! ## Rules -/

namespace View

variable {v : View} {K : Bool → Prop} {E : Fault → Prop} {g : Grammar} {i : Input} {o : Options}

/-- The overrides of rules do not interfere with the view. -/
def Apart (v : View) (K : Bool → Prop) (g : Grammar) : Prop :=
  ∀ decl ∈ g.rules, ∀ o, K o.includeFailed →
    v.options (decl.overrides.apply o) = decl.overrides.apply (v.options o) ∧
      K (decl.overrides.apply o).includeFailed

/-- Two sessions over a grammar and the changed one, with the same rules in progress. -/
structure Pair (v : View) (K : Bool → Prop) (g : Grammar) (s t : Session) : Prop where
  left : s.Sound g s.active
  right : t.Sound (v.grammar g) t.active
  active : t.active = s.active.map v.frame
  kept : ∀ f ∈ s.active, K f.options.includeFailed

theorem find_grammar (v : View) (g : Grammar) (name : String) :
    (v.grammar g).find name = (g.find name).map v.rule := by
  have hfind : (v.grammar g).rule? name = (g.rule? name).map v.decl := by
    show (g.rules.map v.decl).find? _ = _
    rw [List.find?_map]
    rfl
  unfold Grammar.find
  rw [hfind]
  cases g.rule? name with
  | none => rfl
  | some decl =>
    show Except.mapError Fault.error ((v.grammar g).build (v.decl decl)) =
      (Except.mapError Fault.error (g.build decl)).map v.rule
    unfold Grammar.build
    show Except.mapError _ (Except.map _ (Except.map v.expr (decl.body g.token?))) = _
    cases decl.body g.token? <;> rfl

theorem rule_refines (name : String) :
    Refines E (v.Pair K g) (v.rule <$> Session.rule g name) (Session.rule (v.grammar g) name)
      (v.Pair K g) (v.Pair K g) := by
  intro s t hst
  obtain ⟨s', hs, hsound⟩ := hst.left.rule_apply name
  obtain ⟨t', ht, htsound⟩ := hst.right.rule_apply name
  have hpair : v.Pair K g s' t' :=
    ⟨hsound.active ▸ hsound, htsound.active ▸ htsound, by rw [htsound.active, hsound.active, hst.active],
      hsound.active ▸ hst.kept⟩
  rw [map_apply, hs, ht, find_grammar]
  cases g.find name with
  | ok rule => exact .ok hpair
  | error f => exact .error hpair

theorem Fair.frame_injective (hv : v.Fair K E) {f f' : Frame} (hf : K f.options.includeFailed)
    (hf' : K f'.options.includeFailed) (h : v.frame f = v.frame f') : f = f' := by
  obtain ⟨name, p, o⟩ := f
  obtain ⟨name', p', o'⟩ := f'
  simp only [frame, View.options, Frame.mk.injEq, Options.mk.injEq] at h
  obtain ⟨rfl, rfl, hs, hw, hc, hi, ht, hd⟩ := h
  have hi := hv.injective _ _ hf hf' hi
  cases o
  cases o'
  simp_all

/-- A frame is in progress if what is seen of it is. -/
theorem Fair.inProgress_map (hv : v.Fair K E) {st : List Frame} {f : Frame}
    (hst : ∀ f ∈ st, K f.options.includeFailed)
    (hf : K f.options.includeFailed) : inProgress (st.map v.frame) (v.frame f) = inProgress st f :=
  PegTree.inProgress_map (fun _ => Iff.rfl) fun f' hm he => hv.frame_injective (hst f' hm) hf he

theorem Fair.enter (hv : v.Fair K E) {f : Frame} (hf : K f.options.includeFailed) :
    Refines E (v.Pair K g) (Session.enter f) (Session.enter (v.frame f)) (v.Pair K g) (v.Pair K g) := by
  intro s t hst
  rw [Session.enter_apply, Session.enter_apply, hst.active, hv.inProgress_map hst.kept hf]
  cases inProgress s.active f with
  | true => exact .error hst
  | false =>
    exact .ok ⟨⟨rfl, hst.left.cache⟩, ⟨rfl, hst.right.cache⟩, rfl, List.forall_mem_cons.2 ⟨hf, hst.kept⟩⟩

theorem exit_refines :
    Refines (fun _ => False) (v.Pair K g) Session.exit Session.exit (v.Pair K g) (v.Pair K g) := by
  intro s t hst
  refine .ok ⟨⟨rfl, hst.left.cache⟩, ⟨rfl, hst.right.cache⟩, ?_, fun f hf => hst.kept f (List.mem_of_mem_tail hf)⟩
  show t.active.tail = s.active.tail.map v.frame
  rw [hst.active, List.map_tail]

theorem Fair.callRule (hv : v.Fair K E) (hg : v.Apart K g) : ∀ (fuel : Nat) (o : Options), K o.includeFailed →
    ∀ (depth : Nat) (a : Bool) (name : String) (p : Nat),
      Refines E (v.Pair K g) (v.node <$> callRule (Session.host g) i fuel o depth a name p)
        (callRule (Session.host (v.grammar g)) i fuel (v.options o) depth (v.asserted a) name p)
        (v.Pair K g) (v.Pair K g)
  | 0, _, _, _, _, _, _ => .throw _ fun _ _ h => h
  | fuel + 1, o, ho, depth, a, name, p => by
    rw [callRule_succ, callRule_succ, map_bind]
    refine (rule_refines name).bind_map fun rule ⟨s, t, hst, hrule⟩ => ?_
    have hd : g.Declares name rule := by
      obtain ⟨s', hs', _⟩ := hst.left.rule_apply name
      have hfind : (Session.rule g name s).1 = .ok rule := hrule
      rw [hs'] at hfind
      exact Grammar.find_eq_ok.1 hfind
    obtain ⟨_, decl, hdecl, _, hover⟩ := hd.decl
    obtain ⟨hopts, hkept⟩ := hg decl hdecl o ho
    rw [← hover] at hopts hkept
    rw [map_bind]
    refine (checkDepth_refines rfl (depth + 1)).bind fun _ => ?_
    rw [map_bind]
    refine (hv.enter (f := ⟨rule.name, p, o⟩) ho).bind fun _ => ?_
    rw [map_bind]
    refine Refines.bind_map (f := v.node) (R := v.Pair K g) ?_ fun tree _ =>
      (hv.sees_rule ho rule.name p tree).refines
    rw [map_ensuring]
    refine Refines.ensuring ?_ (fun _ => rfl) exit_refines exit_refines
    show Refines E _ _ ((v.expr rule.body).eval
      ((Session.host (v.grammar g)).scope i fuel (rule.overrides.apply (v.options o)) (depth + 1)) p) _ _
    -- what is seen of the options of the body is what the overrides make of the options that are seen
    rw [← hopts]
    exact hv.eval hkept (fun a name q => hv.callRule hg fuel _ hkept (depth + 1) a name q) rule.body p

/-! ## Answers -/

theorem nestingBound_grammar (v : View) (g : Grammar) (i : Input) :
    (v.grammar g).nestingBound i = g.nestingBound i := by
  unfold Grammar.nestingBound
  have hlen : (v.grammar g).rules.length = g.rules.length := List.length_map _
  rw [hlen]

theorem pair_after (v : View) (K : Bool → Prop) (g : Grammar) (calls calls' : List Call) (st : List Frame)
    (hst : ∀ f ∈ st, K f.options.includeFailed) :
    v.Pair K g { g.after calls with active := st }
      { (v.grammar g).after calls' with active := st.map v.frame } :=
  ⟨g.resumed_sound calls st, (v.grammar g).resumed_sound calls' _, rfl, hst⟩

theorem pair_start (v : View) (K : Bool → Prop) (g : Grammar) (calls calls' : List Call) :
    v.Pair K g (g.after calls) ((v.grammar g).after calls') := by
  have h := v.pair_after K g calls calls' [] (List.forall_mem_nil _)
  rwa [List.map_nil, Grammar.resumed_idle, Grammar.resumed_idle] at h

theorem Fair.eval_eq (hv : v.Fair K E) (hg : v.Apart K g) (ho : K o.includeFailed) (e : Expr) (depth p : Nat)
    {s t : Session} (hst : v.Pair K g s t) (hE : ∀ f, (e.eval (g.scope i o depth) p s).1 = .error f → ¬ E f) :
    ((v.expr e).eval ((v.grammar g).scope i (v.options o) depth) p t).1 =
      (e.eval (g.scope i o depth) p s).1.map v.node := by
  have hr : Refines E (v.Pair K g) (v.node <$> e.eval (g.scope i o depth) p)
      ((v.expr e).eval ((v.grammar g).scope i (v.options o) depth) p) (v.Pair K g) (v.Pair K g) := by
    refine hv.eval ho (fun a name q => ?_) e p
    rw [v.nestingBound_grammar]
    exact hv.callRule hg _ o ho depth a name q
  have hmap : (v.node <$> e.eval (g.scope i o depth) p : Eval Session Node) s =
      (((e.eval (g.scope i o depth) p s).1.map v.node), (e.eval (g.scope i o depth) p s).2) := map_apply _ _ _
  have h := hr.same hst fun f hf => by
    rw [hmap] at hf
    cases hx : (e.eval (g.scope i o depth) p s).1 with
    | ok n => rw [hx] at hf; cases hf
    | error f' =>
      rw [hx] at hf
      cases hf
      exact hE _ hx
  rw [h.1, hmap]

theorem Fair.evaluate_eq (hv : v.Fair K E) (hg : v.Apart K g) (ho : K g.options.includeFailed)
    (ha : v.asserted false = false) (calls calls' : List Call) (name : String) (t : Text)
    (hE : ∀ f, (g.evaluate name t (g.after calls)).1 = .error f → ¬ E f) :
    ((v.grammar g).evaluate name t ((v.grammar g).after calls')).1 =
      (g.evaluate name t (g.after calls)).1.map v.node := by
  have hname : v.expr (.ref name) = .ref name := congrArg (Expr.rule · name) ha
  have h := hv.eval_eq hg ho (.ref name) 0 0 (v.pair_start K g calls calls') hE
  rw [hname] at h
  exact h

end View

end PegTree
