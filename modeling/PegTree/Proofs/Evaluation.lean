import PegTree.Proofs.Derivation
import PegTree.Proofs.Triple

/-!
# What evaluations give

Evaluations keep an invariant of the state, give derived nodes only, and stop with foreseen faults
only, if references do. Rules do so if their host does; the invariant may depend on the rules in
progress, and the fuel may be known to last.
-/

namespace PegTree

open Eval

variable {σ : Type} {g : Grammar}

/-! ## Expressions -/

/-- References keep `I`, give derived nodes and stop with faults in `err`, from `low` on. -/
structure Scope.Sound (s : Scope σ) (g : Grammar) (I : σ → Prop) (err : Fault → Prop) (low : Nat) : Prop where
  refer : ∀ a name p, low ≤ p → s.input.isBoundary p = true →
    Triple I (s.refer a name p) (fun n t => I t ∧ Derives g s.input s.options (.rule a name) p n)
      (fun f t => I t ∧ err f)
  parse : ∀ p message, low ≤ p → s.input.isBoundary p = true → err (.error (.parse ⟨p, message, s.input⟩))
  unresolved : ∀ name, err (.error (.unresolved name))

section
variable {s : Scope σ} {I : σ → Prop} {err : Fault → Prop} {low : Nat}

theorem Scope.Sound.close (hs : s.Sound g I err low) {x : Except Fault Node} {R : Node → Prop}
    (hok : ∀ n, x = .ok n → R n)
    (herr : ∀ f, x = .error f → ∃ p message, low ≤ p ∧ s.input.isBoundary p = true ∧
      f = .error (.parse ⟨p, message, s.input⟩)) :
    Triple I (.ofExcept x) (fun n t => I t ∧ R n) (fun f t => I t ∧ err f) := by
  refine .ofExcept (fun n hn t ht => ⟨ht, hok n hn⟩) ?_
  intro f hf t ht
  obtain ⟨p, message, hl, hp, rfl⟩ := herr f hf
  exact ⟨ht, hs.parse p message hl hp⟩

theorem repeatRun_triple {item : Nat → Eval σ Node} {e : Expr}
    (hitem : ∀ p, low ≤ p → s.input.isBoundary p = true →
      Triple I (item p) (fun n t => I t ∧ Derives g s.input s.options e p n) (fun f t => I t ∧ err f)) :
    ∀ (fuel place : Nat) (done : List Node), low ≤ place → s.input.isBoundary place = true →
      s.input.size < fuel + place →
      Triple I (s.repeatRun item fuel place done)
        (fun run t => I t ∧ ∃ r, DerivesLoop g s.input s.options e place r ∧
          run = { r with matched := done.reverse ++ r.matched })
        (fun f t => I t ∧ err f)
  | 0, place, _, _, hp, hf => by
    have := Input.le_size_of_isBoundary hp
    omega
  | fuel + 1, place, done, hl, hp, hf => by
    have hq := Input.skip_boundary s.options hp
    have hle := Input.le_skip s.options hp
    unfold Scope.repeatRun
    refine (hitem _ (Nat.le_trans hl hle) hq).bind fun n => .of_fact ?_
    intro hn
    cases hstop : n.stop with
    | none => exact .pure fun t ht => ⟨ht, _, .refused hn hstop, by simp⟩
    | some stop =>
      obtain ⟨hqs, hb⟩ := hn.stop_boundary hq hstop
      by_cases he : stop = s.skip place
      · simp only [if_pos he]
        subst he
        exact .pure fun t ht => ⟨ht, ⟨[n], s.skip place, none⟩, .still hn hstop, by simp⟩
      · simp only [if_neg he]
        -- a match that moves on leaves fewer places than there is fuel for
        have hlt : s.skip place < stop := Nat.lt_of_le_of_ne hqs (Ne.symm he)
        have hplace : place < stop := Nat.lt_of_le_of_lt hle hlt
        refine (repeatRun_triple hitem fuel stop (n :: done) (by omega) hb (by omega)).conseq
          (fun _ h => h) ?_ fun _ _ h => h
        rintro run t ⟨ht, r, hr, rfl⟩
        exact ⟨ht, _, .cons hn hstop he hr, by simp⟩

/-- Applied again and again, an item stops with no faults but its own. -/
theorem repeatRun_stops (hx : err .exhausted) {item : Nat → Eval σ Node}
    (hitem : ∀ p, Triple I (item p) (fun _ => I) (fun f t => I t ∧ err f)) :
    ∀ (fuel place : Nat) (done : List Node),
      Triple I (s.repeatRun item fuel place done) (fun _ => I) (fun f t => I t ∧ err f)
  | 0, _, _ => .throw fun _ ht => ⟨ht, hx⟩
  | fuel + 1, place, done => by
    unfold Scope.repeatRun
    refine (hitem _).bind fun n => ?_
    cases n.stop with
    | none => exact .pure fun _ ht => ht
    | some stop =>
      dsimp only
      split
      · exact .pure fun _ ht => ht
      · exact repeatRun_stops hx hitem fuel stop (n :: done)

mutual
theorem Scope.Sound.eval (hs : s.Sound g I err low) (e : Expr) {p : Nat} (hl : low ≤ p)
    (hp : s.input.isBoundary p = true) :
    Triple I (e.eval s p) (fun n t => I t ∧ Derives g s.input s.options e p n) (fun f t => I t ∧ err f) := by
  have hq := Input.skip_boundary s.options hp
  have hle := Nat.le_trans hl (Input.le_skip s.options hp)
  cases e with
  | literal a ms c =>
    unfold Expr.eval
    refine hs.close (fun n hn => .literal hn) ?_
    intro f hf
    obtain ⟨message, rfl⟩ := s.literal_error hp hf
    exact ⟨_, _, hle, hq, rfl⟩
  | sequence a items =>
    unfold Expr.eval
    refine (hs.evalRow items hl hp).bind fun run => .of_fact ?_
    intro hr
    refine hs.close (fun n hn => .sequence hr hn) ?_
    intro f hf
    obtain ⟨message, rfl⟩ := Scope.closeSequence_error hf
    have hrun := hr.laid (g.blanks_all _) hp
    have hb := hrun.boundary
    exact ⟨_, _, Nat.le_trans hl (Nat.le_trans hrun.le (Input.le_skip _ hb)), Input.skip_boundary _ hb, rfl⟩
  | choice a items =>
    unfold Expr.eval
    refine (hs.evalAny items hle hq).bind fun trial => .of_fact ?_
    intro ht
    refine hs.close (fun n hn => .choice ht hn) ?_
    intro f hf
    obtain ⟨message, rfl⟩ := Scope.closeChoice_error hf
    exact ⟨_, _, hle, hq, rfl⟩
  | repetition a low' high item =>
    unfold Expr.eval
    have hitem := repeatRun_triple (fun _ hl hp => hs.eval item hl hp) (s.input.size + 1) p [] hl hp (by omega)
    refine hitem.bind fun run => .of_fact ?_
    rintro ⟨r, hr, rfl⟩
    refine hs.close (fun n hn => .repetition hr hn) ?_
    intro f hf
    obtain ⟨message, rfl⟩ := Scope.closeRepetition_error hf
    have hrun := hr.laid (g.blanks_all _) hp
    exact ⟨_, _, Nat.le_trans hl hrun.le, hrun.boundary, rfl⟩
  | optional a item =>
    unfold Expr.eval
    exact (hs.eval item hl hp).bind fun n => .of_fact fun hn => .pure fun t ht => ⟨ht, .optional hn⟩
  | endOfLine a =>
    unfold Expr.eval
    refine hs.close (fun n hn => .endOfLine hn) ?_
    intro f hf
    obtain ⟨message, rfl⟩ := s.endOfLine_error hp hf
    exact ⟨_, _, hl, hp, rfl⟩
  | endOfInput a =>
    unfold Expr.eval
    refine hs.close (fun n hn => .endOfInput hn) ?_
    intro f hf
    obtain ⟨message, rfl⟩ := s.endOfInput_error hf
    exact ⟨_, _, hle, hq, rfl⟩
  | rule a name =>
    unfold Expr.eval
    exact hs.refer a name p hl hp
  | placeholder a name =>
    unfold Expr.eval
    exact .throw fun t ht => ⟨ht, hs.unresolved name⟩
theorem Scope.Sound.evalRow (hs : s.Sound g I err low) (es : List Expr) {p : Nat} (hl : low ≤ p)
    (hp : s.input.isBoundary p = true) :
    Triple I (Expr.evalRow s es p) (fun run t => I t ∧ DerivesRow g s.input s.options es p run)
      (fun f t => I t ∧ err f) := by
  cases es with
  | nil =>
    unfold Expr.evalRow
    exact .pure fun t ht => ⟨ht, .nil⟩
  | cons e es =>
    have hq := Input.skip_boundary s.options hp
    have hle := Nat.le_trans hl (Input.le_skip s.options hp)
    unfold Expr.evalRow
    refine (hs.eval e hle hq).bind fun n => .of_fact ?_
    intro hn
    cases hstop : n.stop with
    | none => exact .pure fun t ht => ⟨ht, .refused hn hstop⟩
    | some stop =>
      obtain ⟨hqs, hb⟩ := hn.stop_boundary hq hstop
      refine (hs.evalRow es (Nat.le_trans hle hqs) hb).bind fun run => .of_fact ?_
      intro hr
      exact .pure fun t ht => ⟨ht, .cons hn hstop hr⟩
theorem Scope.Sound.evalAny (hs : s.Sound g I err low) (es : List Expr) {p : Nat} (hl : low ≤ p)
    (hp : s.input.isBoundary p = true) :
    Triple I (Expr.evalAny s es p) (fun trial t => I t ∧ DerivesAny g s.input s.options es p trial)
      (fun f t => I t ∧ err f) := by
  cases es with
  | nil =>
    unfold Expr.evalAny
    exact .pure fun t ht => ⟨ht, .nil⟩
  | cons e es =>
    unfold Expr.evalAny
    refine (hs.eval e hl hp).bind fun n => .of_fact ?_
    intro hn
    cases hstop : n.stop with
    | none =>
      simp only [Node.isFailed, hstop, Option.isNone_none, if_true]
      refine (hs.evalAny es hl hp).bind fun trial => .of_fact ?_
      intro ht
      exact .pure fun t h => ⟨h, .failed hn hstop ht⟩
    | some stop =>
      simp only [Node.isFailed, hstop, Option.isNone_some, Bool.false_eq_true, if_false]
      exact .pure fun t h => ⟨h, .chosen hn hstop⟩
end

end

/-! ## Rules -/

def checkDepth (o : Options) (depth : Nat) : Eval σ Unit :=
  if o.maxDepth.any (· < depth) then throw (.error (.recursionLimit depth)) else pure ()

theorem checkDepth_of_le {o : Options} {depth : Nat} (h : ∀ n, o.maxDepth = some n → depth ≤ n) :
    (checkDepth o depth : Eval σ Unit) = pure () := by
  unfold checkDepth
  cases hm : o.maxDepth with
  | none => rfl
  | some n =>
    have hle : ¬ n < depth := Nat.not_lt.2 (h n hm)
    simp [hle]

theorem checkDepth_of_lt {o : Options} {n depth : Nat} (hm : o.maxDepth = some n) (h : n < depth) :
    (checkDepth o depth : Eval σ Unit) = throw (.error (.recursionLimit depth)) := by
  unfold checkDepth
  simp [hm, h]

theorem checkDepth_triple {I : σ → Prop} {err : Fault → Prop} (o : Options) {depth : Nat}
    (h : err (.error (.recursionLimit depth))) :
    Triple I (checkDepth o depth) (fun _ => I) (fun f t => I t ∧ err f) := by
  unfold checkDepth
  split
  · exact .throw fun _ ht => ⟨ht, h⟩
  · exact .pure fun _ ht => ht

def Host.scope (h : Host σ) (i : Input) (fuel : Nat) (o : Options) (depth : Nat) : Scope σ :=
  ⟨i, o, callRule h i fuel o depth⟩

theorem callRule_succ (h : Host σ) (i : Input) (fuel : Nat) (o : Options) (depth : Nat) (a : Bool)
    (name : String) (p : Nat) :
    callRule h i (fuel + 1) o depth a name p = (do
      let rule ← h.rule name
      checkDepth o (depth + 1)
      h.enter ⟨rule.name, p, o⟩
      let tree ← (rule.body.eval (h.scope i fuel (rule.overrides.apply o) (depth + 1)) p).ensuring h.exit
      .ofExcept (closeRule i o a rule.name p tree)) := by
  simp only [callRule, checkDepth, ensuring, Host.scope, bind_assoc]
  congr 1
  funext rule
  split
  · rfl
  · simp

/-- A host keeps `I` for the rules in progress and supplies declared rules. `Fit fuel o st p` is
what is known where a reference is evaluated at `p` under `o` with the rules `st` in progress. -/
structure Host.Sound (h : Host σ) (g : Grammar) (i : Input) (I : List Frame → σ → Prop) (err : Fault → Prop)
    (Fit : Nat → Options → List Frame → Nat → Prop) : Prop where
  rule : ∀ st name, Triple (I st) (h.rule name) (fun rule t => I st t ∧ g.Declares name rule)
    (fun f t => I st t ∧ err f)
  enter : ∀ fuel o st p name rule, Fit (fuel + 1) o st p → i.isBoundary p = true → g.Declares name rule →
    Triple (I st) (h.enter ⟨rule.name, p, o⟩)
      (fun _ t => I (⟨rule.name, p, o⟩ :: st) t ∧ ∀ q, p ≤ q → i.isBoundary q = true →
        Fit fuel (rule.overrides.apply o) (⟨rule.name, p, o⟩ :: st) q)
      (fun f t => I st t ∧ err f)
  exit : ∀ frame st, Triple (I (frame :: st)) h.exit (fun _ => I st) (fun _ _ => False)
  exhausted : ∀ o st p, Fit 0 o st p → err .exhausted
  limit : ∀ depth, err (.error (.recursionLimit depth))
  parse : ∀ p message, i.isBoundary p = true → err (.error (.parse ⟨p, message, i⟩))
  unresolved : ∀ name, err (.error (.unresolved name))

section
variable {h : Host σ} {i : Input} {I : List Frame → σ → Prop} {err : Fault → Prop}
  {Fit : Nat → Options → List Frame → Nat → Prop} (hh : h.Sound g i I err Fit)
include hh

theorem Host.Sound.callRule : ∀ (fuel : Nat) (o : Options) (st : List Frame) (depth : Nat) (a : Bool)
    (name : String) (p : Nat), Fit fuel o st p → i.isBoundary p = true →
    Triple (I st) (callRule h i fuel o depth a name p)
      (fun n t => I st t ∧ Derives g i o (.rule a name) p n) (fun f t => I st t ∧ err f)
  | 0, o, st, _, _, _, p, hfit, _ => .throw fun _ ht => ⟨ht, hh.exhausted o st p hfit⟩
  | fuel + 1, o, st, depth, a, name, p, hfit, hp => by
    rw [callRule_succ]
    refine (hh.rule st name).bind fun rule => .of_fact ?_
    intro hd
    refine (checkDepth_triple o (hh.limit _)).bind fun _ => ?_
    refine (hh.enter fuel o st p name rule hfit hp hd).bind fun _ => .of_fact ?_
    intro hbody
    have hscope : (h.scope i fuel (rule.overrides.apply o) (depth + 1)).Sound g
        (I (⟨rule.name, p, o⟩ :: st)) err p :=
      ⟨fun a name q hq hb => Host.Sound.callRule fuel _ _ _ a name q (hbody q hq hb) hb,
        fun q message _ hb => hh.parse q message hb, hh.unresolved⟩
    have heval := (hscope.eval rule.body (Nat.le_refl p) hp).ensuring_facts (hh.exit _ st)
    refine heval.bind fun tree => .of_fact fun hn => .ofExcept (fun n hc t ht => ⟨ht, .rule hd hn hc⟩) ?_
    intro f hf t ht
    obtain ⟨message, rfl⟩ := closeRule_error hf
    exact ⟨ht, hh.parse p message hp⟩

theorem Host.Sound.scope {fuel : Nat} {o : Options} {st : List Frame} {p : Nat}
    (hfit : ∀ q, p ≤ q → i.isBoundary q = true → Fit fuel o st q) (depth : Nat) :
    (h.scope i fuel o depth).Sound g (I st) err p :=
  ⟨fun a name q hq hb => hh.callRule fuel o st depth a name q (hfit q hq hb) hb,
    fun q message _ hb => hh.parse q message hb, hh.unresolved⟩

end

end PegTree
