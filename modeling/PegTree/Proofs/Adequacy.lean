import PegTree.Proofs.LeftRecursion

/-!
# Derivations are what evaluations give

A derivation knows neither fuel nor a session. With enough fuel an evaluation gives the derived
node, so an expression derives one node at most, and a session that is asked for it answers with it.
-/

namespace PegTree

open Eval

variable {g : Grammar} {i : Input} {o : Options} {α β : Type}

/-! ## Enough fuel -/

/-- `x` gives `a` with all fuel from some amount on. -/
def Settles (x : Nat → Eval Unit α) (a : α) : Prop := ∃ k, ∀ fuel, k ≤ fuel → x fuel () = (.ok a, ())

section
variable {x : Nat → Eval Unit α} {y : Nat → α → Eval Unit β} {a a' : α} {b : β}

theorem Settles.of_eq (h : ∀ fuel, x fuel () = (.ok a, ())) : Settles x a := ⟨0, fun fuel _ => h fuel⟩

theorem Settles.ofExcept {r : Except Fault α} (h : r = .ok a) : Settles (fun _ => .ofExcept r) a :=
  .of_eq fun _ => by rw [h]; rfl

theorem Settles.succ (h : Settles x a) {z : Nat → Eval Unit α} (hz : ∀ fuel, z (fuel + 1) = x fuel) :
    Settles z a := by
  obtain ⟨k, hk⟩ := h
  refine ⟨k + 1, fun fuel hf => ?_⟩
  obtain ⟨fuel, rfl⟩ : ∃ l, fuel = l + 1 := ⟨fuel - 1, by omega⟩
  rw [hz, hk fuel (by omega)]

theorem Settles.bind (hx : Settles x a) (hy : Settles (fun k => y k a) b) :
    Settles (fun k => x k >>= y k) b := by
  obtain ⟨k, hk⟩ := hx
  obtain ⟨l, hl⟩ := hy
  refine ⟨max k l, fun fuel hf => ?_⟩
  show (x fuel >>= y fuel) () = _
  rw [bind_apply, hk fuel (by omega)]
  exact hl fuel (by omega)

theorem Settles.ensuring (hx : Settles x a) : Settles (fun k => (x k).ensuring g.bare.exit) a := by
  obtain ⟨k, hk⟩ := hx
  refine ⟨k, fun fuel hf => ?_⟩
  show ((x fuel).ensuring g.bare.exit) () = _
  unfold Eval.ensuring
  simp only [bind_apply, attempt_apply, hk fuel hf]
  rfl

theorem Settles.unique (h : Settles x a) (h' : Settles x a') : a = a' := by
  obtain ⟨k, hk⟩ := h
  obtain ⟨l, hl⟩ := h'
  have he := (hk (max k l) (by omega)).symm.trans (hl (max k l) (by omega))
  exact Except.ok.inj (Prod.mk.inj he).1

/-- `x` stops with `f` with all fuel from some amount on. -/
def Stops (x : Nat → Eval Unit α) (f : Fault) : Prop := ∃ k, ∀ fuel, k ≤ fuel → (x fuel ()).1 = .error f

variable {f : Fault}

theorem Stops.succ (h : Stops x f) {z : Nat → Eval Unit α} (hz : ∀ fuel, z (fuel + 1) = x fuel) : Stops z f := by
  obtain ⟨k, hk⟩ := h
  refine ⟨k + 1, fun fuel hf => ?_⟩
  obtain ⟨fuel, rfl⟩ : ∃ l, fuel = l + 1 := ⟨fuel - 1, by omega⟩
  rw [hz, hk fuel (by omega)]

theorem Stops.bind (h : Stops x f) : Stops (fun k => x k >>= y k) f := by
  obtain ⟨k, hk⟩ := h
  exact ⟨k, fun fuel hf => bind_error (hk fuel hf)⟩

theorem Settles.stops (hx : Settles x a) (hy : Stops (fun k => y k a) f) : Stops (fun k => x k >>= y k) f := by
  obtain ⟨k, hk⟩ := hx
  obtain ⟨l, hl⟩ := hy
  refine ⟨max k l, fun fuel hf => ?_⟩
  show ((x fuel >>= y fuel) ()).1 = _
  rw [bind_apply, hk fuel (by omega)]
  exact hl fuel (by omega)

theorem Stops.ensuring (h : Stops x f) : Stops (fun k => (x k).ensuring g.bare.exit) f := by
  obtain ⟨k, hk⟩ := h
  exact ⟨k, fun fuel hf => ensuring_error (hk fuel hf) fun _ => rfl⟩

end

/-! ## Derivations -/

/-- What an expression is evaluated in with so much fuel, where nothing is watched over. -/
def Grammar.bareScope (g : Grammar) (i : Input) (o : Options) (fuel : Nat) : Scope Unit :=
  g.bare.scope i fuel o 0

theorem Grammar.ref_succ (g : Grammar) (ho : o.maxDepth = none) (fuel : Nat) (a : Bool) (name : String) (p : Nat) :
    (Expr.rule a name).eval (g.bareScope i o (fuel + 1)) p = (do
      let rule ← g.bare.rule name
      let tree ← (rule.body.eval (g.bareScope i (rule.overrides.apply o) fuel) p).ensuring g.bare.exit
      .ofExcept (closeRule i o a rule.name p tree)) := by
  show callRule g.bare i (fuel + 1) o 0 a name p = _
  rw [callRule_succ]
  refine congrArg _ (funext fun rule => ?_)
  have hr : (rule.overrides.apply o).maxDepth = none := ho
  rw [checkDepth_none ho, g.bare_enter, pure_bind, pure_bind, Grammar.bareScope,
    g.bare.scope_depth i fuel hr (0 + 1) 0]

mutual
theorem Derives.settles {o : Options} {e : Expr} {p : Nat} {n : Node} (h : Derives g i o e p n)
    (ho : o.maxDepth = none) (hp : i.isBoundary p = true) :
    Settles (fun k => e.eval (g.bareScope i o k) p) n := by
  match h with
  | .literal h =>
    unfold Expr.eval
    exact .ofExcept h
  | .sequence hr hc =>
    unfold Expr.eval
    exact (DerivesRow.settles hr ho hp).bind (.ofExcept hc)
  | .choice ht hc =>
    unfold Expr.eval
    exact (DerivesAny.settles ht ho (Input.skip_boundary o hp)).bind (.ofExcept hc)
  | .repetition hr hc =>
    unfold Expr.eval
    exact (DerivesLoop.settles hr ho hp (i.size + 1) [] (by omega)).bind (.ofExcept hc)
  | .optional h =>
    unfold Expr.eval
    exact (Derives.settles h ho hp).bind (.of_eq fun _ => rfl)
  | .endOfLine h =>
    unfold Expr.eval
    exact .ofExcept h
  | .endOfInput h =>
    unfold Expr.eval
    exact .ofExcept h
  | @Derives.rule _ _ _ a name rule _ _ _ hd h hc =>
    have hr : (rule.overrides.apply o).maxDepth = none := ho
    have hfind : Settles (fun _ => g.bare.rule name) rule := .ofExcept (Grammar.find_eq_ok.2 hd)
    have hbody := (Derives.settles h hr hp).ensuring (g := g)
    exact (hfind.bind (hbody.bind (.ofExcept hc))).succ fun fuel => g.ref_succ ho fuel a name p
theorem DerivesRow.settles {o : Options} {es : List Expr} {p : Nat} {run : Run} (h : DerivesRow g i o es p run)
    (ho : o.maxDepth = none) (hp : i.isBoundary p = true) :
    Settles (fun k => Expr.evalRow (g.bareScope i o k) es p) run := by
  have hq := Input.skip_boundary o hp
  match h with
  | .nil =>
    unfold Expr.evalRow
    exact .of_eq fun _ => rfl
  | .refused hn hs =>
    unfold Expr.evalRow
    refine (Derives.settles hn ho hq).bind ?_
    simp only [hs]
    exact .of_eq fun _ => rfl
  | .cons hn hs hr =>
    unfold Expr.evalRow
    refine (Derives.settles hn ho hq).bind ?_
    simp only [hs]
    exact (DerivesRow.settles hr ho (hn.stop_boundary hq hs).2).bind (.of_eq fun _ => rfl)
theorem DerivesAny.settles {o : Options} {es : List Expr} {p : Nat} {trial : Trial}
    (h : DerivesAny g i o es p trial) (ho : o.maxDepth = none) (hp : i.isBoundary p = true) :
    Settles (fun k => Expr.evalAny (g.bareScope i o k) es p) trial := by
  match h with
  | .nil =>
    unfold Expr.evalAny
    exact .of_eq fun _ => rfl
  | .failed hn hs ht =>
    unfold Expr.evalAny
    refine (Derives.settles hn ho hp).bind ?_
    simp only [Node.isFailed, hs, Option.isNone_none, if_true]
    exact (DerivesAny.settles ht ho hp).bind (.of_eq fun _ => rfl)
  | .chosen hn hs =>
    unfold Expr.evalAny
    refine (Derives.settles hn ho hp).bind ?_
    simp only [Node.isFailed, hs, Option.isNone_some, Bool.false_eq_true, if_false]
    exact .of_eq fun _ => rfl
theorem DerivesLoop.settles {o : Options} {e : Expr} {p : Nat} {run : Run} (h : DerivesLoop g i o e p run)
    (ho : o.maxDepth = none) (hp : i.isBoundary p = true) (fuel : Nat) (done : List Node)
    (hf : i.size < fuel + p) :
    Settles (fun k => (g.bareScope i o k).repeatRun (e.eval (g.bareScope i o k)) fuel p done)
      { run with matched := done.reverse ++ run.matched } := by
  have hq := Input.skip_boundary o hp
  have hle := Input.le_skip o hp
  have hsize := Input.le_size_of_isBoundary hp
  obtain ⟨fuel, rfl⟩ : ∃ l, fuel = l + 1 := ⟨fuel - 1, by omega⟩
  unfold Scope.repeatRun
  match h with
  | .refused hn hs =>
    refine (Derives.settles hn ho hq).bind ?_
    simp only [hs, List.append_nil]
    exact .of_eq fun _ => rfl
  | .still hn hs =>
    refine (Derives.settles hn ho hq).bind ?_
    refine .of_eq fun k => ?_
    simp only [hs, List.reverse_cons]
    exact congrFun (if_pos rfl) ()
  | @DerivesLoop.cons _ _ _ _ _ n stop _ hn hs hne hr =>
    obtain ⟨hqs, hb⟩ := hn.stop_boundary hq hs
    refine (Derives.settles hn ho hq).bind ?_
    -- every match but the last moves on, so the item is not tried more often than there are places
    have hrest := DerivesLoop.settles hr ho hb fuel (n :: done) (by omega)
    have he : ∀ k, stop ≠ (g.bareScope i o k).skip p := fun _ => hne
    simp only [hs, he, if_false]
    simpa using hrest
end

theorem Derives.unique {e : Expr} {p : Nat} {n n' : Node} (h : Derives g i o e p n) (h' : Derives g i o e p n')
    (ho : o.maxDepth = none) (hp : i.isBoundary p = true) : n = n' :=
  (h.settles ho hp).unique (h'.settles ho hp)

theorem Derives.evaluate {s : Session} {name : String} {t : Text} {n : Node} (hs : s.Sound g [])
    (hg : g.options.maxDepth = none) (h : Derives g (.ofText t) g.options (.ref name) 0 n) :
    (g.evaluate name t s).1 = .ok n := by
  obtain ⟨k, hk⟩ := h.settles hg (Input.isBoundary_zero _)
  have hk : g.evaluateWith g.bare k name t () = (.ok n, ()) := hk k (Nat.le_refl k)
  have hfin : (g.evaluateWith g.bare k name t ()).1 ≠ .error .exhausted := by
    rw [hk]
    exact fun h => by cases h
  rw [hs.evaluate_eq hg hfin, hk]

/-- A rule whose body stops stops as well. -/
theorem Grammar.Declares.evaluate_stops {s : Session} {name : String} {rule : Rule} {t : Text} {f : Fault}
    (hs : s.Sound g []) (hg : g.options.maxDepth = none) (hd : g.Declares name rule)
    (h : Stops (fun k => rule.body.eval (g.bareScope (.ofText t) (rule.overrides.apply g.options) k) 0) f)
    (hf : f ≠ .exhausted) : (g.evaluate name t s).1 = .error f := by
  have hfind : Settles (fun _ => g.bare.rule name) rule := .ofExcept (Grammar.find_eq_ok.2 hd)
  have href : Stops (fun k => (Expr.ref name).eval (g.bareScope (.ofText t) g.options k) 0) f :=
    (hfind.stops (h.ensuring (g := g)).bind).succ fun fuel => g.ref_succ hg fuel false name 0
  obtain ⟨k, hk⟩ := href
  have hk : (g.evaluateWith g.bare k name t ()).1 = .error f := hk k (Nat.le_refl k)
  have hfin : (g.evaluateWith g.bare k name t ()).1 ≠ .error .exhausted := by
    rw [hk]
    exact fun h => hf (Except.error.inj h)
  rw [hs.evaluate_eq hg hfin, hk]

end PegTree
