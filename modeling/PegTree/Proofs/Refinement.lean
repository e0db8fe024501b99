import PegTree.Proofs.Evaluation

/-!
# Refinement of evaluations

Two evaluations that carry different states along come to the same results, unless the first stops
with an excused fault. Expressions do so if references do, and references do so if their hosts do,
where the second may have more fuel.
-/

namespace PegTree

namespace Eval

variable {σ τ α β : Type} {E : Fault → Prop}

/-- Two ends of evaluations: one result, in states related by `Q` or after a fault by `D`. -/
inductive Agree (E : Fault → Prop) (Q D : σ → τ → Prop) : Except Fault α × σ → Except Fault α × τ → Prop
  | excused {f : Fault} {s : σ} {y : Except Fault α × τ} : E f → Agree E Q D (.error f, s) y
  | ok {a : α} {s : σ} {t : τ} : Q s t → Agree E Q D (.ok a, s) (.ok a, t)
  | error {f : Fault} {s : σ} {t : τ} : D s t → Agree E Q D (.error f, s) (.error f, t)

/-- From states in `P` both evaluations end alike, unless the first stops with a fault in `E`. -/
def Refines (E : Fault → Prop) (P : σ → τ → Prop) (x : Eval σ α) (y : Eval τ α) (Q D : σ → τ → Prop) : Prop :=
  ∀ s t, P s t → Agree E Q D (x s) (y t)

section
variable {P Q D R D' : σ → τ → Prop} {x : Eval σ α} {y : Eval τ α}

theorem Refines.refl (x : Eval σ α) : Refines E (· = ·) x x (· = ·) (· = ·) := by
  rintro s _ rfl
  generalize x s = y
  rcases y with ⟨f | a, s'⟩
  · exact .error rfl
  · exact .ok rfl

/-- What is noted beside an evaluation makes no difference to it. -/
theorem Refines.beside {x : Eval τ α} {y : Eval (τ × β) α} (h : ∀ t, ((y t).1, (y t).2.1) = x t.1) :
    Refines E (fun t s => t.1 = s) y x (fun t s => t.1 = s) (fun t s => t.1 = s) := by
  rintro t _ rfl
  rw [← h t]
  generalize y t = z
  rcases z with ⟨f | a, s⟩
  · exact .error rfl
  · exact .ok rfl

theorem Refines.excused {f : Fault} (hx : ∀ s, (x s).1 = .error f) (hf : E f) : Refines E P x y Q D := by
  intro s t _
  have h := hx s
  generalize x s = a at h ⊢
  obtain ⟨r, s'⟩ := a
  cases h
  exact .excused hf

theorem Refines.pure (a : α) (h : ∀ s t, P s t → Q s t) : Refines E P (pure a) (pure a) Q D :=
  fun s t hst => .ok (h s t hst)

theorem Refines.throw (f : Fault) (h : ∀ s t, P s t → D s t) :
    Refines E P (throw f : Eval σ α) (throw f) Q D :=
  fun s t hst => .error (h s t hst)

theorem Refines.ofExcept (r : Except Fault α) (hok : ∀ s t, P s t → Q s t) (herr : ∀ s t, P s t → D s t) :
    Refines E P (ofExcept r) (ofExcept r) Q D := by
  cases r with
  | ok a => exact .pure a hok
  | error f => exact .throw f herr

theorem Refines.bind_of {v : Eval σ β} {w : Eval τ β} {x : β → Eval σ α} {y : β → Eval τ α}
    (hv : Refines E P v w R D) (hx : ∀ b, (∃ s, (v s).1 = .ok b) → Refines E R (x b) (y b) Q D) :
    Refines E P (v >>= x) (w >>= y) Q D := by
  intro s t hst
  have h := hv s t hst
  have hb : ∀ b, (v s).1 = .ok b → Refines E R (x b) (y b) Q D := fun b hb => hx b ⟨s, hb⟩
  rw [bind_apply, bind_apply]
  generalize v s = a at h hb ⊢
  generalize w t = b at h ⊢
  cases h with
  | excused hf => exact .excused hf
  | ok h => exact hb _ rfl _ _ h
  | error h => exact .error h

theorem Refines.bind {v : Eval σ β} {w : Eval τ β} {x : β → Eval σ α} {y : β → Eval τ α}
    (hv : Refines E P v w R D) (hx : ∀ b, Refines E R (x b) (y b) Q D) :
    Refines E P (v >>= x) (w >>= y) Q D :=
  hv.bind_of fun b _ => hx b

theorem Refines.ensuring {cleanup : Eval σ Unit} {cleanup' : Eval τ Unit} (hx : Refines E P x y R D')
    (hc : ∀ s, (cleanup s).1 = .ok ()) (hok : Refines (fun _ => False) R cleanup cleanup' Q Q)
    (herr : Refines (fun _ => False) D' cleanup cleanup' D D) :
    Refines E P (x.ensuring cleanup) (y.ensuring cleanup') Q D := by
  intro s t hst
  have h := hx s t hst
  unfold Eval.ensuring
  simp only [bind_apply, attempt_apply]
  generalize x s = a at h ⊢
  generalize y t = b at h ⊢
  cases h with
  | @excused f s _ hf =>
    have hs := hc s
    generalize cleanup s = a at hs ⊢
    obtain ⟨r, s'⟩ := a
    cases hs
    exact .excused hf
  | @ok a s t hst =>
    have h := hok s t hst
    have hs := hc s
    generalize cleanup s = a at h hs ⊢
    generalize cleanup' t = b at h ⊢
    cases h with
    | excused hf => exact hf.elim
    | ok h => exact .ok h
    | error h => cases hs
  | @error f s t hst =>
    have h := herr s t hst
    have hs := hc s
    generalize cleanup s = a at h hs ⊢
    generalize cleanup' t = b at h ⊢
    cases h with
    | excused hf => exact hf.elim
    | ok h => exact .error h
    | error h => cases hs

theorem Refines.same {s : σ} {t : τ} (h : Refines E P x y Q Q) (hst : P s t)
    (hE : ∀ f, (x s).1 = .error f → ¬ E f) : (y t).1 = (x s).1 ∧ Q (x s).2 (y t).2 := by
  have h := h s t hst
  generalize x s = a at h hE ⊢
  generalize y t = b at h ⊢
  cases h with
  | excused hf => exact absurd hf (hE _ rfl)
  | ok h => exact ⟨rfl, h⟩
  | error h => exact ⟨rfl, h⟩

end

end Eval

open Eval

variable {σ τ : Type} {E : Fault → Prop} {R : σ → τ → Prop} {i : Input} {o : Options}

/-! ## Expressions -/

section
variable {refer : Bool → String → Nat → Eval σ Node} {refer' : Bool → String → Nat → Eval τ Node}

theorem repeatRun_refines {item : Nat → Eval σ Node} {item' : Nat → Eval τ Node}
    (hi : ∀ p, Refines E R (item p) (item' p) R R) :
    ∀ (fuel place : Nat) (done : List Node),
      Refines E R (Scope.repeatRun ⟨i, o, refer⟩ item fuel place done)
        (Scope.repeatRun ⟨i, o, refer'⟩ item' fuel place done) R R
  | 0, _, _ => .throw _ fun _ _ h => h
  | fuel + 1, place, done => by
    unfold Scope.repeatRun
    refine (hi (i.skip o place)).bind ?_
    intro n
    cases n.stop with
    | none => exact .pure _ fun _ _ h => h
    | some stop =>
      dsimp only
      by_cases he : stop = Scope.skip ⟨i, o, refer⟩ place
      · have he' : stop = Scope.skip ⟨i, o, refer'⟩ place := he
        rw [if_pos he, if_pos he']
        exact .pure _ fun _ _ h => h
      · have he' : stop ≠ Scope.skip ⟨i, o, refer'⟩ place := he
        rw [if_neg he, if_neg he']
        exact repeatRun_refines hi fuel stop (n :: done)

mutual
theorem eval_refines (hr : ∀ a name p, Refines E R (refer a name p) (refer' a name p) R R) (e : Expr)
    (p : Nat) : Refines E R (e.eval ⟨i, o, refer⟩ p) (e.eval ⟨i, o, refer'⟩ p) R R := by
  cases e with
  | literal a ms c =>
    unfold Expr.eval
    exact .ofExcept _ (fun _ _ h => h) fun _ _ h => h
  | sequence a items =>
    unfold Expr.eval
    exact (evalRow_refines hr items p).bind fun run => .ofExcept _ (fun _ _ h => h) fun _ _ h => h
  | choice a items =>
    unfold Expr.eval
    exact (evalAny_refines hr items _).bind fun trial => .ofExcept _ (fun _ _ h => h) fun _ _ h => h
  | repetition a low high item =>
    unfold Expr.eval
    exact (repeatRun_refines (fun q => eval_refines hr item q) _ _ _).bind fun run =>
      .ofExcept _ (fun _ _ h => h) fun _ _ h => h
  | optional a item =>
    unfold Expr.eval
    exact (eval_refines hr item p).bind fun n => .pure _ fun _ _ h => h
  | endOfLine a =>
    unfold Expr.eval
    exact .ofExcept _ (fun _ _ h => h) fun _ _ h => h
  | endOfInput a =>
    unfold Expr.eval
    exact .ofExcept _ (fun _ _ h => h) fun _ _ h => h
  | rule a name =>
    unfold Expr.eval
    exact hr a name p
  | placeholder a name =>
    unfold Expr.eval
    exact .throw _ fun _ _ h => h
theorem evalRow_refines (hr : ∀ a name p, Refines E R (refer a name p) (refer' a name p) R R) (es : List Expr)
    (p : Nat) : Refines E R (Expr.evalRow ⟨i, o, refer⟩ es p) (Expr.evalRow ⟨i, o, refer'⟩ es p) R R := by
  cases es with
  | nil =>
    unfold Expr.evalRow
    exact .pure _ fun _ _ h => h
  | cons e es =>
    unfold Expr.evalRow
    refine (eval_refines hr e _).bind ?_
    intro n
    cases n.stop with
    | none => exact .pure _ fun _ _ h => h
    | some stop => exact (evalRow_refines hr es stop).bind fun run => .pure _ fun _ _ h => h
theorem evalAny_refines (hr : ∀ a name p, Refines E R (refer a name p) (refer' a name p) R R) (es : List Expr)
    (p : Nat) : Refines E R (Expr.evalAny ⟨i, o, refer⟩ es p) (Expr.evalAny ⟨i, o, refer'⟩ es p) R R := by
  cases es with
  | nil =>
    unfold Expr.evalAny
    exact .pure _ fun _ _ h => h
  | cons e es =>
    unfold Expr.evalAny
    refine (eval_refines hr e p).bind ?_
    intro n
    cases n.isFailed with
    | true => exact (evalAny_refines hr es p).bind fun trial => .pure _ fun _ _ h => h
    | false => exact .pure _ fun _ _ h => h
end

end

/-! ## Rules -/

structure Host.Refines (E : Fault → Prop) (R : σ → τ → Prop) (h : Host σ) (h' : Host τ) : Prop where
  rule : ∀ name, Eval.Refines E R (h.rule name) (h'.rule name) R R
  enter : ∀ f, Eval.Refines E R (h.enter f) (h'.enter f) R R
  exit_ok : ∀ s, (h.exit s).1 = .ok ()
  exit : Eval.Refines (fun _ => False) R h.exit h'.exit R R

theorem Host.Refines.refl {h : Host σ} (hx : ∀ s, (h.exit s).1 = .ok ()) : h.Refines E (· = ·) h :=
  ⟨fun name => .refl (h.rule name), fun f => .refl (h.enter f), hx, .refl h.exit⟩

theorem checkDepth_refines {o o' : Options} (h : o.maxDepth = o'.maxDepth) (depth : Nat) :
    Eval.Refines E R (checkDepth o depth) (checkDepth o' depth) R R := by
  unfold checkDepth
  rw [h]
  split
  · exact .throw _ fun _ _ h => h
  · exact .pure _ fun _ _ h => h

/-- The second host may have more fuel if running out of it is excused. -/
theorem Host.Refines.callRule {h : Host σ} {h' : Host τ} (hh : Host.Refines E R h h') :
    ∀ (fuel fuel' : Nat), fuel = fuel' ∨ fuel ≤ fuel' ∧ E .exhausted →
      ∀ (o : Options) (depth : Nat) (a : Bool) (name : String) (p : Nat),
        Eval.Refines E R (callRule h i fuel o depth a name p) (callRule h' i fuel' o depth a name p) R R
  | 0, 0, _, _, _, _, _, _ => .throw _ fun _ _ h => h
  | 0, _ + 1, hf, _, _, _, _, _ => fun _ _ _ => .excused (hf.resolve_left (by omega)).2
  | _ + 1, 0, hf, _, _, _, _, _ => by omega
  | fuel + 1, fuel' + 1, hf, o, depth, a, name, p => by
    rw [callRule_succ, callRule_succ]
    refine (hh.rule name).bind fun rule => (checkDepth_refines rfl (depth + 1)).bind fun _ => ?_
    refine (hh.enter _).bind fun _ => Eval.Refines.bind (R := R) ?_ ?_
    · refine Eval.Refines.ensuring (eval_refines (fun a name q => ?_) rule.body p) hh.exit_ok hh.exit hh.exit
      have hf' : fuel = fuel' ∨ fuel ≤ fuel' ∧ E .exhausted := by
        rcases hf with hf | ⟨hf, hE⟩
        · exact .inl (Nat.succ.inj hf)
        · exact .inr ⟨Nat.le_of_succ_le_succ hf, hE⟩
      exact hh.callRule fuel fuel' hf' _ (depth + 1) a name q
    · intro tree
      exact .ofExcept _ (fun _ _ h => h) fun _ _ h => h

theorem Host.Refines.eval {h : Host σ} {h' : Host τ} (hh : Host.Refines E R h h') {fuel fuel' : Nat}
    (hf : fuel = fuel' ∨ fuel ≤ fuel' ∧ E .exhausted) (e : Expr) (i : Input) (o : Options) (depth p : Nat) :
    Eval.Refines E R (e.eval (h.scope i fuel o depth) p) (e.eval (h'.scope i fuel' o depth) p) R R :=
  eval_refines (fun a name q => hh.callRule fuel fuel' hf o depth a name q) e p

end PegTree
