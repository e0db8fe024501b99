import PegTree.Eval.Call

/-!
# Triples of evaluations

`Triple P x Q E`: from a state in `P`, `x` either gives a value and a state in `Q` or stops with
a fault and a state in `E`. Cleanup that runs after a fault as well has a rule of its own.
-/

namespace PegTree.Eval

variable {σ α β : Type}

def Triple (P : σ → Prop) (x : Eval σ α) (Q : α → σ → Prop) (E : Fault → σ → Prop) : Prop :=
  ∀ s, P s → match x s with
    | (.ok a, s') => Q a s'
    | (.error f, s') => E f s'

/-- Runs `cleanup` after `x`, be there a fault or not. -/
def ensuring (x : Eval σ α) (cleanup : Eval σ Unit) : Eval σ α := do
  let outcome ← x.attempt
  cleanup
  .ofExcept outcome

theorem bind_of_ok {x : Eval σ α} {y : α → Eval σ β} {s : σ} {a : α} (h : (x s).1 = .ok a) :
    (x >>= y) s = y a (x s).2 := by
  rw [bind_apply]
  generalize x s = r at h ⊢
  obtain ⟨r, s'⟩ := r
  cases h
  rfl

theorem bind_of_error {x : Eval σ α} {y : α → Eval σ β} {s : σ} {f : Fault} (h : (x s).1 = .error f) :
    (x >>= y) s = (.error f, (x s).2) := by
  rw [bind_apply]
  generalize x s = r at h ⊢
  obtain ⟨r, s'⟩ := r
  cases h
  rfl

theorem bind_error {x : Eval σ α} {y : α → Eval σ β} {s : σ} {f : Fault} (h : (x s).1 = .error f) :
    ((x >>= y) s).1 = .error f := congrArg Prod.fst (bind_of_error h)

theorem exists_ok_of_toOption {ε : Type} {r : Except ε α} {f : α → β} {b : β} (h : r.toOption.map f = some b) :
    ∃ a, r = .ok a ∧ f a = b := by
  cases r with
  | error e => cases h
  | ok a => exact ⟨a, rfl, Option.some.inj h⟩

theorem ensuring_fst {x : Eval σ α} {cleanup : Eval σ Unit} {s : σ} (hc : ∀ s, (cleanup s).1 = .ok ()) :
    ((x.ensuring cleanup) s).1 = (x s).1 := by
  unfold ensuring
  simp only [bind_apply, attempt_apply]
  have hs := hc (x s).2
  generalize cleanup (x s).2 = r at hs ⊢
  obtain ⟨r, s'⟩ := r
  cases hs
  rfl

theorem ensuring_error {x : Eval σ α} {cleanup : Eval σ Unit} {s : σ} {f : Fault} (h : (x s).1 = .error f)
    (hc : ∀ s, (cleanup s).1 = .ok ()) : ((x.ensuring cleanup) s).1 = .error f :=
  (ensuring_fst hc).trans h

section
variable {P P' : σ → Prop} {Q Q' : α → σ → Prop} {E E' : Fault → σ → Prop} {x : Eval σ α}

theorem Triple.pure {a : α} (h : ∀ s, P s → Q a s) : Triple P (pure a : Eval σ α) Q E := h

theorem Triple.throw {f : Fault} (h : ∀ s, P s → E f s) : Triple P (throw f : Eval σ α) Q E := h

theorem Triple.ofExcept {r : Except Fault α} (hok : ∀ a, r = .ok a → ∀ s, P s → Q a s)
    (herr : ∀ f, r = .error f → ∀ s, P s → E f s) : Triple P (ofExcept r) Q E := by
  intro s hs
  rw [ofExcept_apply]
  cases r with
  | ok a => exact hok a rfl s hs
  | error f => exact herr f rfl s hs

theorem Triple.conseq (h : Triple P x Q E) (hP : ∀ s, P' s → P s) (hQ : ∀ a s, Q a s → Q' a s)
    (hE : ∀ f s, E f s → E' f s) : Triple P' x Q' E' := by
  intro s hs
  have := h s (hP s hs)
  rcases hx : x s with ⟨_ | _, s'⟩
  · rw [hx] at this; exact hE _ _ this
  · rw [hx] at this; exact hQ _ _ this

theorem Triple.bind {R : β → σ → Prop} {y : β → Eval σ α} {x : Eval σ β} (hx : Triple P x R E)
    (hy : ∀ b, Triple (R b) (y b) Q E) : Triple P (x >>= y) Q E := by
  intro s hs
  have := hx s hs
  rw [bind_apply]
  rcases hr : x s with ⟨_ | b, s'⟩
  · rw [hr] at this; exact this
  · rw [hr] at this; exact hy b s' this

theorem Triple.ok {s : σ} {a : α} (h : Triple P x Q E) (hs : P s) (ha : (x s).1 = .ok a) : Q a (x s).2 := by
  have := h s hs
  rcases hx : x s with ⟨r, s'⟩
  rw [hx] at this ha
  cases ha
  exact this

theorem Triple.error {s : σ} {f : Fault} (h : Triple P x Q E) (hs : P s) (hf : (x s).1 = .error f) :
    E f (x s).2 := by
  have := h s hs
  rcases hx : x s with ⟨r, s'⟩
  rw [hx] at this hf
  cases hf
  exact this

theorem Triple.state {R : σ → Prop} {s : σ} (h : Triple P x Q E) (hs : P s) (hQ : ∀ a t, Q a t → R t)
    (hE : ∀ f t, E f t → R t) : R (x s).2 := by
  cases hr : (x s).1 with
  | ok a => exact hQ _ _ (h.ok hs hr)
  | error f => exact hE _ _ (h.error hs hr)

theorem Triple.of_fact {φ : Prop} (h : φ → Triple P x Q E) : Triple (fun s => P s ∧ φ) x Q E :=
  fun s hs => h hs.2 s hs.1

theorem Triple.ensuring {R : α → σ → Prop} {D : Fault → σ → Prop} {cleanup : Eval σ Unit}
    (hx : Triple P x R D) (hok : ∀ a, Triple (R a) cleanup (fun _ => Q a) E)
    (herr : ∀ f, Triple (D f) cleanup (fun _ => E f) E) : Triple P (x.ensuring cleanup) Q E := by
  refine Triple.bind (R := fun r s => match r with | .ok a => R a s | .error f => D f s) ?_ ?_
  · intro s hs
    rw [attempt_apply]
    have := hx s hs
    rcases hr : x s with ⟨_ | _, s'⟩
    · rw [hr] at this; exact this
    · rw [hr] at this; exact this
  · intro r
    cases r with
    | ok a => exact (hok a).bind fun _ => .pure fun _ h => h
    | error f => exact (herr f).bind fun _ => .throw fun _ h => h

/-- Cleanup that does not fail leaves alone what is known of the outcome. -/
theorem Triple.ensuring_facts {I J : σ → Prop} {φ : α → Prop} {ψ : Fault → Prop} {cleanup : Eval σ Unit}
    (hx : Triple P x (fun a s => I s ∧ φ a) (fun f s => I s ∧ ψ f))
    (hc : Triple I cleanup (fun _ => J) (fun _ _ => False)) :
    Triple P (x.ensuring cleanup) (fun a s => J s ∧ φ a) (fun f s => J s ∧ ψ f) := by
  refine hx.ensuring (fun a => .of_fact fun ha => ?_) fun f => .of_fact fun hf => ?_
  · exact hc.conseq (fun _ h => h) (fun _ _ hs => ⟨hs, ha⟩) fun _ _ h => h.elim
  · exact hc.conseq (fun _ h => h) (fun _ _ hs => ⟨hs, hf⟩) fun _ _ h => h.elim

end

end PegTree.Eval
