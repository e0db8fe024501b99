import PegTree.Proofs.History
import PegTree.Proofs.Refinement
import PegTree.Proofs.Stack

/-!
# Evaluation comes to an end

No frame is entered twice on the way inwards, so there are only so many rules in progress, and the
fuel of an evaluation lasts. A log of the states that an evaluation goes through shows the bound.
-/

namespace PegTree

open Eval

variable {σ τ α : Type} {g : Grammar} {i : Input} {o : Options} {st : List Frame}

/-! ## Logs -/

def Eval.logged (x : Eval σ α) : Eval (σ × List σ) α :=
  fun t => ((x t.1).1, (x t.1).2, (x t.1).2 :: t.1 :: t.2)

/-- A host that logs all states that it is used in and leads to. -/
def Host.logged (h : Host σ) : Host (σ × List σ) :=
  ⟨fun name => (h.rule name).logged, fun f => (h.enter f).logged, h.exit.logged⟩

section
variable {P Q R K : σ → Prop} {φ : α → Prop} {ψ : Fault → Prop} {x : Eval σ α}

theorem Eval.Triple.logged (h : Triple P x (fun a s => Q s ∧ φ a) (fun f s => R s ∧ ψ f))
    (hP : ∀ s, P s → K s) (hQ : ∀ s, Q s → K s) (hR : ∀ s, R s → K s) :
    Triple (fun t => P t.1 ∧ ∀ s ∈ t.2, K s) x.logged (fun a t => (Q t.1 ∧ ∀ s ∈ t.2, K s) ∧ φ a)
      (fun f t => (R t.1 ∧ ∀ s ∈ t.2, K s) ∧ ψ f) := by
  rintro ⟨s, log⟩ ⟨hs, hlog⟩
  have hlog' : ∀ s' ∈ s :: log, K s' := List.forall_mem_cons.2 ⟨hP s hs, hlog⟩
  have h := h s hs
  unfold Eval.logged
  dsimp only
  generalize x s = y at h ⊢
  rcases y with ⟨f | a, s'⟩
  · exact ⟨⟨h.1, List.forall_mem_cons.2 ⟨hR s' h.1, hlog'⟩⟩, h.2⟩
  · exact ⟨⟨h.1, List.forall_mem_cons.2 ⟨hQ s' h.1, hlog'⟩⟩, h.2⟩

end

theorem Host.logged_refines {h : Host σ} {F : Fault → Prop} (hx : ∀ s, (h.exit s).1 = .ok ()) :
    Host.Refines F (fun t s => t.1 = s) h.logged h :=
  ⟨fun _ => .beside fun _ => rfl, fun _ => .beside fun _ => rfl, fun t => hx t.1, .beside fun _ => rfl⟩

theorem Host.Sound.logged {h : Host σ} {I : List Frame → σ → Prop} {err : Fault → Prop}
    {Fit : Nat → Options → List Frame → Nat → Prop} {K : σ → Prop} (hh : h.Sound g i I err Fit)
    (hK : ∀ st s, I st s → K s) :
    h.logged.Sound g i (fun st t => I st t.1 ∧ ∀ s ∈ t.2, K s) err Fit where
  rule st name := (hh.rule st name).logged (hK st) (hK st) (hK st)
  enter fuel o st p name rule hfit hp hd :=
    (hh.enter fuel o st p name rule hfit hp hd).logged (hK st) (hK _) (hK st)
  exit f st := by
    have h : Triple (I (f :: st)) h.exit (fun _ s => I st s ∧ True) (fun _ s => I st s ∧ False) :=
      (hh.exit f st).conseq (fun _ h => h) (fun _ _ h => ⟨h, trivial⟩) fun _ _ h => h.elim
    exact (h.logged (hK _) (hK st) (hK st)).conseq (fun _ h => h) (fun _ _ h => h.1) fun _ _ h => h.2
  exhausted := hh.exhausted
  limit := hh.limit
  parse := hh.parse
  unresolved := hh.unresolved

/-! ## The fuel lasts -/

/-- Where a reference is evaluated under `o'` at `p`, no more rules can get in progress than the
fuel allows for. -/
structure Headroom (g : Grammar) (i : Input) (o : Options) (fuel : Nat) (o' : Options) (st : List Frame)
    (p : Nat) : Prop where
  orderly : Orderly g i o st
  obtainable : g.Obtainable o o'
  low : ∀ f ∈ st, f.offset ≤ p
  room : g.rules.length * (i.size + 1) * g.optionsCount o < fuel + st.length

theorem Grammar.Declares.mem_ruleNames {name : String} {rule : Rule} (h : g.Declares name rule) :
    rule.name ∈ g.ruleNames := by
  obtain ⟨_, decl, hd, hn, _⟩ := h.decl
  exact List.mem_map.2 ⟨decl, hd, hn.symm⟩

theorem Headroom.enter {fuel p : Nat} {o' : Options} {name : String} {rule : Rule}
    (h : Headroom g i o (fuel + 1) o' st p) (hp : p ≤ i.size) (hd : g.Declares name rule)
    (hf : inProgress st ⟨rule.name, p, o'⟩ = false) :
    Orderly g i o (⟨rule.name, p, o'⟩ :: st) ∧
      ∀ q, p ≤ q → Headroom g i o fuel (rule.overrides.apply o') (⟨rule.name, p, o'⟩ :: st) q := by
  have hst := h.orderly.push h.low hf hd.mem_ruleNames hp h.obtainable
  refine ⟨hst, fun q hq => ⟨hst, h.obtainable.trans (hd.obtainable o'), fun f hf => ?_, ?_⟩⟩
  · rcases List.mem_cons.1 hf with rfl | hf
    · exact hq
    · exact Nat.le_trans (h.low f hf) hq
  · have := h.room
    rw [List.length_cons]
    omega

theorem Headroom.lasts {o' : Options} {p : Nat} : ¬ Headroom g i o 0 o' st p := by
  intro h
  have := h.orderly.length_le
  have := h.room
  omega

theorem Session.rule_orderly (i : Input) (o : Options) (st : List Frame) (name : String) :
    Triple (fun s => s.Sound g st ∧ Orderly g i o st) (Session.rule g name)
      (fun rule s => (s.Sound g st ∧ Orderly g i o st) ∧ g.Declares name rule)
      (fun f s => (s.Sound g st ∧ Orderly g i o st) ∧ ∃ e, f = .error e) := by
  refine Triple.of_fact ?_
  intro ho
  refine (Session.rule_triple (fun f => ∃ e, f = .error e) ?_ ?_ st name).conseq (fun _ h => h)
    (fun _ _ h => ⟨⟨h.1, ho⟩, h.2⟩) fun _ _ h => ⟨⟨h.1, ho⟩, h.2⟩
  · exact fun name _ => ⟨_, rfl⟩
  · exact fun _ _ e _ => ⟨e, rfl⟩

theorem Session.enter_orderly {fuel p : Nat} {o' : Options} {name : String} {rule : Rule}
    (hfit : Headroom g i o (fuel + 1) o' st p) (hp : p ≤ i.size) (hd : g.Declares name rule) :
    Triple (fun s => s.Sound g st ∧ Orderly g i o st) (Session.enter ⟨rule.name, p, o'⟩)
      (fun _ s => (s.Sound g (⟨rule.name, p, o'⟩ :: st) ∧ Orderly g i o (⟨rule.name, p, o'⟩ :: st)) ∧
        ∀ q, p ≤ q → Headroom g i o fuel (rule.overrides.apply o') (⟨rule.name, p, o'⟩ :: st) q)
      (fun f s => (s.Sound g st ∧ Orderly g i o st) ∧ ∃ e, f = .error e) := by
  rintro s ⟨hs, ho⟩
  simp only [enter_apply]
  cases hi : inProgress s.active ⟨rule.name, p, o'⟩ with
  | true => exact ⟨⟨hs, ho⟩, _, rfl⟩
  | false =>
    rw [hs.active] at hi
    obtain ⟨hst, hbody⟩ := hfit.enter hp hd hi
    exact ⟨⟨⟨congrArg (_ :: ·) hs.active, hs.cache⟩, hst⟩, hbody⟩

theorem Session.exit_orderly (f : Frame) (st : List Frame) :
    Triple (fun s => s.Sound g (f :: st) ∧ Orderly g i o (f :: st)) Session.exit
      (fun _ s => s.Sound g st ∧ Orderly g i o st) (fun _ _ => False) :=
  Triple.of_fact fun ho => (Session.exit_triple f st).conseq (fun _ h => h)
    (fun _ _ h => ⟨h, ho.pop⟩) fun _ _ h => h

theorem Session.host_orderly (g : Grammar) (i : Input) (o : Options) :
    (Session.host g).Sound g i (fun st s => s.Sound g st ∧ Orderly g i o st) (fun f => ∃ e, f = .error e)
      (Headroom g i o) where
  rule st name := Session.rule_orderly i o st name
  enter _ _ _ _ _ _ hfit hp hd :=
    (Session.enter_orderly hfit (Input.le_size_of_isBoundary hp) hd).conseq (fun _ h => h)
      (fun _ _ h => ⟨h.1, fun q hq _ => h.2 q hq⟩) fun _ _ h => h
  exit f st := Session.exit_orderly f st
  exhausted _ _ _ h := h.lasts.elim
  limit _ := ⟨_, rfl⟩
  parse _ _ _ := ⟨_, rfl⟩
  unresolved _ := ⟨_, rfl⟩

/-! ## Evaluation -/

/-- The tree of a rule over a text for a host, with so much fuel. -/
def Grammar.evaluateWith (g : Grammar) (h : Host σ) (fuel : Nat) (name : String) (t : Text) : Eval σ Node :=
  (Expr.ref name).eval (h.scope (.ofText t) fuel g.options 0) 0

theorem Grammar.evaluate_eq (g : Grammar) (name : String) (t : Text) :
    g.evaluate name t = g.evaluateWith (Session.host g) (g.nestingBound (.ofText t) + 1) name t := rfl

section
variable {name : String} {t : Text} {fuel : Nat}

theorem Host.Sound.evaluateWith {h : Host σ} {I : List Frame → σ → Prop} {err : Fault → Prop}
    {Fit : Nat → Options → List Frame → Nat → Prop} (hh : h.Sound g (.ofText t) I err Fit)
    (hfit : ∀ q, Fit fuel g.options [] q) (name : String) :
    Triple (I []) (g.evaluateWith h fuel name t)
      (fun n s => I [] s ∧ Derives g (.ofText t) g.options (.ref name) 0 n) (fun f s => I [] s ∧ err f) :=
  (hh.scope (fun q _ _ => hfit q) 0).eval (.ref name) (Nat.le_refl 0) (Input.isBoundary_zero _)

theorem Host.Refines.evaluateWith {E : Fault → Prop} {R : σ → τ → Prop} {h : Host σ} {h' : Host τ}
    (hh : h.Refines E R h') {fuel' : Nat} (hf : fuel = fuel' ∨ fuel ≤ fuel' ∧ E .exhausted) (g : Grammar)
    (name : String) (t : Text) :
    Eval.Refines E R (g.evaluateWith h fuel name t) (g.evaluateWith h' fuel' name t) R R :=
  hh.eval hf (.ref name) (.ofText t) g.options 0 0

theorem Headroom.start (hf : g.rules.length * (i.size + 1) * g.optionsCount o < fuel) (p : Nat) :
    Headroom g i o fuel o [] p :=
  ⟨.nil, .start, fun _ h => (by cases h), by simpa using hf⟩

theorem Grammar.bound_lt (g : Grammar) (i : Input) :
    g.rules.length * (i.size + 1) * g.optionsCount o < g.nestingBound i + 1 :=
  Nat.lt_succ_of_le (Nat.mul_le_mul_left _ (g.optionsCount_le o))

section
variable {s : Session} (hs : s.Sound g [])
include hs

theorem Session.Sound.evaluateWith_error
    (hf : g.rules.length * ((Input.ofText t).size + 1) * g.optionsCount g.options < fuel) {f : Fault}
    (h : (g.evaluateWith (Session.host g) fuel name t s).1 = .error f) : ∃ e, f = .error e :=
  (((Session.host_orderly g (.ofText t) g.options).evaluateWith (Headroom.start hf) name).error ⟨hs, .nil⟩ h).2

theorem Session.Sound.evaluateWith_mono
    (hf : g.rules.length * ((Input.ofText t).size + 1) * g.optionsCount g.options < fuel) {fuel' : Nat}
    (hle : fuel ≤ fuel') :
    g.evaluateWith (Session.host g) fuel' name t s = g.evaluateWith (Session.host g) fuel name t s := by
  have hh : (Session.host g).Refines (· = .exhausted) (· = ·) (Session.host g) := .refl fun _ => rfl
  have hr := hh.evaluateWith (.inr ⟨hle, rfl⟩) g name t
  obtain ⟨hv, hst⟩ := hr.same (rfl : s = s) fun f hf' he => by
    obtain ⟨e, rfl⟩ := hs.evaluateWith_error hf hf'
    cases he
  exact Prod.ext hv hst.symm

theorem Session.Sound.evaluateWith_eq
    (hf : g.rules.length * ((Input.ofText t).size + 1) * g.optionsCount g.options < fuel) :
    g.evaluateWith (Session.host g) fuel name t s = g.evaluate name t s := by
  rw [Grammar.evaluate_eq]
  rcases Nat.le_total fuel (g.nestingBound (.ofText t) + 1) with hle | hle
  · exact (hs.evaluateWith_mono hf hle).symm
  · exact hs.evaluateWith_mono (g.bound_lt _) hle

theorem Session.Sound.evaluate_logged (name : String) (t : Text) :
    ∃ log, g.evaluateWith (Session.host g).logged (g.nestingBound (.ofText t) + 1) name t (s, []) =
        ((g.evaluate name t s).1, (g.evaluate name t s).2, log) ∧
      ∀ s' ∈ log, Orderly g (.ofText t) g.options s'.active := by
  have hsound := (Session.host_orderly g (.ofText t) g.options).logged
    (K := fun s => Orderly g (.ofText t) g.options s.active) fun st s h => h.1.active.symm ▸ h.2
  have htriple := hsound.evaluateWith (Headroom.start (g.bound_lt _)) name
  have hstart : (s.Sound g [] ∧ Orderly g (.ofText t) g.options []) ∧
      ∀ s' ∈ ([] : List Session), Orderly g (.ofText t) g.options s'.active :=
    ⟨⟨hs, .nil⟩, fun _ h => by cases h⟩
  have hh : (Session.host g).logged.Refines (fun _ => False) (fun t s => t.1 = s) (Session.host g) :=
    Host.logged_refines fun _ => rfl
  have hr := hh.evaluateWith (.inl (rfl : g.nestingBound (.ofText t) + 1 = _)) g name t
  obtain ⟨hv, hst⟩ := hr.same (s := (s, [])) rfl fun _ _ h => h
  refine ⟨_, Prod.ext hv.symm (Prod.ext hst rfl), ?_⟩
  exact htriple.state hstart (fun _ _ h => h.1.2) fun _ _ h => h.1.2

end

/-- An evaluation always gives a node or an error of the grammar or the input: fuel beyond the product of
rules, offsets and options makes no difference to it, and along the way there are never more rules
in progress than that. -/
theorem evaluate_terminates (g : Grammar) (calls : List Call) (name : String) (t : Text) :
    (∃ r : Except Error Node, (g.evaluate name t (g.after calls)).1 = r.mapError .error) ∧
      (∀ fuel, g.rules.length * (byteSize t + 1) * g.optionsCount g.options < fuel →
        g.evaluateWith (Session.host g) fuel name t (g.after calls) = g.evaluate name t (g.after calls)) ∧
      ∃ log, g.evaluateWith (Session.host g).logged (g.nestingBound (.ofText t) + 1) name t (g.after calls, []) =
          ((g.evaluate name t (g.after calls)).1, (g.evaluate name t (g.after calls)).2, log) ∧
        ∀ s ∈ log, s.active.length ≤ g.rules.length * (byteSize t + 1) * g.optionsCount g.options := by
  have hs := g.after_sound calls
  have hsize : (Input.ofText t).size = byteSize t := Input.size_eq _
  rw [← hsize]
  refine ⟨?_, ?_, ?_⟩
  · cases hr : (g.evaluate name t (g.after calls)).1 with
    | ok n => exact ⟨.ok n, rfl⟩
    | error f =>
      obtain ⟨e, rfl⟩ := hs.evaluateWith_error (g.bound_lt _) hr
      exact ⟨.error e, rfl⟩
  · intro fuel hf
    exact hs.evaluateWith_eq hf
  · obtain ⟨log, he, hlog⟩ := hs.evaluate_logged name t
    exact ⟨log, he, fun s hs => (hlog s hs).length_le⟩

end

end PegTree
