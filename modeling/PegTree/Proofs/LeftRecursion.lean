import PegTree.Proofs.Termination

/-!
# Left recursion

A session that does not look whether a rule is in progress comes to the same result wherever it
comes to one at all: the evaluation of a rule that is in progress would need more fuel than itself.
Both are compared to a host that keeps nothing.
-/

namespace PegTree

open Eval

variable {σ : Type} {g : Grammar} {i : Input} {o : Options} {st : List Frame}

/-! ## Hosts -/

def Session.push (f : Frame) : Eval Session Unit := modify fun s => { s with active := f :: s.active }

def Session.unguarded (g : Grammar) : Host Session := ⟨Session.rule g, Session.push, Session.exit⟩

/-- A host that builds rules anew and watches over nothing. -/
def Grammar.bare (g : Grammar) : Host Unit := ⟨fun name => .ofExcept (g.find name), fun _ => pure (), pure ()⟩

theorem Grammar.bare_enter (g : Grammar) (f : Frame) : g.bare.enter f = pure () := rfl

/-! ## Depths -/

theorem checkDepth_none (ho : o.maxDepth = none) (depth : Nat) : (checkDepth o depth : Eval σ Unit) = pure () :=
  checkDepth_of_le fun n hn => by rw [ho] at hn; cases hn

theorem callRule_depth (h : Host σ) (i : Input) : ∀ (fuel : Nat) {o : Options}, o.maxDepth = none →
    ∀ (d d' : Nat), callRule h i fuel o d = callRule h i fuel o d'
  | 0, _, _, _, _ => rfl
  | fuel + 1, o, ho, d, d' => by
    funext a name p
    rw [callRule_succ, callRule_succ]
    simp only [checkDepth_none ho, Host.scope]
    congr 1
    funext rule
    have hr : (rule.overrides.apply o).maxDepth = none := ho
    rw [callRule_depth h i fuel hr (d + 1) (d' + 1)]

theorem Host.scope_depth (h : Host σ) (i : Input) (fuel : Nat) (ho : o.maxDepth = none) (d d' : Nat) :
    h.scope i fuel o d = h.scope i fuel o d' := by
  unfold Host.scope
  rw [callRule_depth h i fuel ho d d']

/-! ## Bodies that do not finish -/

theorem Grammar.bare_mono {j k : Nat} (hle : j ≤ k) (e : Expr) (o : Options) (d p : Nat)
    (h : (e.eval (g.bare.scope i j o d) p ()).1 ≠ .error .exhausted) :
    e.eval (g.bare.scope i k o d) p = e.eval (g.bare.scope i j o d) p := by
  have hr : Host.Refines (· = .exhausted) (· = ·) g.bare g.bare := .refl fun _ => rfl
  have he := hr.eval (.inr ⟨hle, rfl⟩) e i o d p
  funext u
  obtain ⟨hv, _⟩ := he.same (rfl : u = u) fun f hf he => h (by rw [← he]; exact hf)
  exact Prod.ext hv rfl

/-- With so much fuel the body of the rule in progress does not finish. -/
def Grammar.Stuck (g : Grammar) (i : Input) (fuel : Nat) (f : Frame) : Prop :=
  ∀ rule, g.Declares f.rule rule →
    (rule.body.eval (g.bare.scope i fuel (rule.overrides.apply f.options) 0) f.offset ()).1 = .error .exhausted

theorem Grammar.Declares.unique {name : String} {rule rule' : Rule} (h : g.Declares name rule)
    (h' : g.Declares name rule') : rule = rule' :=
  Except.ok.inj ((Grammar.find_eq_ok.2 h).symm.trans (Grammar.find_eq_ok.2 h'))

/-- A body that finishes does so with some least fuel, and is stuck with less. -/
theorem Grammar.Declares.least {name : String} {rule : Rule} (hd : g.Declares name rule) (ho : o.maxDepth = none)
    {k d p : Nat}
    (hk : (rule.body.eval (g.bare.scope i k (rule.overrides.apply o) d) p ()).1 ≠ .error .exhausted) :
    ∃ j ≤ k, rule.body.eval (g.bare.scope i k (rule.overrides.apply o) d) p =
        rule.body.eval (g.bare.scope i j (rule.overrides.apply o) d) p ∧
      ∀ l < j, g.Stuck i l ⟨rule.name, p, o⟩ := by
  classical
  have hr : (rule.overrides.apply o).maxDepth = none := ho
  have hex : ∃ j, (rule.body.eval (g.bare.scope i j (rule.overrides.apply o) d) p ()).1 ≠
    .error .exhausted := ⟨k, hk⟩
  have hle := Nat.find_min' hex hk
  refine ⟨Nat.find hex, hle, g.bare_mono hle _ _ _ _ (Nat.find_spec hex), fun l hl rule' hd' => ?_⟩
  rw [hd.decl.1] at hd'
  have he := not_not.1 (Nat.find_min hex hl)
  rw [← hd.unique hd', g.bare.scope_depth i l hr 0 d]
  exact he

/-! ## The guard stops only what does not finish -/

theorem Session.rule_refines {E : Fault → Prop} (name : String) :
    Refines E (fun (_ : Unit) s => s.Sound g st) (g.bare.rule name) (Session.rule g name)
      (fun _ s => s.Sound g st) (fun _ s => s.Sound g st) := by
  intro u s hs
  obtain ⟨s', he, hs'⟩ := hs.rule_apply name
  rw [he]
  show Agree _ _ _ (g.find name, u) _
  cases g.find name with
  | ok rule => exact .ok hs'
  | error f => exact .error hs'

theorem Session.enter_refines {f : Frame} {E : Fault → Prop} {D : Unit → Session → Prop} (hf : f ∉ st) :
    Refines E (fun (_ : Unit) s => s.Sound g st) (pure ()) (Session.enter f)
      (fun _ s => s.Sound g (f :: st)) D := by
  intro u s hs
  have hi : ¬ inProgress s.active f = true := by
    rw [hs.active]
    intro h
    exact hf (mem_of_inProgress h)
  rw [enter_apply, if_neg hi]
  exact .ok ⟨congrArg (f :: ·) hs.active, hs.cache⟩

theorem Session.exit_refines {E : Fault → Prop} (f : Frame) :
    Refines E (fun (_ : Unit) s => s.Sound g (f :: st)) g.bare.exit Session.exit (fun _ s => s.Sound g st)
      (fun _ s => s.Sound g st) :=
  fun _ _ hs => .ok ⟨congrArg List.tail hs.active, hs.cache⟩

/-- If the rules in progress are stuck with less fuel than a reference takes, then the guard is in
the way of no rule that is needed for it: such a rule would be stuck as well. -/
theorem Session.callRule_refines (k : Nat) : ∀ (fuel : Nat), k ≤ fuel → ∀ (o : Options) (st : List Frame)
    (depth : Nat) (a : Bool) (name : String) (p : Nat), o.maxDepth = none →
    (∀ f ∈ st, ∀ j < k, g.Stuck i j f) →
    Refines (· = .exhausted) (fun (_ : Unit) s => s.Sound g st) (callRule g.bare i k o depth a name p)
      (callRule (Session.host g) i fuel o depth a name p) (fun _ s => s.Sound g st)
      (fun _ s => s.Sound g st) := by
  induction k using Nat.strong_induction_on with
  | _ k ih =>
    intro fuel hle o st depth a name p ho hst
    match k, fuel, hle with
    | 0, _, _ => exact fun _ _ _ => .excused rfl
    | k + 1, fuel + 1, hle =>
      rw [callRule_succ, callRule_succ]
      refine (Session.rule_refines name).bind_of ?_
      intro rule hrule
      obtain ⟨u, hu⟩ := hrule
      have hd : g.Declares name rule := Grammar.find_eq_ok.1 hu
      rw [checkDepth_none ho, checkDepth_none ho, pure_bind, pure_bind]
      have hr : (rule.overrides.apply o).maxDepth = none := ho
      by_cases hk : (rule.body.eval (g.bare.scope i k (rule.overrides.apply o) (depth + 1)) p ()).1 =
          .error .exhausted
      · rw [Grammar.bare_enter, pure_bind]
        exact .excused (fun _ => bind_error (ensuring_error hk fun _ => rfl)) rfl
      · -- the rule is entered as if it had just the fuel that its body takes
        obtain ⟨j, hj, he, hstuck⟩ := hd.least ho hk
        have hf : ⟨rule.name, p, o⟩ ∉ st := by
          intro hm
          apply hk
          rw [g.bare.scope_depth i k hr (depth + 1) 0]
          exact hst _ hm k (Nat.lt_succ_self k) rule (by rw [hd.decl.1]; exact hd)
        have hst' : ∀ f ∈ ⟨rule.name, p, o⟩ :: st, ∀ l < j, g.Stuck i l f := by
          intro f hm l hl
          rcases List.mem_cons.1 hm with rfl | hm
          · exact hstuck l hl
          · exact hst f hm l (by omega)
        refine Refines.bind (Session.enter_refines hf) fun _ => ?_
        refine Refines.bind (R := fun _ s => s.Sound g st) ?_ ?_
        · rw [he]
          refine Refines.ensuring (eval_refines (fun a name q => ?_) rule.body p) (fun _ => rfl)
            (Session.exit_refines _) (Session.exit_refines _)
          exact ih j (by omega) fuel (by omega) _ _ (depth + 1) a name q hr hst'
        · intro tree
          exact .ofExcept _ (fun _ _ h => h) fun _ _ h => h

/-! ## Evaluation -/

theorem Session.Sound.self {s : Session} (h : s.Sound g st) : s.Sound g s.active := ⟨rfl, h.cache⟩

theorem Session.rule_refines_bare {E : Fault → Prop} (name : String) :
    Refines E (fun s (_ : Unit) => s.Sound g s.active) (Session.rule g name) (g.bare.rule name)
      (fun s _ => s.Sound g s.active) (fun s _ => s.Sound g s.active) := by
  intro s u hs
  obtain ⟨s', he, hs'⟩ := hs.rule_apply name
  rw [he]
  show Agree _ _ _ _ (g.find name, u)
  cases g.find name with
  | ok rule => exact .ok hs'.self
  | error f => exact .error hs'.self

theorem Session.unguarded_refines (g : Grammar) :
    Host.Refines (fun _ => False) (fun s (_ : Unit) => s.Sound g s.active) (Session.unguarded g) g.bare where
  rule name := Session.rule_refines_bare name
  enter _ := fun _ _ hs => .ok ⟨rfl, hs.cache⟩
  exit_ok _ := rfl
  exit := fun _ _ hs => .ok ⟨rfl, hs.cache⟩

theorem Session.host_refines (g : Grammar) :
    Host.Refines (fun f => ∃ rule p, f = .error (.leftRecursion rule p))
      (fun s (_ : Unit) => s.Sound g s.active) (Session.host g) g.bare where
  rule name := Session.rule_refines_bare name
  enter f := by
    intro s u hs
    show Agree _ _ _ (Session.enter f s) _
    rw [Session.enter_apply]
    by_cases hi : inProgress s.active f = true
    · rw [if_pos hi]
      exact .excused ⟨_, _, rfl⟩
    · rw [if_neg hi]
      exact .ok ⟨rfl, hs.cache⟩
  exit_ok _ := rfl
  exit := fun _ _ hs => .ok ⟨rfl, hs.cache⟩

theorem Grammar.bare_sound (g : Grammar) (i : Input) (name : String) (p : Nat) :
    g.bare.Sound g i (fun _ _ => True)
      (fun f => f = .error (.leftRecursion name p) →
        ∃ decl ∈ g.rules, g.build decl = .error (.leftRecursion name p))
      (fun _ _ _ _ => True) where
  rule st name' := by
    refine .ofExcept (fun rule h _ _ => ⟨trivial, find_eq_ok.1 h⟩) fun f h _ _ => ⟨trivial, ?_⟩
    intro hf
    rcases find_eq_error h with ⟨_, rfl⟩ | ⟨decl, hd, e, hb, rfl⟩
    · cases hf
    · cases hf
      exact ⟨decl, hd, hb⟩
  enter fuel o st p name rule _ _ _ := .pure fun _ _ => ⟨trivial, fun _ _ _ => trivial⟩
  exit f st := .pure fun _ _ => trivial
  exhausted _ _ _ _ h := by cases h
  limit _ h := by cases h
  parse _ _ _ h := by cases h
  unresolved _ h := by cases h

section
variable {s : Session} {name : String} {t : Text}

theorem Session.Sound.evaluate_eq (hs : s.Sound g []) (hg : g.options.maxDepth = none) {fuel : Nat}
    (h : (g.evaluateWith g.bare fuel name t ()).1 ≠ .error .exhausted) :
    (g.evaluate name t s).1 = (g.evaluateWith g.bare fuel name t ()).1 := by
  have hle := Nat.le_max_left fuel (g.nestingBound (.ofText t) + 1)
  have hst : ∀ f ∈ ([] : List Frame), ∀ j < fuel, g.Stuck (.ofText t) j f := List.forall_mem_nil _
  have hr := Session.callRule_refines fuel _ hle g.options [] 0 false name 0 hg hst
  have hf : g.rules.length * ((Input.ofText t).size + 1) * g.optionsCount g.options <
      max fuel (g.nestingBound (.ofText t) + 1) :=
    Nat.lt_of_lt_of_le (g.bound_lt _) (Nat.le_max_right ..)
  rw [← hs.evaluateWith_eq hf]
  exact (hr.same (s := ()) hs fun f hf he => h (he ▸ hf)).1

end

/-- The guard against left recursion is exact. A session that lacks it, whatever it was asked before,
either comes to the same result or never comes to an end, and it is in the latter case that left
recursion is reported, unless a body that is built reports it by itself. -/
theorem leftRecursion_exact (g : Grammar) (hg : g.options.maxDepth = none) (calls calls' : List Call)
    (name : String) (t : Text) :
    (∀ fuel r, (g.evaluateWith (Session.unguarded g) fuel name t (g.after calls')).1 = r →
      r ≠ .error .exhausted → (g.evaluate name t (g.after calls)).1 = r) ∧
    (∀ rule p, (g.evaluate name t (g.after calls)).1 = .error (.error (.leftRecursion rule p)) →
      (∀ decl ∈ g.rules, g.build decl ≠ .error (.leftRecursion rule p)) →
      ∀ fuel, (g.evaluateWith (Session.unguarded g) fuel name t (g.after calls')).1 = .error .exhausted) ∧
    ((∀ fuel, (g.evaluateWith (Session.unguarded g) fuel name t (g.after calls')).1 = .error .exhausted) →
      ∃ rule p, (g.evaluate name t (g.after calls)).1 = .error (.error (.leftRecursion rule p))) := by
  have hs := g.after_sound calls
  have hbare : ∀ fuel, (g.evaluateWith (Session.unguarded g) fuel name t (g.after calls')).1 =
      (g.evaluateWith g.bare fuel name t ()).1 := by
    intro fuel
    have hr := (Session.unguarded_refines g).evaluateWith (.inl (rfl : fuel = fuel)) g name t
    exact (hr.same (g.after_sound calls').self fun _ _ h => h).1.symm
  have hfinish : ∀ fuel r, (g.evaluateWith (Session.unguarded g) fuel name t (g.after calls')).1 = r →
      r ≠ .error .exhausted → (g.evaluate name t (g.after calls)).1 = r := by
    rintro fuel r rfl hr
    rw [hbare] at hr ⊢
    exact hs.evaluate_eq hg hr
  refine ⟨hfinish, ?_, ?_⟩
  · intro rule p hl hb fuel
    by_contra hne
    have he := hfinish fuel _ rfl hne
    rw [hbare, hl] at he
    have hbody := ((g.bare_sound (.ofText t) rule p).evaluateWith (fun _ => trivial) name).error trivial he.symm
    obtain ⟨decl, hd, hb'⟩ := hbody.2 rfl
    exact hb decl hd hb'
  · intro hex
    by_contra hne
    have hr := (Session.host_refines g).evaluateWith (.inl (rfl : g.nestingBound (.ofText t) + 1 = _)) g name t
    have hsame := hr.same (s := g.after calls) (t := ()) hs.self
      fun f hf ⟨rule, p, he⟩ => hne ⟨rule, p, by rw [Grammar.evaluate_eq, hf, he]⟩
    rw [← hbare, hex, ← Grammar.evaluate_eq] at hsame
    obtain ⟨e, he⟩ := hs.evaluateWith_error (g.bound_lt _) hsame.1.symm
    cases he

def hiddenLoop : Grammar where
  rules := [⟨"list", {}, fun _ => .ok (.sequence false [.literal false [] none, .ref "list"])⟩]

theorem hiddenLoop_evaluate : (hiddenLoop.evaluate "list" ['y'] (hiddenLoop.after [])).1 =
    .error (.error (.leftRecursion "list" 0)) := by rfl

theorem leftRecursion_exact_hidden : hiddenLoop.options.maxDepth = none ∧
    ∀ fuel, (hiddenLoop.evaluateWith (Session.unguarded hiddenLoop) fuel "list" ['y'] (hiddenLoop.after [])).1 =
      .error .exhausted := by
  refine ⟨rfl, (leftRecursion_exact hiddenLoop rfl [] [] "list" ['y']).2.1 "list" 0 hiddenLoop_evaluate ?_⟩
  intro decl hd
  rw [List.mem_singleton.1 hd]
  exact fun h => by cases h

end PegTree
