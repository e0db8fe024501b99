import PegTree.Proofs.Evaluation
import PegTree.Session

/-!
# Sessions over time

Whatever a session was asked before, it keeps rules only as its grammar declares them, and between
two calls no rule is in progress.
-/

namespace PegTree

open Eval

variable {g : Grammar} {s : Session} {st : List Frame}

theorem mem_names_iff {β : Type} {name : String} {xs : List (String × β)} :
    name ∈ xs.map (·.1) ↔ (xs.lookup name).isSome = true := by
  rw [List.lookup_isSome_iff, List.mem_map]
  exact exists_congr fun x => and_congr_right fun _ => by rw [beq_iff_eq, eq_comm]

/-! ## What a session does -/

namespace Grammar

def find (g : Grammar) (name : String) : Except Fault Rule :=
  match g.rule? name with
  | none => .error (.error (.unknownRule name))
  | some decl => (g.build decl).mapError .error

theorem find_eq_ok {name : String} {rule : Rule} : g.find name = .ok rule ↔ g.Declares name rule := by
  unfold find Declares
  cases hr : g.rule? name with
  | none => simp
  | some decl => cases hb : g.build decl <;> simp [Except.mapError, hb]

def Unbuilt (g : Grammar) (f : Fault) : Prop := ∃ decl ∈ g.rules, ∃ e, g.build decl = .error e ∧ f = .error e

theorem find_eq_error {name : String} {f : Fault} (h : g.find name = .error f) :
    (g.rule? name = none ∧ f = .error (.unknownRule name)) ∨
      ∃ decl ∈ g.rules, ∃ e, g.build decl = .error e ∧ f = .error e := by
  unfold find at h
  cases hr : g.rule? name with
  | none =>
    rw [hr] at h
    exact .inl ⟨rfl, (Except.error.inj h).symm⟩
  | some decl =>
    rw [hr] at h
    have hd : decl ∈ g.rules := List.mem_of_find?_eq_some hr
    cases hb : g.build decl with
    | error e => simp only [hb] at h; exact .inr ⟨decl, hd, e, hb, (Except.error.inj h).symm⟩
    | ok rule => simp only [hb] at h; cases h

end Grammar

namespace Session

/-- The rules in progress are `st`, and the rules kept are those of the grammar. -/
structure Sound (g : Grammar) (st : List Frame) (s : Session) : Prop where
  active : s.active = st
  cache : ∀ name rule, s.cache.lookup name = some rule → g.Declares name rule

/-- What a session does when it is asked for a rule: it gives the one that it keeps, it knows of none, or it
builds the body, and keeps the rule unless the body fails. -/
theorem rule_cases (g : Grammar) (name : String) (s : Session) :
    (∃ r, s.cache.lookup name = some r ∧ rule g name s = (.ok r, s)) ∨
    s.cache.lookup name = none ∧
      (g.rule? name = none ∧ rule g name s = (.error (.error (.unknownRule name)), s) ∨
        ∃ decl, g.rule? name = some decl ∧
          ((∃ e, g.build decl = .error e ∧
              rule g name s = (.error (.error e), { s with built := name :: s.built })) ∨
            ∃ r, g.build decl = .ok r ∧
              rule g name s = (.ok r, { s with cache := (name, r) :: s.cache, built := name :: s.built }))) := by
  have hget : ∀ k : Session → Eval Session Rule, (get >>= k) s = k s s := fun _ => rfl
  unfold rule
  rw [hget]
  cases hc : s.cache.lookup name with
  | some r => exact .inl ⟨r, rfl, rfl⟩
  | none =>
    refine .inr ⟨rfl, ?_⟩
    cases hr : g.rule? name with
    | none => exact .inl ⟨rfl, rfl⟩
    | some decl =>
      refine .inr ⟨decl, rfl, ?_⟩
      cases hb : g.build decl with
      | error e =>
        simp only [hb]
        exact .inl ⟨e, rfl, rfl⟩
      | ok r =>
        simp only [hb]
        exact .inr ⟨r, rfl, rfl⟩

theorem Sound.rule_apply (h : s.Sound g st) (name : String) :
    ∃ s', rule g name s = (g.find name, s') ∧ s'.Sound g st := by
  rcases rule_cases g name s with ⟨r, hc, he⟩ | ⟨_, ⟨hr, he⟩ | ⟨decl, hr, ⟨e, hb, he⟩ | ⟨r, hb, he⟩⟩⟩
  · rw [he, Grammar.find_eq_ok.2 (h.cache name r hc)]
    exact ⟨s, rfl, h⟩
  · have hfind : g.find name = .error (.error (.unknownRule name)) := by
      unfold Grammar.find
      rw [hr]
    rw [he, hfind]
    exact ⟨s, rfl, h⟩
  · have hfind : g.find name = .error (.error e) := by
      unfold Grammar.find
      simp only [hr, hb]
      rfl
    rw [he, hfind]
    exact ⟨_, rfl, h.active, h.cache⟩
  · have hd : g.Declares name r := ⟨decl, hr, hb⟩
    rw [he, Grammar.find_eq_ok.2 hd]
    refine ⟨_, rfl, h.active, fun name' rule' hl => ?_⟩
    by_cases hn : name' = name
    · subst hn
      have heq : r = rule' := by simpa using hl
      exact heq ▸ hd
    · have hne : (name' == name) = false := by simp [hn]
      exact h.cache name' rule' (by simpa [List.lookup_cons, hne] using hl)

theorem enter_apply (f : Frame) (s : Session) :
    enter f s = if inProgress s.active f then (.error (.error (.leftRecursion f.rule f.offset)), s)
      else (.ok (), { s with active := f :: s.active }) := by
  unfold enter
  show (if inProgress s.active f then _ else _ : Eval Session Unit) s = _
  split <;> rfl

theorem rule_triple (err : Fault → Prop) (hu : ∀ name, g.rule? name = none → err (.error (.unknownRule name)))
    (hb : ∀ decl ∈ g.rules, ∀ e, g.build decl = .error e → err (.error e)) (st : List Frame) (name : String) :
    Triple (Sound g st) (rule g name) (fun rule s => Sound g st s ∧ g.Declares name rule)
      (fun f s => Sound g st s ∧ err f) := by
  intro s hs
  obtain ⟨s', he, hs'⟩ := hs.rule_apply name
  rw [he]
  cases hf : g.find name with
  | ok rule => exact ⟨hs', Grammar.find_eq_ok.1 hf⟩
  | error f =>
    rcases Grammar.find_eq_error hf with ⟨hr, rfl⟩ | ⟨decl, hd, e, hb', rfl⟩
    · exact ⟨hs', hu name hr⟩
    · exact ⟨hs', hb decl hd e hb'⟩

theorem exit_triple {E : Fault → Session → Prop} (f : Frame) (st : List Frame) :
    Triple (Sound g (f :: st)) exit (fun _ => Sound g st) E := by
  intro s hs
  exact ⟨congrArg List.tail hs.active, hs.cache⟩

theorem enter_triple {err : Fault → Prop} (hl : ∀ name p, err (.error (.leftRecursion name p))) (f : Frame)
    (st : List Frame) :
    Triple (Sound g st) (enter f) (fun _ => Sound g (f :: st)) (fun e s => Sound g st s ∧ err e) := by
  intro s hs
  rw [enter_apply]
  cases inProgress s.active f with
  | true => exact ⟨hs, hl _ _⟩
  | false => exact ⟨congrArg (f :: ·) hs.active, hs.cache⟩

/-- The faults of sessions are those of their rules and those of rules that are entered again or too deep. -/
theorem host_sound_of (g : Grammar) (i : Input) {err : Fault → Prop}
    (hu : ∀ name, g.rule? name = none → err (.error (.unknownRule name)))
    (hb : ∀ decl ∈ g.rules, ∀ e, g.build decl = .error e → err (.error e))
    (hl : ∀ name p, err (.error (.leftRecursion name p))) (hx : err .exhausted)
    (hd : ∀ depth, err (.error (.recursionLimit depth)))
    (hp : ∀ p message, i.isBoundary p = true → err (.error (.parse ⟨p, message, i⟩)))
    (hn : ∀ name, err (.error (.unresolved name))) :
    (host g).Sound g i (Sound g) err (fun _ _ _ _ => True) where
  rule st name := rule_triple _ hu hb st name
  enter _ _ st _ _ _ _ _ _ :=
    (enter_triple hl _ st).conseq (fun _ h => h) (fun _ _ h => ⟨h, fun _ _ _ => trivial⟩) fun _ _ h => h
  exit f st := exit_triple f st
  exhausted _ _ _ _ := hx
  limit := hd
  parse := hp
  unresolved := hn

theorem host_sound (g : Grammar) (i : Input) :
    (host g).Sound g i (Sound g) (fun _ => True) (fun _ _ _ _ => True) := by
  apply host_sound_of <;> intros <;> trivial

/-- References that are asserted as `φ` lets them be stop with faults in `err`, wherever they are, if the
bodies of rules do so as soon as references in them do. -/
theorem callRule_triple (g : Grammar) (i : Input) {err : Fault → Prop} {φ : Bool → Prop}
    (hu : ∀ name, g.rule? name = none → err (.error (.unknownRule name)))
    (hb : ∀ decl ∈ g.rules, ∀ e, g.build decl = .error e → err (.error e))
    (hl : ∀ name p, err (.error (.leftRecursion name p))) (hx : err .exhausted)
    (hd : ∀ depth, err (.error (.recursionLimit depth)))
    (hbody : ∀ name rule, g.Declares name rule → ∀ (s : Scope Session) (I : Session → Prop),
      (∀ a name p, φ a → Triple I (s.refer a name p) (fun _ => I) (fun f t => I t ∧ err f)) →
      ∀ p, Triple I (rule.body.eval s p) (fun _ => I) (fun f t => I t ∧ err f))
    (hclose : ∀ o a name p tree f, φ a → closeRule i o a name p tree = .error f → err f) :
    ∀ (fuel : Nat) (o : Options) (depth : Nat) (st : List Frame) (a : Bool) (name : String) (p : Nat), φ a →
      Triple (Sound g st) (callRule (host g) i fuel o depth a name p) (fun _ => Sound g st)
        (fun f s => Sound g st s ∧ err f)
  | 0, _, _, _, _, _, _, _ => .throw fun _ hs => ⟨hs, hx⟩
  | fuel + 1, o, depth, st, a, name, p, ha => by
    rw [callRule_succ]
    refine (rule_triple err hu hb st name).bind fun rule => .of_fact fun hdecl => ?_
    refine (checkDepth_triple o (hd _)).bind fun _ => (enter_triple hl _ st).bind fun _ => ?_
    -- the body keeps the invariant with the rule in progress, and the exit takes the rule away after a fault too
    have heval := hbody name rule hdecl ((host g).scope i fuel (rule.overrides.apply o) (depth + 1))
      (Sound g (⟨rule.name, p, o⟩ :: st)) (fun a name q ha =>
        callRule_triple g i hu hb hl hx hd hbody hclose fuel _ (depth + 1) _ a name q ha) p
    refine Triple.bind (R := fun _ => Sound g st) (Triple.ensuring heval (fun _ => exit_triple _ st) fun f => ?_)
      fun tree => .ofExcept (fun _ _ _ hs => hs) fun f hf _ hs => ⟨hs, hclose _ _ _ _ _ f ha hf⟩
    exact .of_fact fun hf => (exit_triple _ st).conseq (fun _ h => h) (fun _ _ h => ⟨h, hf⟩) fun _ _ h => h

theorem eval_triple (e : Expr) {i : Input} (o : Options) (depth : Nat) {p : Nat} (hp : i.isBoundary p = true) :
    Triple (Sound g st) (e.eval (g.scope i o depth) p) (fun n s => Sound g st s ∧ Derives g i o e p n)
      (fun _ s => Sound g st s) :=
  (((host_sound g i).scope (fun _ _ _ => trivial) depth).eval e (Nat.le_refl p) hp).conseq (fun _ h => h)
    (fun _ _ h => h) fun _ _ h => h.1

end Session

/-! ## Calls -/

inductive Call where
  | rule (name : String)
  | evaluate (name : String) (t : Text)
  | parseRule (name : String) (t : Text)
  | parse (t : Text)
  -- an expression on its own, at the beginning of a character
  | apply (e : Expr) (t : Text) (o : Options) (depth p : Nat)

namespace Grammar

def answer (g : Grammar) (s : Session) : Call → Session
  | .rule name => (Session.rule g name s).2
  | .evaluate name t => (g.evaluate name t s).2
  | .parseRule name t => (g.parseRule name t s).2
  | .parse t => (g.parse t s).2
  | .apply e t o depth p =>
    if (Input.ofText t).isBoundary p then (e.eval (g.scope (.ofText t) o depth) p s).2 else s

def after (g : Grammar) (calls : List Call) : Session := calls.foldl g.answer {}

theorem parseRule_fst (g : Grammar) (name : String) (t : Text) (s : Session) :
    (g.parseRule name t s).1 = (g.evaluate name t s).1.bind fun tree =>
      if tree.isFailed then .error (.error .noMatch)
      else .ok (if g.options.simplifyTree then tree.simplify else tree) := by
  unfold parseRule
  rw [bind_apply]
  rcases g.evaluate name t s with ⟨_ | tree, s'⟩
  · rfl
  · cases hf : tree.isFailed <;> simp [hf, Except.bind] <;> rfl

theorem parseRule_state (g : Grammar) (name : String) (t : Text) (s : Session) :
    (g.parseRule name t s).2 = (g.evaluate name t s).2 := by
  unfold parseRule
  rw [bind_apply]
  rcases g.evaluate name t s with ⟨_ | tree, s'⟩
  · rfl
  · cases hf : tree.isFailed <;> simp [hf] <;> rfl

theorem rule_sound (h : s.Sound g []) (name : String) : (Session.rule g name s).2.Sound g [] :=
  (Session.rule_triple (fun _ => True) (fun _ _ => trivial) (fun _ _ _ _ => trivial) [] name).state h
    (fun _ _ h => h.1) fun _ _ h => h.1

theorem eval_sound (h : s.Sound g st) (e : Expr) {i : Input} (o : Options) (depth : Nat) {p : Nat}
    (hp : i.isBoundary p = true) : (e.eval (g.scope i o depth) p s).2.Sound g st :=
  (Session.eval_triple e o depth hp).state h (fun _ _ h => h.1) fun _ _ h => h

theorem evaluate_sound (h : s.Sound g []) (name : String) (t : Text) : (g.evaluate name t s).2.Sound g [] :=
  eval_sound h _ _ _ (Input.isBoundary_zero _)

theorem parse_sound (h : s.Sound g []) (t : Text) : (g.parse t s).2.Sound g [] := by
  unfold parse
  cases g.start with
  | none => exact h
  | some name =>
    simp only [parseRule_state]
    exact evaluate_sound h name t

theorem answer_sound (h : s.Sound g []) (call : Call) : (g.answer s call).Sound g [] := by
  cases call with
  | rule name => exact rule_sound h name
  | evaluate name t => exact evaluate_sound h name t
  | parseRule name t =>
    simp only [answer, parseRule_state]
    exact evaluate_sound h name t
  | parse t => exact parse_sound h t
  | apply e t o depth p =>
    simp only [answer]
    by_cases hp : (Input.ofText t).isBoundary p = true
    · rw [if_pos hp]
      exact eval_sound h e o depth hp
    · rw [if_neg hp]
      exact h

theorem after_sound (g : Grammar) (calls : List Call) : (g.after calls).Sound g [] := by
  have hstart : Session.Sound g [] {} := ⟨rfl, fun _ _ h => by cases h⟩
  unfold after
  generalize ({} : Session) = s at hstart
  induction calls generalizing s with
  | nil => exact hstart
  | cons call calls ih => exact ih _ (answer_sound hstart call)

theorem resumed_sound (g : Grammar) (calls : List Call) (st : List Frame) :
    Session.Sound g st { g.after calls with active := st } := ⟨rfl, (g.after_sound calls).cache⟩

theorem resumed_idle (g : Grammar) (calls : List Call) : { g.after calls with active := [] } = g.after calls :=
  congrArg (fun st => { g.after calls with active := st }) (g.after_sound calls).active.symm

theorem after_derives (g : Grammar) (calls : List Call) (st : List Frame) {e : Expr} {i : Input} {o : Options}
    {depth p : Nat} {n : Node} (hp : i.isBoundary p = true)
    (h : (e.eval (g.scope i o depth) p { g.after calls with active := st }).1 = .ok n) : Derives g i o e p n :=
  ((Session.eval_triple e o depth hp).ok (g.resumed_sound calls st) h).2

end Grammar

end PegTree
