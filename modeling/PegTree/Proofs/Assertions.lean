import PegTree.Proofs.Lockstep

/-!
# Assertions

An assertion turns a mismatch into an error and does nothing else: where an evaluation is not stopped
by a parse error, the same grammar without assertions comes to the same end. Nothing but an assertion
raises a parse error, unless a body fails with one when it is built.
-/

namespace PegTree

open Eval

def Expr.relaxed (e : Expr) : Expr := e.mapAsserted fun _ => false

def Grammar.relaxed (g : Grammar) : Grammar :=
  { g with rules := g.rules.map fun decl =>
      { decl with body := fun token? => (decl.body token?).map Expr.relaxed } }

def Fault.IsParse (f : Fault) : Prop := ∃ e, f = .error (.parse e)

/-! ## With and without assertions -/

/-- Nodes and options stay as they are, and nothing is asserted. -/
def View.relaxing : View := ⟨fun n => n, fun _ => false, fun b => b⟩

theorem View.relaxing_grammar (g : Grammar) : View.relaxing.grammar g = g.relaxed := rfl

theorem View.relaxing_frames (st : List Frame) : st.map View.relaxing.frame = st := List.map_id st

theorem View.relaxing_fair : View.relaxing.Fair (fun _ => True) Fault.IsParse where
  text _ := rfl
  stop _ := rfl
  matched o tag t p q before ns after _ _ _ _ := by
    have hid : ∀ ms : List Node, ms.map View.relaxing.node = ms := List.map_id
    rw [hid, hid, hid]
    rfl
  failed o tag p ns _ := by
    have hid : ns.map View.relaxing.node = ns := List.map_id ns
    rw [hid]
    rfl
  refusal i a p message n := by
    cases a with
    | true => exact .inl ⟨_, rfl, _, rfl⟩
    | false => exact .inr rfl
  injective _ _ _ _ h := h
  adds_none _ _ h := h

theorem View.relaxing_apart (g : Grammar) : View.relaxing.Apart (fun _ => True) g :=
  fun _ _ _ _ => ⟨rfl, trivial⟩

theorem map_relaxing (r : Except Fault Node) : r.map View.relaxing.node = r := by cases r <;> rfl

/-! ## Without assertions -/

/-- A fault that tells of no mismatch: a parse error at most if a body failed with it when it was built. -/
def Grammar.Calm (g : Grammar) (f : Fault) : Prop := f.IsParse → g.Unbuilt f

theorem Grammar.calm_of_not_isParse {g : Grammar} {f : Fault} (h : ¬ f.IsParse) : g.Calm f := fun hf => absurd hf h

theorem Grammar.Unbuilt.of_relaxed {g : Grammar} {f : Fault} (h : g.relaxed.Unbuilt f) : g.Unbuilt f := by
  obtain ⟨decl', hd', e, he, rfl⟩ := h
  obtain ⟨decl, hd, rfl⟩ := List.mem_map.1 hd'
  refine ⟨decl, hd, e, ?_, rfl⟩
  unfold build at he ⊢
  change ((decl.body g.token?).map Expr.relaxed).map _ = _ at he
  cases hb : decl.body g.token? with
  | error e' =>
    rw [hb] at he
    cases he
    rfl
  | ok body =>
    rw [hb] at he
    cases he

namespace Scope

variable {σ : Type} {s : Scope σ} {p : Nat} {f : Fault}

theorem literal_relaxed {ms : List Matcher} {c : Option Bool} (h : s.literal false ms c p = .error f) :
    ¬ f.IsParse := by
  rcases literal_fault h with ⟨q, rfl⟩ | ⟨ha, _⟩
  · rintro ⟨_, he⟩
    cases he
  · cases ha

theorem endOfLine_relaxed (h : s.endOfLine false p = .error f) : ¬ f.IsParse := by
  rcases endOfLine_fault h with ⟨q, rfl⟩ | ⟨ha, _⟩
  · rintro ⟨_, he⟩
    cases he
  · cases ha

theorem endOfInput_relaxed : ∃ n, s.endOfInput false p = .ok n := by
  simp only [endOfInput]
  split
  · exact ⟨_, rfl⟩
  · exact ⟨_, rfl⟩

theorem closeSequence_relaxed (items : List Expr) (run : Run) :
    ∃ n, s.closeSequence false items p run = .ok n := by
  unfold closeSequence
  split
  · exact ⟨_, rfl⟩
  · exact ⟨_, rfl⟩

theorem closeChoice_relaxed (q : Nat) (trial : Trial) : ∃ n, s.closeChoice false p q trial = .ok n := by
  unfold closeChoice
  split
  · exact ⟨_, rfl⟩
  · exact ⟨_, rfl⟩

theorem closeRepetition_relaxed (low : Nat) (high : Option Nat) (run : Run) :
    ∃ n, s.closeRepetition false low high p run = .ok n := by
  simp only [closeRepetition]
  split
  · exact ⟨_, rfl⟩
  · split
    · exact ⟨_, rfl⟩
    · exact ⟨_, rfl⟩

end Scope

theorem closeRule_relaxed (i : Input) (o : Options) (name : String) (p : Nat) (tree : Node) :
    ∃ n, closeRule i o false name p tree = .ok n := by
  unfold closeRule
  split
  · exact ⟨_, rfl⟩
  · exact ⟨_, rfl⟩

def Eval.Quiet {σ α : Type} (g : Grammar) (I : σ → Prop) (x : Eval σ α) : Prop :=
  Triple I x (fun _ => I) (fun f t => I t ∧ g.Calm f)

section
variable {σ : Type} {g : Grammar} {s : Scope σ} {I : σ → Prop}

theorem Eval.Quiet.bind {α β : Type} {x : Eval σ α} {y : α → Eval σ β} (hx : x.Quiet g I)
    (hy : ∀ a, (y a).Quiet g I) : (x >>= y).Quiet g I := Triple.bind hx hy

theorem Eval.Quiet.pure {α : Type} (a : α) : (pure a : Eval σ α).Quiet g I := Triple.pure fun _ h => h

theorem Eval.Quiet.throw {α : Type} {f : Fault} (hf : ¬ f.IsParse) : (throw f : Eval σ α).Quiet g I :=
  Triple.throw fun _ h => ⟨h, g.calm_of_not_isParse hf⟩

theorem Eval.Quiet.ofExcept {α : Type} {x : Except Fault α} (h : ∀ f, x = .error f → ¬ f.IsParse) :
    (ofExcept x : Eval σ α).Quiet g I :=
  Triple.ofExcept (fun _ _ _ h => h) fun f hf _ ht => ⟨ht, g.calm_of_not_isParse (h f hf)⟩

theorem Eval.Quiet.of_ok {x : Except Fault Node} (h : ∃ n, x = .ok n) :
    (Eval.ofExcept x : Eval σ Node).Quiet g I := by
  obtain ⟨n, rfl⟩ := h
  exact .pure n

mutual
theorem eval_quiet (hr : ∀ name p, (s.refer false name p).Quiet g I) (e : Expr) (p : Nat) :
    (e.relaxed.eval s p).Quiet g I := by
  cases e with
  | literal a ms c =>
    unfold Expr.relaxed Expr.mapAsserted Expr.eval
    exact .ofExcept fun _ => Scope.literal_relaxed
  | sequence a items =>
    unfold Expr.relaxed Expr.mapAsserted Expr.eval
    exact (evalRow_quiet hr items p).bind fun run => .of_ok (Scope.closeSequence_relaxed _ run)
  | choice a items =>
    unfold Expr.relaxed Expr.mapAsserted Expr.eval
    exact (evalAny_quiet hr items _).bind fun trial => .of_ok (Scope.closeChoice_relaxed _ trial)
  | repetition a low high item =>
    unfold Expr.relaxed Expr.mapAsserted Expr.eval
    have hx : g.Calm .exhausted := g.calm_of_not_isParse fun ⟨_, h⟩ => by cases h
    exact Eval.Quiet.bind (repeatRun_stops hx (fun q => eval_quiet hr item q) _ _ _) fun run =>
      .of_ok (Scope.closeRepetition_relaxed low high run)
  | optional a item =>
    unfold Expr.relaxed Expr.mapAsserted Expr.eval
    exact (eval_quiet hr item p).bind fun n => .pure _
  | endOfLine a =>
    unfold Expr.relaxed Expr.mapAsserted Expr.eval
    exact .ofExcept fun _ => Scope.endOfLine_relaxed
  | endOfInput a =>
    unfold Expr.relaxed Expr.mapAsserted Expr.eval
    exact .of_ok Scope.endOfInput_relaxed
  | rule a name =>
    unfold Expr.relaxed Expr.mapAsserted Expr.eval
    exact hr name p
  | placeholder a name =>
    unfold Expr.relaxed Expr.mapAsserted Expr.eval
    exact .throw fun ⟨_, h⟩ => by cases h
theorem evalRow_quiet (hr : ∀ name p, (s.refer false name p).Quiet g I) (es : List Expr) (p : Nat) :
    (Expr.evalRow s (Expr.mapAssertedList (fun _ => false) es) p).Quiet g I := by
  cases es with
  | nil =>
    unfold Expr.mapAssertedList Expr.evalRow
    exact .pure _
  | cons e es =>
    unfold Expr.mapAssertedList Expr.evalRow
    refine Eval.Quiet.bind (eval_quiet hr e _) fun n => ?_
    cases n.stop with
    | none => exact .pure _
    | some stop => exact (evalRow_quiet hr es stop).bind fun run => .pure _
theorem evalAny_quiet (hr : ∀ name p, (s.refer false name p).Quiet g I) (es : List Expr) (p : Nat) :
    (Expr.evalAny s (Expr.mapAssertedList (fun _ => false) es) p).Quiet g I := by
  cases es with
  | nil =>
    unfold Expr.mapAssertedList Expr.evalAny
    exact .pure _
  | cons e es =>
    unfold Expr.mapAssertedList Expr.evalAny
    refine Eval.Quiet.bind (eval_quiet hr e _) fun n => ?_
    cases n.isFailed with
    | true => exact (evalAny_quiet hr es p).bind fun trial => .pure _
    | false => exact .pure _
end

end

theorem Grammar.body_relaxed {g : Grammar} {name : String} {rule : Rule} (h : g.relaxed.Declares name rule) :
    ∃ e : Expr, rule.body = e.relaxed := by
  have hfind := View.relaxing.find_grammar g name
  rw [View.relaxing_grammar, Grammar.find_eq_ok.2 h] at hfind
  cases hg : g.find name with
  | ok r =>
    rw [hg] at hfind
    cases hfind
    exact ⟨r.body, rfl⟩
  | error f =>
    rw [hg] at hfind
    cases hfind

theorem callRule_quiet (g : Grammar) (i : Input) (fuel : Nat) (o : Options) (depth : Nat) (st : List Frame)
    (name : String) (p : Nat) :
    (callRule (Session.host g.relaxed) i fuel o depth false name p).Quiet g (Session.Sound g.relaxed st) := by
  have hcalm : ∀ f : Fault, (∀ e, f ≠ .error (.parse e)) → g.Calm f := fun f hf =>
    g.calm_of_not_isParse fun ⟨e, he⟩ => hf e he
  refine Session.callRule_triple
    (φ := (· = false)) g.relaxed i ?unknown ?unbuilt ?recursion ?fuel ?limit ?body ?close
    fuel o depth st false name p rfl
  case unknown => exact fun _ _ => hcalm _ (by simp)
  case unbuilt => exact fun decl hd e he _ => .of_relaxed ⟨decl, hd, e, he, rfl⟩
  case recursion => exact fun _ _ => hcalm _ (by simp)
  case fuel => exact hcalm _ (by simp)
  case limit => exact fun _ => hcalm _ (by simp)
  case body =>
    intro name rule hdecl s I hr q
    obtain ⟨e, he⟩ := Grammar.body_relaxed hdecl
    rw [he]
    exact eval_quiet (fun name q => hr false name q rfl) e q
  case close =>
    rintro o a name q tree f rfl hf
    obtain ⟨n, hn⟩ := closeRule_relaxed i o name q tree
    rw [hn] at hf
    cases hf

/-! ## What assertions do -/

/-- Two results with and without assertions: the same, unless the first is a parse error. -/
structure Grammar.OnlyRaised (g : Grammar) (asserting relaxed : Except Fault Node) : Prop where
  same : (∀ err, asserting ≠ .error (.error (.parse err))) → relaxed = asserting
  calm : ∀ err, relaxed = .error (.error (.parse err)) → g.Unbuilt (.error (.parse err))

/-- An evaluation that does not stop with a parse error comes to the same end without assertions, and
without them a parse error is one that a body failed with when it was built. -/
theorem assertions_only_raise (g : Grammar) (calls calls' : List Call) :
    (∀ (e : Expr) (i : Input) (o : Options) (depth p : Nat) (st : List Frame),
      g.OnlyRaised (e.eval (g.scope i o depth) p { g.after calls with active := st }).1
        (e.relaxed.eval (g.relaxed.scope i o depth) p { g.relaxed.after calls' with active := st }).1) ∧
    ∀ (name : String) (t : Text),
      g.OnlyRaised (g.evaluate name t (g.after calls)).1
        (g.relaxed.evaluate name t (g.relaxed.after calls')).1 := by
  have heval : ∀ (e : Expr) (i : Input) (o : Options) (depth p : Nat) (st : List Frame),
      g.OnlyRaised (e.eval (g.scope i o depth) p { g.after calls with active := st }).1
        (e.relaxed.eval (g.relaxed.scope i o depth) p { g.relaxed.after calls' with active := st }).1 := by
    intro e i o depth p st
    refine ⟨fun hne => ?_, fun err herr => ?_⟩
    · have hpair := View.relaxing.pair_after (fun _ => True) g calls calls' st fun _ _ => trivial
      rw [View.relaxing_frames] at hpair
      have h := View.relaxing_fair.eval_eq (View.relaxing_apart g) (o := o) trivial e depth p hpair
        fun f hf ⟨err, he⟩ => hne err (he ▸ hf)
      rw [map_relaxing] at h
      exact h
    · have hquiet := eval_quiet (s := g.relaxed.scope i o depth)
        (fun name q => callRule_quiet g i _ o depth st name q) e p
      exact (hquiet.error (g.relaxed.resumed_sound calls' st) herr).2 ⟨err, rfl⟩
  refine ⟨heval, fun name t => ?_⟩
  have hrule := heval (.ref name) (.ofText t) g.options 0 0 []
  rw [Grammar.resumed_idle, Grammar.resumed_idle] at hrule
  exact hrule

end PegTree
