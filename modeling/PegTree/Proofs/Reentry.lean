import PegTree.Proofs.Termination
import PegTree.Proofs.Translation

/-!
# Entering rules

A look at the innermost frames is enough to find a rule in progress, because evaluation never goes back
to before the place where the innermost rule was entered, and because a rule that was entered is left
again, also with a fault. This holds of evaluations at any offset, be it inside a character.
-/

namespace PegTree

open Eval

/-! ## Evaluation goes onwards -/

/-- From a place in the input, `q` is a place in the input that does not lie before. -/
def Input.Onward (i : Input) (p q : Nat) : Prop := p ≤ i.size → p ≤ q ∧ q ≤ i.size

namespace Input.Onward

variable {i : Input} {p q r : Nat}

theorem refl (i : Input) (p : Nat) : i.Onward p p := fun h => ⟨Nat.le_refl p, h⟩

theorem trans (h : i.Onward p q) (h' : i.Onward q r) : i.Onward p r := by
  intro hp
  obtain ⟨hpq, hq⟩ := h hp
  obtain ⟨hqr, hr⟩ := h' hq
  exact ⟨Nat.le_trans hpq hqr, hr⟩

theorem of_rest {t u : Text} (h : i.rest p = t ++ u) : i.Onward p (p + byteSize t) := by
  intro hp
  refine ⟨Nat.le_add_right _ _, ?_⟩
  cases hb : i.isBoundary p with
  | true => exact le_size_of_isBoundary (Span.of_rest hb h).boundary.2
  | false =>
    have hnone : i.suffix? p = none := by simpa [isBoundary] using hb
    have hnil : t ++ u = [] := by simpa [rest, hnone] using h.symm
    simpa [(List.append_eq_nil_iff.1 hnil).1] using hp

theorem skip (i : Input) (o : Options) (p : Nat) : i.Onward p (i.skip o p) := by
  intro hp
  obtain ⟨u, hu⟩ := skippable_append o (i.rest p)
  have h := of_rest hu hp
  simpa [Input.skip, Cursor.skip, Cursor.ofOffset, Cursor.rest, Nat.min_eq_left hp] using h

end Input.Onward

/-- The node does not stop before `p`, nor behind the input if `p` is in it. -/
def Node.Stops (i : Input) (p : Nat) (n : Node) : Prop := ∀ q, n.stop = some q → i.Onward p q

theorem Node.stops_matched {i : Input} {p q r : Nat} {tag : Tag} {t : Text} {ns : List Node} (h : i.Onward p q) :
    (matched tag t r q ns).Stops i p := by
  intro q' hq
  cases hq
  exact h

theorem Node.stops_failed {i : Input} {p r : Nat} {tag : Tag} {ns : List Node} : (failed tag r ns).Stops i p := by
  intro q hq
  cases hq

theorem Cursor.accept?_onward {c stop : Cursor} {f : Text → Option Text} {t : Text}
    (hf : ∀ t u, f t = some u → ∃ rest, t = u ++ rest) (h : c.accept? f = .ok (some (t, stop))) :
    c.input.Onward c.offset stop.offset := by
  unfold accept? advance at h
  cases ht : f c.rest with
  | none =>
    rw [ht] at h
    cases h
  | some u =>
    obtain ⟨rest, hrest⟩ := hf _ _ ht
    by_cases hb : c.input.isBoundary c.offset = true
    · simp only [ht, if_pos hb] at h
      cases h
      exact Input.Onward.of_rest hrest
    · simp only [ht, if_neg hb] at h
      cases h

namespace Scope

variable {σ : Type} {s : Scope σ} {a : Bool} {p : Nat} {n : Node}

theorem ofOffset_onward (i : Input) (p : Nat) : i.Onward p (Cursor.ofOffset i p).offset := by
  intro hp
  simp [Cursor.ofOffset, hp]

theorem literal_stops {ms : List Matcher} {c : Option Bool} (h : s.literal a ms c p = .ok n) :
    n.Stops s.input p := by
  have hstart : s.input.Onward p (s.skip p) := .skip s.input s.options p
  unfold literal at h
  by_cases hm : ms.isEmpty = true
  · rw [if_pos hm] at h
    cases h
    exact Node.stops_matched hstart
  · rw [if_neg hm] at h
    cases ha : ((Cursor.ofOffset s.input p).skip s.options).accept?
      fun t => ms.findSome? (·.leading? (c.getD s.options.caseSensitive) t) with
    | error f =>
      rw [ha] at h
      cases h
    | ok r =>
      rw [ha] at h
      cases r with
      | none =>
        rw [refuse_eq_ok h]
        exact Node.stops_failed
      | some r =>
        cases h
        refine Node.stops_matched (hstart.trans (Cursor.accept?_onward (fun t u hu => ?_) ha))
        obtain ⟨m, _, hm⟩ := List.exists_of_findSome?_eq_some hu
        exact m.leading?_append hm

theorem endOfLine_stops (h : s.endOfLine a p = .ok n) : n.Stops s.input p := by
  simp only [endOfLine] at h
  cases ha : (Cursor.ofOffset s.input p).accept? leadingNewline? with
  | error f =>
    rw [ha] at h
    cases h
  | ok r =>
    rw [ha] at h
    cases r with
    | some r =>
      cases h
      exact Node.stops_matched
        ((ofOffset_onward s.input p).trans (Cursor.accept?_onward leadingNewline?_append ha))
    | none =>
      change (if _ then _ else _) = _ at h
      split at h
      · cases h
        exact Node.stops_matched (.skip s.input s.options p)
      · rw [refuse_eq_ok h]
        exact Node.stops_failed

theorem endOfInput_stops (h : s.endOfInput a p = .ok n) : n.Stops s.input p := by
  rcases endOfInput_ok h with rfl | rfl
  · exact Node.stops_matched (.skip s.input s.options p)
  · exact Node.stops_failed

/-! ## Expressions -/

/-- References keep `I` and go onwards from the places in `P`, which are closed under going onwards. Unless
running out of fuel is foreseen, these are places in the input. -/
structure Steady (s : Scope σ) (I : σ → Prop) (err : Fault → Prop) (P : Nat → Prop) : Prop where
  refer : ∀ a name p, P p → Triple I (s.refer a name p) (fun n t => I t ∧ n.Stops s.input p)
    (fun f t => I t ∧ err f)
  onward : ∀ p q, P p → s.input.Onward p q → P q
  lasting : err .exhausted ∨ ∀ p, P p → p ≤ s.input.size
  fault : ∀ f, f ≠ .exhausted → err f

section
variable {I : σ → Prop} {err : Fault → Prop} {P : Nat → Prop}

theorem Steady.close (hs : s.Steady I err P) {x : Except Fault Node} {R : Node → Prop}
    (hok : ∀ n, x = .ok n → R n) (herr : ∀ f, x = .error f → f ≠ .exhausted) :
    Triple I (.ofExcept x) (fun n t => I t ∧ R n) (fun f t => I t ∧ err f) :=
  .ofExcept (fun n hn _ ht => ⟨ht, hok n hn⟩) fun f hf _ ht => ⟨ht, hs.fault f (herr f hf)⟩

theorem Steady.repeatRun (hs : s.Steady I err P) {item : Nat → Eval σ Node}
    (hitem : ∀ p, P p → Triple I (item p) (fun n t => I t ∧ n.Stops s.input p) (fun f t => I t ∧ err f)) :
    ∀ (fuel place : Nat) (done : List Node), P place → err .exhausted ∨ s.input.size < fuel + place →
      Triple I (s.repeatRun item fuel place done) (fun run t => I t ∧ s.input.Onward place run.stop)
        (fun f t => I t ∧ err f)
  | 0, place, _, hp, hf => by
    refine .throw fun _ ht => ⟨ht, ?_⟩
    rcases hs.lasting with hx | hsize
    · exact hx
    · have := hsize place hp
      exact hf.resolve_right (by omega)
  | fuel + 1, place, done, hp, hf => by
    have hskip : s.input.Onward place (s.skip place) := .skip s.input s.options place
    unfold Scope.repeatRun
    refine (hitem _ (hs.onward _ _ hp hskip)).bind fun n => .of_fact fun hn => ?_
    cases hstop : n.stop with
    | none => exact .pure fun _ ht => ⟨ht, .refl s.input place⟩
    | some stop =>
      have hto := hskip.trans (hn stop hstop)
      by_cases he : stop = s.skip place
      · simp only [if_pos he]
        exact .pure fun _ ht => ⟨ht, hto⟩
      · simp only [if_neg he]
        have hfuel : err .exhausted ∨ s.input.size < fuel + stop := by
          rcases hs.lasting with hx | hsize
          · exact .inl hx
          · -- a round that goes on has moved on, so it needs one unit of fuel less
            have hplace := hsize place hp
            have hstart := hskip hplace
            have hmoved := hn stop hstop hstart.2
            exact hf.imp_right fun _ => by omega
        exact (Steady.repeatRun hs hitem fuel stop (n :: done) (hs.onward _ _ hp hto) hfuel).conseq (fun _ h => h)
          (fun _ _ h => ⟨h.1, hto.trans h.2⟩) fun _ _ h => h

mutual
theorem Steady.eval (hs : s.Steady I err P) (e : Expr) {p : Nat} (hp : P p) :
    Triple I (e.eval s p) (fun n t => I t ∧ n.Stops s.input p) (fun f t => I t ∧ err f) := by
  have hskip : s.input.Onward p (s.skip p) := .skip s.input s.options p
  cases e with
  | literal a ms c =>
    unfold Expr.eval
    refine hs.close (fun _ => literal_stops) fun f hf => ?_
    rcases literal_fault hf with ⟨_, rfl⟩ | ⟨_, _, rfl⟩ <;> exact fun h => by cases h
  | sequence a items =>
    unfold Expr.eval
    refine (hs.evalRow items hp).bind fun run => .of_fact fun hrun => hs.close (fun n hn => ?_) fun f hf => ?_
    · rcases closeSequence_ok hn with ⟨_, rfl⟩ | ⟨_, _, rfl⟩
      · exact Node.stops_matched hrun
      · exact Node.stops_failed
    · obtain ⟨_, rfl⟩ := closeSequence_error hf
      exact fun h => by cases h
  | choice a items =>
    unfold Expr.eval
    have hany := hs.evalAny items (hs.onward _ _ hp hskip)
    refine hany.bind fun trial => .of_fact fun htrial => hs.close (fun n hn => ?_) fun f hf => ?_
    · rcases closeChoice_ok hn with ⟨m, stop, hm, hstop, rfl⟩ | rfl
      · exact Node.stops_matched (hskip.trans (htrial m hm stop hstop))
      · exact Node.stops_failed
    · obtain ⟨_, rfl⟩ := closeChoice_error hf
      exact fun h => by cases h
  | repetition a low high item =>
    unfold Expr.eval
    have hrun := Steady.repeatRun hs (fun q hq => hs.eval item hq) (s.input.size + 1) p [] hp (.inr (by omega))
    refine hrun.bind fun run => .of_fact fun hrun => hs.close (fun n hn => ?_) fun f hf => ?_
    · rcases closeRepetition_ok hn with rfl | rfl
      · exact Node.stops_matched hrun
      · exact Node.stops_failed
    · obtain ⟨_, rfl⟩ := closeRepetition_error hf
      exact fun h => by cases h
  | optional a item =>
    unfold Expr.eval
    refine (hs.eval item hp).bind fun n => .of_fact fun hn => .pure fun _ ht => ⟨ht, ?_⟩
    rcases s.closeOptional_eq (p := p) n with ⟨stop, hstop, e⟩ | ⟨_, e⟩
    · rw [e]
      exact Node.stops_matched (hn stop hstop)
    · rw [e]
      exact Node.stops_matched (.refl s.input p)
  | endOfLine a =>
    unfold Expr.eval
    refine hs.close (fun _ => endOfLine_stops) fun f hf => ?_
    rcases endOfLine_fault hf with ⟨_, rfl⟩ | ⟨_, _, rfl⟩ <;> exact fun h => by cases h
  | endOfInput a =>
    unfold Expr.eval
    refine hs.close (fun _ => endOfInput_stops) fun f hf => ?_
    obtain ⟨_, rfl⟩ := endOfInput_error hf
    exact fun h => by cases h
  | rule a name =>
    unfold Expr.eval
    exact hs.refer a name p hp
  | placeholder a name =>
    unfold Expr.eval
    exact .throw fun _ ht => ⟨ht, hs.fault _ fun h => by cases h⟩
theorem Steady.evalRow (hs : s.Steady I err P) (es : List Expr) {p : Nat} (hp : P p) :
    Triple I (Expr.evalRow s es p) (fun run t => I t ∧ s.input.Onward p run.stop) (fun f t => I t ∧ err f) := by
  cases es with
  | nil =>
    unfold Expr.evalRow
    exact .pure fun _ ht => ⟨ht, .refl s.input p⟩
  | cons e es =>
    have hskip : s.input.Onward p (s.skip p) := .skip s.input s.options p
    unfold Expr.evalRow
    refine (hs.eval e (hs.onward _ _ hp hskip)).bind fun n => .of_fact fun hn => ?_
    cases hstop : n.stop with
    | none => exact .pure fun _ ht => ⟨ht, .refl s.input p⟩
    | some stop =>
      have hto := hskip.trans (hn stop hstop)
      refine (hs.evalRow es (hs.onward _ _ hp hto)).bind fun run => .of_fact fun hrun => ?_
      exact .pure fun _ ht => ⟨ht, hto.trans hrun⟩
theorem Steady.evalAny (hs : s.Steady I err P) (es : List Expr) {p : Nat} (hp : P p) :
    Triple I (Expr.evalAny s es p) (fun trial t => I t ∧ ∀ n, trial.chosen = some n → n.Stops s.input p)
      (fun f t => I t ∧ err f) := by
  cases es with
  | nil =>
    unfold Expr.evalAny
    exact .pure fun _ ht => ⟨ht, fun _ h => by cases h⟩
  | cons e es =>
    unfold Expr.evalAny
    refine (hs.eval e hp).bind fun n => .of_fact fun hn => ?_
    cases n.isFailed with
    | true =>
      refine (hs.evalAny es hp).bind fun trial => .of_fact fun htrial => ?_
      exact .pure fun _ ht => ⟨ht, htrial⟩
    | false =>
      refine .pure fun _ ht => ⟨ht, fun m hm => ?_⟩
      cases hm
      exact hn
end

end

end Scope

/-! ## Rules -/

variable {σ : Type} {i : Input}

/-- A host keeps `I` for the rules in progress. `Fit fuel o st p` is what is known where a reference is
evaluated at `p` under `o` with the rules `st` in progress, and stays known onwards from there. -/
structure Host.Steady (h : Host σ) (i : Input) (I : List Frame → σ → Prop) (Known : Rule → Prop)
    (err : Fault → Prop)
    (Fit : Nat → Options → List Frame → Nat → Prop) : Prop where
  rule : ∀ st name, Triple (I st) (h.rule name) (fun rule t => I st t ∧ Known rule) (fun f t => I st t ∧ err f)
  enter : ∀ fuel o st p rule, Fit (fuel + 1) o st p → Known rule → Triple (I st) (h.enter ⟨rule.name, p, o⟩)
    (fun _ t => I (⟨rule.name, p, o⟩ :: st) t ∧ ∀ q, i.Onward p q →
      Fit fuel (rule.overrides.apply o) (⟨rule.name, p, o⟩ :: st) q)
    (fun f t => I st t ∧ err f)
  exit : ∀ frame st, Triple (I (frame :: st)) h.exit (fun _ => I st) (fun _ _ => False)
  exhausted : ∀ o st p, Fit 0 o st p → err .exhausted
  lasting : err .exhausted ∨ ∀ fuel o st p, Fit fuel o st p → p ≤ i.size
  fault : ∀ f, f ≠ .exhausted → err f

section
variable {h : Host σ} {I : List Frame → σ → Prop} {Known : Rule → Prop} {err : Fault → Prop}
  {Fit : Nat → Options → List Frame → Nat → Prop}

theorem Host.Steady.callRule (hh : h.Steady i I Known err Fit) : ∀ (fuel : Nat) (o : Options) (st : List Frame)
    (depth : Nat) (a : Bool) (name : String) (p : Nat), Fit fuel o st p →
    Triple (I st) (callRule h i fuel o depth a name p) (fun n t => I st t ∧ n.Stops i p)
      (fun f t => I st t ∧ err f)
  | 0, o, st, _, _, _, p, hfit => .throw fun _ ht => ⟨ht, hh.exhausted o st p hfit⟩
  | fuel + 1, o, st, depth, a, name, p, hfit => by
    rw [callRule_succ]
    refine (hh.rule st name).bind fun rule => .of_fact fun hknown => ?_
    refine (checkDepth_triple o (hh.fault _ fun h => by cases h)).bind fun _ => ?_
    refine (hh.enter fuel o st p rule hfit hknown).bind fun _ => .of_fact fun hbody => ?_
    -- the body is evaluated with the rule in progress and goes onwards from where it was entered
    have hscope : (h.scope i fuel (rule.overrides.apply o) (depth + 1)).Steady (I (⟨rule.name, p, o⟩ :: st)) err
        (i.Onward p) :=
      { refer := fun a name q hq => Host.Steady.callRule hh fuel _ _ (depth + 1) a name q (hbody q hq)
        onward := fun _ _ => Input.Onward.trans
        lasting := hh.lasting.imp_right fun hsize q hq => (hq (hsize _ o st p hfit)).2
        fault := hh.fault }
    have heval := (hscope.eval rule.body (.refl i p)).ensuring_facts (hh.exit _ st)
    refine heval.bind fun tree => .of_fact fun htree => ?_
    refine .ofExcept (fun n hn _ ht => ⟨ht, ?_⟩) fun f hf _ ht => ⟨ht, hh.fault f ?_⟩
    · rcases closeRule_ok hn with ⟨stop, hstop, rfl⟩ | ⟨_, rfl⟩
      · exact Node.stops_matched (htree stop hstop)
      · exact Node.stops_failed
    · obtain ⟨_, rfl⟩ := closeRule_error hf
      exact fun h => by cases h

theorem Host.Steady.eval (hh : h.Steady i I Known err Fit) {fuel : Nat} {o : Options} {st : List Frame} {p : Nat}
    (hfit : ∀ q, i.Onward p q → Fit fuel o st q) (e : Expr) (depth : Nat) :
    Triple (I st) (e.eval (h.scope i fuel o depth) p) (fun n t => I st t ∧ n.Stops i p)
      (fun f t => I st t ∧ err f) := by
  have hscope : (h.scope i fuel o depth).Steady (I st) err (i.Onward p) :=
    { refer := fun a name q hq => hh.callRule fuel o st depth a name q (hfit q hq)
      onward := fun _ _ => Input.Onward.trans
      lasting := hh.lasting.imp_right fun hsize q hq => (hq (hsize _ _ _ p (hfit p (.refl i p)))).2
      fault := hh.fault }
  exact hscope.eval e (.refl i p)

end

/-! ## What is left in progress -/

theorem Session.rule_active (g : Grammar) (name : String) (s : Session) :
    (Session.rule g name s).2.active = s.active := by
  rcases Session.rule_cases g name s with ⟨_, _, he⟩ | ⟨_, ⟨_, he⟩ | ⟨_, _, ⟨_, _, he⟩ | ⟨_, _, he⟩⟩⟩ <;> rw [he]

/-- Whatever a session holds, what is done to the rules in progress is undone. -/
theorem Session.host_restores (g : Grammar) (i : Input) :
    (Session.host g).Steady i (fun st s => s.active = st) (fun _ => True) (fun _ => True)
      (fun _ _ _ _ => True) where
  rule st name s hs := by
    have hactive := (Session.rule_active g name s).trans hs
    simp only [host]
    generalize Session.rule g name s = r at hactive ⊢
    obtain ⟨_ | _, s'⟩ := r
    · exact ⟨hactive, trivial⟩
    · exact ⟨hactive, trivial⟩
  enter _ o st p rule _ _ s hs := by
    simp only [host, enter_apply]
    cases inProgress s.active ⟨rule.name, p, o⟩ with
    | true => exact ⟨hs, trivial⟩
    | false => exact ⟨congrArg (_ :: ·) hs, fun _ _ => trivial⟩
  exit frame st s hs := congrArg List.tail hs
  exhausted _ _ _ _ := trivial
  lasting := .inl trivial
  fault _ _ := trivial

theorem Session.eval_restores (g : Grammar) (i : Input) (fuel : Nat) (o : Options) (depth : Nat)
    (e : Expr) (p : Nat)
    (s : Session) : (e.eval ((Session.host g).scope i fuel o depth) p s).2.active = s.active :=
  ((Session.host_restores g i).eval (fun _ _ => trivial) e depth).state (R := fun t => t.active = s.active) rfl
    (fun _ _ h => h.1) fun _ _ h => h.1

/-! ## What is found in progress -/

def Eval.noting {α β : Type} (x : Eval σ α) (note : σ × β → β) : Eval (σ × β) α :=
  fun t => match x t.1 with
    | (r, s) => (r, s, note t)

def Host.watched (h : Host σ) : Host (σ × List (σ × Frame)) :=
  ⟨fun name => (h.rule name).noting (·.2), fun f => (h.enter f).noting fun t => (t.1, f) :: t.2,
    h.exit.noting (·.2)⟩

section
variable {α β : Type} {P : σ → Prop} {Q : α → σ → Prop} {E : Fault → σ → Prop} {x : Eval σ α} {K : β → Prop}

theorem Eval.Triple.noting (hx : Triple P x Q E) {note : σ × β → β}
    (hnote : ∀ s b, P s → K b → K (note (s, b))) :
    Triple (fun t => P t.1 ∧ K t.2) (x.noting note) (fun a t => Q a t.1 ∧ K t.2) (fun f t => E f t.1 ∧ K t.2) := by
  rintro ⟨s, b⟩ ⟨hs, hb⟩
  have hafter := hnote s b hs hb
  have h := hx s hs
  unfold Eval.noting
  dsimp only
  generalize x s = y at h ⊢
  rcases y with ⟨f | a, s'⟩
  · exact ⟨h, hafter⟩
  · exact ⟨h, hafter⟩

end

theorem Host.watched_refines {h : Host σ} {E : Fault → Prop} (hx : ∀ s, (h.exit s).1 = .ok ()) :
    Host.Refines E (fun t s => t.1 = s) h.watched h :=
  ⟨fun _ => .beside fun _ => rfl, fun _ => .beside fun _ => rfl, fun t => hx t.1, .beside fun _ => rfl⟩

theorem Host.Steady.watched {h : Host σ} {I : List Frame → σ → Prop} {Known : Rule → Prop} {err : Fault → Prop}
    {Fit : Nat → Options → List Frame → Nat → Prop} {K : σ × Frame → Prop} (hh : h.Steady i I Known err Fit)
    (hK : ∀ fuel o st p name t, Fit (fuel + 1) o st p → I st t → K (t, ⟨name, p, o⟩)) :
    h.watched.Steady i (fun st t => I st t.1 ∧ ∀ entry ∈ t.2, K entry) Known err Fit where
  rule st name :=
    ((hh.rule st name).noting (K := fun log => ∀ entry ∈ log, K entry) fun _ _ _ h => h).conseq (fun _ h => h)
      (fun _ _ h => ⟨⟨h.1.1, h.2⟩, h.1.2⟩) fun _ _ h => ⟨⟨h.1.1, h.2⟩, h.1.2⟩
  enter fuel o st p rule hfit hknown :=
    ((hh.enter fuel o st p rule hfit hknown).noting (K := fun log => ∀ entry ∈ log, K entry) fun t _ ht hlog =>
      List.forall_mem_cons.2 ⟨hK fuel o st p rule.name t hfit ht, hlog⟩).conseq (fun _ h => h)
        (fun _ _ h => ⟨⟨h.1.1, h.2⟩, h.1.2⟩) fun _ _ h => ⟨⟨h.1.1, h.2⟩, h.1.2⟩
  exit frame st :=
    ((hh.exit frame st).noting (K := fun log => ∀ entry ∈ log, K entry) fun _ _ _ h => h).conseq (fun _ h => h)
      (fun _ _ h => h) fun _ _ h => h.1
  exhausted := hh.exhausted
  lasting := hh.lasting
  fault := hh.fault

/-- From the outermost frame to the innermost one the offsets do not decrease up to that of the entry, no
frame is there twice, and the scan of the innermost frames finds the frame of the entry if it is anywhere in
progress. -/
structure Session.Disciplined (entry : Session × Frame) : Prop where
  sorted : entry.1.active.Pairwise fun inner outer => outer.offset ≤ inner.offset
  low : ∀ f ∈ entry.1.active, f.offset ≤ entry.2.offset
  nodup : entry.1.active.Nodup
  scan : inProgress entry.1.active entry.2 = true ↔ entry.2 ∈ entry.1.active

section
variable {g : Grammar} {o : Options}

theorem Session.host_steady (g : Grammar) (i : Input) (o : Options) :
    (Session.host g).Steady i (fun st s => s.Sound g st ∧ Orderly g i o st)
      (fun rule => ∃ name, g.Declares name rule) (· ≠ .exhausted)
      (fun fuel o' st p => Headroom g i o fuel o' st p ∧ p ≤ i.size) where
  rule st name := (Session.rule_orderly i o st name).conseq (fun _ h => h) (fun _ _ h => ⟨h.1, name, h.2⟩)
    fun _ _ h => ⟨h.1, by obtain ⟨_, rfl⟩ := h.2; exact fun h => by cases h⟩
  enter fuel o' st p rule hfit hknown := by
    obtain ⟨name, hd⟩ := hknown
    refine (Session.enter_orderly hfit.1 hfit.2 hd).conseq (fun _ h => h) (fun _ s h => ⟨h.1, fun q hq => ?_⟩)
      fun f s h => ⟨h.1, ?_⟩
    · obtain ⟨hpq, hsize⟩ := hq hfit.2
      exact ⟨h.2 q hpq, hsize⟩
    · obtain ⟨_, rfl⟩ := h.2
      exact fun h => by cases h
  exit f st := Session.exit_orderly f st
  exhausted _ _ _ hfit := hfit.1.lasts.elim
  lasting := .inr fun _ _ _ _ hfit => hfit.2
  fault _ h := h

theorem Headroom.disciplined {fuel p : Nat} {o' : Options} {st : List Frame} {name : String} {s : Session}
    (hfit : Headroom g i o fuel o' st p) (hs : s.Sound g st) : Session.Disciplined (s, ⟨name, p, o'⟩) := by
  have hactive : s.active = st := hs.active
  subst hactive
  exact ⟨hfit.orderly.sorted, hfit.low, hfit.orderly.nodup, inProgress_iff hfit.orderly.sorted hfit.low⟩

end

def Grammar.evalWatched (g : Grammar) (i : Input) (o : Options) (depth : Nat) (e : Expr) (p : Nat) :
    Eval (Session × List (Session × Frame)) Node :=
  e.eval ((Session.host g).watched.scope i (g.nestingBound i + 1) o depth) p

/-- Evaluations from a place in the input on, with no rule in progress, come to an end, and at each entry on
the way the frames are disciplined, so that a frame in progress is always found. Whichever rules are in
progress when an expression is evaluated, they are in progress after it, with nothing above them. -/
theorem entries_disciplined (g : Grammar) (calls : List Call) {i : Input} (o : Options) (depth : Nat) (e : Expr)
    {p : Nat} (hp : p ≤ i.size) :
    (∃ log, g.evalWatched i o depth e p (g.after calls, []) =
        ((e.eval (g.scope i o depth) p (g.after calls)).1, (e.eval (g.scope i o depth) p (g.after calls)).2, log) ∧
      ∀ entry ∈ log, Session.Disciplined entry) ∧
    (g.after calls).active = [] ∧
    (e.eval (g.scope i o depth) p (g.after calls)).1 ≠ .error .exhausted ∧
    ∀ (s : Session) (fuel : Nat) (o' : Options) (depth' : Nat) (e' : Expr) (q : Nat),
      (e'.eval ((Session.host g).scope i fuel o' depth') q s).2.active = s.active := by
  have hs := g.after_sound calls
  have hfit : ∀ q, i.Onward p q → Headroom g i o (g.nestingBound i + 1) o [] q ∧ q ≤ i.size := fun q hq =>
    ⟨Headroom.start (g.bound_lt i) q, (hq hp).2⟩
  have hsteady := Session.host_steady g i o
  refine ⟨?_, hs.active, fun hx => ?_,
    fun s fuel o' depth' e' q => Session.eval_restores g i fuel o' depth' e' q s⟩
  · have hwatched := hsteady.watched (K := Session.Disciplined) fun _ _ _ _ _ _ hfit ht => hfit.1.disciplined ht.1
    have htriple := hwatched.eval hfit e depth
    have hh : (Session.host g).watched.Refines (fun _ => False) (fun t s => t.1 = s) (Session.host g) :=
      Host.watched_refines fun _ => rfl
    have hr := hh.eval (.inl (rfl : g.nestingBound i + 1 = _)) e i o depth p
    obtain ⟨hv, hst⟩ := hr.same (s := (g.after calls, [])) rfl fun _ _ h => h
    refine ⟨_, Prod.ext hv.symm (Prod.ext hst rfl), ?_⟩
    have hstart : ∀ entry ∈ ([] : List (Session × Frame)), Session.Disciplined entry := List.forall_mem_nil _
    exact htriple.state (R := fun t => ∀ entry ∈ t.2, Session.Disciplined entry) (s := (g.after calls, []))
      ⟨⟨hs, .nil⟩, hstart⟩ (fun _ _ h => h.1.2) fun _ _ h => h.1.2
  · exact ((hsteady.eval hfit e depth).error ⟨hs, .nil⟩ hx).2 rfl

/-- Behind the blank the item is entered anew, since the one in progress began before the blank; the entry
after that finds it, and the error leaves nothing in progress. -/
theorem entries_disciplined_reentrant : 0 ≤ (Input.ofText [' ', 'y']).size ∧ ∃ log s,
    reentrant.evalWatched (.ofText [' ', 'y']) {} 0 (.ref "item") 0 (reentrant.after [], []) =
      (.error (.error (.leftRecursion "item" 1)), s, log) ∧
    (log.map fun entry => (entry.1.active.map (·.offset), entry.2.offset, inProgress entry.1.active entry.2)) =
      [([1, 0], 1, true), ([0], 1, false), ([], 0, false)] ∧
    (∀ entry ∈ log, Session.Disciplined entry) ∧ s.active = [] := by
  have hp : 0 ≤ (Input.ofText [' ', 'y']).size := Nat.zero_le _
  obtain ⟨⟨log, hrun, hlog⟩, hidle, _, hrestored⟩ := entries_disciplined reentrant [] {} 0 (.ref "item") hp
  have hshown : (reentrant.evalWatched (.ofText [' ', 'y']) {} 0 (.ref "item") 0 (reentrant.after [], [])).2.2.map
      (fun entry => (entry.1.active.map (·.offset), entry.2.offset, inProgress entry.1.active entry.2)) =
        [([1, 0], 1, true), ([0], 1, false), ([], 0, false)] := by decide +kernel
  have hscope : reentrant.scope (.ofText [' ', 'y']) {} 0 = (Session.host reentrant).scope (.ofText [' ', 'y'])
      (reentrant.nestingBound (.ofText [' ', 'y']) + 1) {} 0 := rfl
  have hleft : ((Expr.ref "item").eval (reentrant.scope (.ofText [' ', 'y']) {} 0) 0
      (reentrant.after [])).2.active = [] := by
    rw [hscope, hrestored, hidle]
  have hfault : ((Expr.ref "item").eval (reentrant.scope (.ofText [' ', 'y']) {} 0) 0 (reentrant.after [])).1.map
      (fun _ => ()) = .error (.error (.leftRecursion "item" 1)) := by decide +kernel
  rw [hrun] at hshown
  cases hr : ((Expr.ref "item").eval (reentrant.scope (.ofText [' ', 'y']) {} 0) 0 (reentrant.after [])).1 with
  | ok n =>
    rw [hr] at hfault
    cases hfault
  | error f =>
    rw [hr] at hfault
    rw [hr, Except.error.inj hfault] at hrun
    exact ⟨hp, log, _, hrun, hshown, hlog, hleft⟩

end PegTree
