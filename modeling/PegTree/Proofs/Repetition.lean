import PegTree.Proofs.Matching
import PegTree.Proofs.Trees

/-!
# Greedy repetition

A repetition applies its item until an attempt fails or a match does not move on, whatever its bounds are;
only then are the matches counted. The run is described without fuel, and the evaluator follows it to its end
because no match stops before the place where it was tried.
-/

namespace PegTree

open Eval

variable {σ : Type} {g : Grammar}

/-! ## Greedy runs -/

/-- Applied again and again from a place and a state on, each time after the whitespace that follows the match
before, the item matches these nodes and leaves that state. The run ends with a fault of the item, with a
refused attempt, or with a match that does not move on. -/
inductive Scope.Greedy (s : Scope σ) (item : Nat → Eval σ Node) :
    Nat → σ → List Node → Except Fault (Option Node) → σ → Prop
  | fault {p t f} : (item (s.skip p) t).1 = .error f → s.Greedy item p t [] (.error f) (item (s.skip p) t).2
  | refused {p t n} : (item (s.skip p) t).1 = .ok n → n.stop = none →
    s.Greedy item p t [] (.ok (some n)) (item (s.skip p) t).2
  | still {p t n} : (item (s.skip p) t).1 = .ok n → n.stop = some (s.skip p) →
    s.Greedy item p t [n] (.ok none) (item (s.skip p) t).2
  | cons {p t n q ns r u} : (item (s.skip p) t).1 = .ok n → n.stop = some q → q ≠ s.skip p →
    s.Greedy item q (item (s.skip p) t).2 ns r u → s.Greedy item p t (n :: ns) r u

def lastStop (p : Nat) (ns : List Node) : Nat := (ns.getLast?.bind (·.stop)).getD p

theorem lastStop_cons {p q : Nat} {n : Node} {ns : List Node} (hn : n.stop = some q)
    (hns : ∀ c ∈ ns, c.stop ≠ none) : lastStop p (n :: ns) = lastStop q ns := by
  unfold lastStop
  rcases List.eq_nil_or_concat ns with rfl | ⟨ms, c, rfl⟩
  · simp [hn]
  · obtain ⟨stop, hc⟩ := Option.ne_none_iff_exists'.1 (hns c (by simp))
    rw [List.concat_eq_append, ← List.cons_append, List.getLast?_concat, List.getLast?_concat]
    simp [hc]

section
variable {s : Scope σ} {item : Nat → Eval σ Node} {p : Nat} {t u u' : σ} {ns ns' : List Node}
  {r r' : Except Fault (Option Node)}

theorem Scope.Greedy.stop_ne (h : s.Greedy item p t ns r u) : ∀ c ∈ ns, c.stop ≠ none := by
  induction h with
  | fault _ => exact List.forall_mem_nil _
  | refused _ _ => exact List.forall_mem_nil _
  | still _ hs => exact List.forall_mem_singleton.2 (by simp [hs])
  | cons _ hs _ _ ih => exact List.forall_mem_cons.2 ⟨by simp [hs], ih⟩

theorem Scope.Greedy.refused_stop {refused : Option Node} (h : s.Greedy item p t ns r u) (hr : r = .ok refused) :
    ∀ c ∈ refused, c.stop = none := by
  induction h with
  | fault _ => cases hr
  | refused _ hs =>
    cases hr
    simpa using hs
  | still _ _ =>
    cases hr
    simp
  | cons _ _ _ _ ih => exact ih hr

theorem Scope.Greedy.unique (h : s.Greedy item p t ns r u) (h' : s.Greedy item p t ns' r' u') :
    ns = ns' ∧ r = r' ∧ u = u' := by
  induction h generalizing ns' r' u' with
  | fault hn => cases h' <;> simp_all
  | refused hn hs => cases h' <;> simp_all
  | still hn hs => cases h' <;> simp_all
  | cons hn hs hq _ ih =>
    cases h' with
    | fault hn' => simp_all
    | refused hn' hs' => simp_all
    | still hn' hs' => simp_all
    | cons hn' hs' hq' h' =>
      cases hn.symm.trans hn'
      cases hs.symm.trans hs'
      obtain ⟨rfl, rfl, rfl⟩ := ih h'
      exact ⟨rfl, rfl, rfl⟩

end

/-! ## Runs of the evaluator -/

section
variable {s : Scope σ} {I : σ → Prop} {E : Fault → σ → Prop} {item : Nat → Eval σ Node} {e : Expr}

theorem repeatRun_greedy (hitem : ∀ p, s.input.isBoundary p = true →
      Triple I (item p) (fun n t => I t ∧ Derives g s.input s.options e p n) E) :
    ∀ (fuel place : Nat) (done : List Node) (t : σ), s.input.isBoundary place = true → I t →
      s.input.size < fuel + place →
      ∃ ns r u, s.Greedy item place t ns r u ∧ s.repeatRun item fuel place done t =
        (r.map fun refused => ⟨done.reverse ++ ns, lastStop place ns, refused⟩, u)
  | 0, place, _, _, hp, _, hf => by
    have := Input.le_size_of_isBoundary hp
    omega
  | fuel + 1, place, done, t, hp, ht, hf => by
    have hq : s.input.isBoundary (s.skip place) = true := Input.skip_boundary s.options hp
    have hle : place ≤ s.skip place := Input.le_skip s.options hp
    unfold Scope.repeatRun
    cases hr : (item (s.skip place) t).1 with
    | error f => exact ⟨_, _, _, .fault hr, bind_of_error hr⟩
    | ok n =>
      obtain ⟨hu, hd⟩ := (hitem _ hq).ok ht hr
      rw [bind_of_ok hr]
      cases hs : n.stop with
      | none => exact ⟨_, _, _, .refused hr hs, by simp [lastStop, pure_apply, Except.map]⟩
      | some stop =>
        obtain ⟨hqs, hb⟩ := hd.stop_boundary hq hs
        by_cases he : stop = s.skip place
        · subst he
          refine ⟨_, _, _, .still hr hs, ?_⟩
          simp [lastStop, pure_apply, Except.map, hs]
        · have hlt : s.skip place < stop := Nat.lt_of_le_of_ne hqs (Ne.symm he)
          obtain ⟨ns, r, v, hrun, heq⟩ := repeatRun_greedy hitem fuel stop (n :: done) _ hb hu
            (by have := Nat.lt_of_le_of_lt hle hlt; omega)
          refine ⟨_, _, _, .cons hr hs he hrun, ?_⟩
          simp only [if_neg he, heq, lastStop_cons hs hrun.stop_ne, List.reverse_cons, List.append_assoc,
            List.singleton_append]

end

/-! ## Counting the matches -/

/-- What a repetition gives at `p` whose greedy run matched `ns` and was then refused with `refused`, if with
anything at all. -/
structure Scope.Repeated (s : Scope σ) (a : Bool) (low : Nat) (high : Option Nat) (p : Nat) (ns : List Node)
    (refused : Option Node) (x : Except Fault Node) : Prop where
  matched : InBounds low high ns.length → ∃ n, x = .ok n ∧ n.tag = .repetition ∧ n.offset = p ∧
    n.stop = some (lastStop p ns) ∧ n.text = ns.flatMap (·.text) ∧ n.successes = ns ∧
    n.children = ns ++ s.options.kept refused.toList
  failed : a = false → ¬ InBounds low high ns.length →
    x = .ok (.failed .repetition p (s.options.kept (ns ++ refused.toList)))
  few : a = true → ns.length < low →
    x = .error (.error (.parse ⟨lastStop p ns, "Not enough matches for repeated term", s.input⟩))
  many : a = true → low ≤ ns.length → ¬ InBounds low high ns.length →
    x = .error (.error (.parse ⟨lastStop p ns, "Too many matches for repeated term", s.input⟩))

section
variable {s : Scope σ} {p low : Nat} {high : Option Nat} {ns : List Node} {refused : Option Node}

theorem Scope.closeRepetition_repeated {W : Char → Prop} (a : Bool) (hl : Laid s.input W p ns (lastStop p ns))
    (hr : ∀ c ∈ refused, c.stop = none) :
    s.Repeated a low high p ns refused (s.closeRepetition a low high p ⟨ns, lastStop p ns, refused⟩) where
  matched hb := by
    have hkept : ∀ c ∈ s.options.kept refused.toList, c.stop = none := by
      intro c hc
      exact hr c (by simpa using Options.mem_of_mem_kept hc)
    exact ⟨_, Scope.closeRepetition_fits hb, rfl, rfl, rfl, joinText_eq hl,
      Node.successes_matched hl.stop_ne hkept, rfl⟩
  failed ha hb := by
    subst ha
    rw [Scope.closeRepetition_unfit hb]
    unfold Scope.attempts Options.kept
    split <;> rfl
  few ha hlow := by
    subst ha
    unfold Scope.closeRepetition
    simp only [if_pos hlow]
    rfl
  many ha hlow hb := by
    subst ha
    unfold Scope.closeRepetition
    simp only [if_neg (Nat.not_lt.2 hlow), if_pos (InBounds.not_exceeded hb hlow)]
    rfl

end

/-! ## Repetitions -/

section
variable {i : Input} {p : Nat}

/-- The greedy run of a repetition comes to an end. Its fault is the fault of the repetition; without one, the
number of matches decides. -/
theorem repetition_greedy (calls : List Call) (st : List Frame) (o : Options) (depth : Nat) (e : Expr) (a : Bool)
    (low : Nat) (high : Option Nat) (hp : i.isBoundary p = true) :
    (∃ ns r u, (g.scope i o depth).Greedy (e.eval (g.scope i o depth)) p
        { g.after calls with active := st } ns r u) ∧
      ∀ ns r u, (g.scope i o depth).Greedy (e.eval (g.scope i o depth)) p
          { g.after calls with active := st } ns r u →
        ∃ x, (Expr.repetition a low high e).eval (g.scope i o depth) p
            { g.after calls with active := st } = (x, u) ∧
          (∀ f, r = .error f → x = .error f) ∧
          ∀ refused, r = .ok refused → (g.scope i o depth).Repeated a low high p ns refused x := by
  have hs := g.resumed_sound calls st
  have hitem : ∀ q, i.isBoundary q = true → Triple (Session.Sound g st) (e.eval (g.scope i o depth) q)
      (fun n t => Session.Sound g st t ∧ Derives g i o e q n) (fun _ t => Session.Sound g st t ∧ True) :=
    fun q hq => (Session.eval_triple e o depth hq).conseq (fun _ h => h) (fun _ _ h => h) fun _ _ h => ⟨h, trivial⟩
  have hfuel : (g.scope i o depth).input.size < (g.scope i o depth).input.size + 1 + p := by omega
  obtain ⟨ns, r, u, hrun, heq⟩ := repeatRun_greedy (s := g.scope i o depth) hitem _ p [] _ hp hs hfuel
  refine ⟨⟨ns, r, u, hrun⟩, fun ns' r' u' hrun' => ?_⟩
  obtain ⟨rfl, rfl, rfl⟩ := hrun.unique hrun'
  unfold Expr.eval
  rw [bind_apply, heq]
  cases r with
  | error f => exact ⟨_, rfl, fun _ h => by cases h; rfl, fun _ h => by cases h⟩
  | ok refused =>
    refine ⟨_, rfl, (fun _ h => by cases h), ?_⟩
    rintro _ ⟨⟩
    have hloop := repeatRun_triple (fun q (_ : 0 ≤ q) hq => hitem q hq) _ p [] (Nat.zero_le p) hp hfuel
    obtain ⟨_, run, hd, he⟩ := hloop.ok hs (congrArg Prod.fst heq)
    have hl : Laid i (fun _ => True) p ns (lastStop p ns) := by
      have hl := hd.laid (g.blanks_all o) hp
      obtain ⟨matched, stop, refused'⟩ := run
      cases he
      exact hl
    exact Scope.closeRepetition_repeated a hl (hrun.refused_stop rfl)

end

def letterA : Expr := .literal false [.text ['a']] none

def spacedLetters : Input := .ofText ['a', ' ', 'a', ' ', 'a', ' ']

theorem repetition_greedy_letters : spacedLetters.isBoundary 0 = true ∧ ∃ ns refused u,
    (Grammar.scope {} spacedLetters {} 0).Greedy (letterA.eval (Grammar.scope {} spacedLetters {} 0)) 0
      { Grammar.after {} [] with active := [] } ns (.ok refused) u ∧ ns.length = 3 ∧
    (Expr.repetition true 1 (some 2) letterA).eval (Grammar.scope {} spacedLetters {} 0) 0
        { Grammar.after {} [] with active := [] } =
      (.error (.error (.parse ⟨5, "Too many matches for repeated term", spacedLetters⟩)), u) := by
  have hrun : (Grammar.scope {} spacedLetters {} 0).Greedy (letterA.eval (Grammar.scope {} spacedLetters {} 0)) 0
      { Grammar.after {} [] with active := [] }
      [.matched .literal ['a'] 0 1 [], .matched .literal ['a'] 2 3 [], .matched .literal ['a'] 4 5 []]
      (.ok (some (.failed .literal 6 []))) _ :=
    .cons rfl rfl (by decide) (.cons rfl rfl (by decide) (.cons rfl rfl (by decide) (.refused rfl rfl)))
  have hall := repetition_greedy (g := {}) [] [] {} 0 letterA true 1 (some 2) (Input.isBoundary_zero spacedLetters)
  obtain ⟨x, hx, _, h⟩ := hall.2 _ _ _ hrun
  refine ⟨by decide +kernel, _, _, _, hrun, rfl, ?_⟩
  rw [hx, (h _ rfl).many rfl (by decide) (by simp [InBounds])]
  rfl

end PegTree
