import PegTree.Proofs.Closing
import PegTree.Proofs.History

/-!
# Cursors of evaluations

The offsets that an evaluation goes through: where expressions are tried, where whitespace has been
skipped to, and where matches stop. What a result shows of the input is among them.
-/

namespace PegTree

open Eval

variable {σ α β : Type}

/-! ## Places -/

namespace Node

mutual
def places : Node → List Nat
  | ⟨_, _, offset, stop, children⟩ => offset :: (stop.toList ++ placesList children)
def placesList : List Node → List Nat
  | [] => []
  | n :: ns => n.places ++ placesList ns
end

variable {qs : List Nat} {tag : Tag} {t : Text} {p q : Nat} {ns : List Node}

theorem placesList_subset (h : ∀ n ∈ ns, n.places ⊆ qs) : placesList ns ⊆ qs := by
  induction ns with
  | nil => exact List.nil_subset qs
  | cons n ns ih =>
    obtain ⟨hn, hns⟩ := List.forall_mem_cons.1 h
    exact List.append_subset.2 ⟨hn, ih hns⟩

theorem matched_places (hp : p ∈ qs) (hq : q ∈ qs) (hns : ∀ n ∈ ns, n.places ⊆ qs) :
    (matched tag t p q ns).places ⊆ qs :=
  List.cons_subset.2 ⟨hp, List.cons_subset.2 ⟨hq, placesList_subset hns⟩⟩

theorem failed_places (hp : p ∈ qs) (hns : ∀ n ∈ ns, n.places ⊆ qs) : (failed tag p ns).places ⊆ qs :=
  List.cons_subset.2 ⟨hp, placesList_subset hns⟩

theorem stop_mem_places {n : Node} (h : n.stop = some q) : q ∈ n.places := by
  cases n
  cases h
  exact List.mem_cons_of_mem _ List.mem_cons_self

end Node

def Error.places : Error → List Nat
  | .parse e => [e.offset]
  | .leftRecursion _ offset => [offset]
  | _ => []

def Fault.places : Fault → List Nat
  | .error e => e.places
  | .insideCharacter offset => [offset]
  | .exhausted => []

/-! ## Cursors -/

/-- What comes after `x`, if it gives a value. -/
def Eval.onward (x : Eval σ α) (next : α → σ → List Nat) (s : σ) : List Nat :=
  match x s with
  | (.ok a, s') => next a s'
  | (.error _, _) => []

def Cursor.accepted (c : Cursor) (leading? : Text → Option Text) : List Nat :=
  match c.accept? leading? with
  | .ok (some (_, stop)) => [stop.offset]
  | _ => []

namespace Scope

def literalCursors (s : Scope σ) (ms : List Matcher) (caseSensitive : Option Bool) (p : Nat) : List Nat :=
  let start := (Cursor.ofOffset s.input p).skip s.options
  start.offset :: start.accepted fun t => ms.findSome? (·.leading? (caseSensitive.getD s.options.caseSensitive) t)

def endOfLineCursors (s : Scope σ) (p : Nat) : List Nat :=
  let start := Cursor.ofOffset s.input p
  (start.skip s.options).offset :: start.offset :: start.accepted leadingNewline?

/-- The cursors of a repetition; `within` are those of its item. -/
def loopCursors (s : Scope σ) (item : Nat → Eval σ Node) (within : Nat → σ → List Nat) : Nat → Nat → σ → List Nat
  | 0, place, _ => [place]
  | fuel + 1, place, t =>
    place :: s.skip place :: (within (s.skip place) t ++ (item (s.skip place)).onward (fun n t' =>
      match n.stop with
      | none => []
      | some stop => if stop = s.skip place then [] else loopCursors s item within fuel stop t') t)

end Scope

namespace Expr

mutual
/-- The cursors of an evaluation; `below` are those of references. -/
def cursors (s : Scope σ) (below : Bool → String → Nat → σ → List Nat) : Expr → Nat → σ → List Nat
  | .literal _ ms c, p, _ => p :: s.literalCursors ms c p
  | .sequence _ items, p, t => p :: rowCursors s below items p t
  | .choice _ items, p, t => p :: s.skip p :: anyCursors s below items (s.skip p) t
  | .repetition _ _ _ item, p, t =>
    p :: s.loopCursors (item.eval s) (cursors s below item) (s.input.size + 1) p t
  | .optional _ item, p, t => p :: cursors s below item p t
  | .endOfLine _, p, _ => p :: s.endOfLineCursors p
  | .endOfInput _, p, _ => [p, s.skip p]
  | .rule a name, p, t => p :: below a name p t
  | .placeholder _ _, p, _ => [p]
def rowCursors (s : Scope σ) (below : Bool → String → Nat → σ → List Nat) : List Expr → Nat → σ → List Nat
  | [], p, _ => [p]
  | e :: es, p, t =>
    p :: s.skip p :: (cursors s below e (s.skip p) t ++ (e.eval s (s.skip p)).onward (fun n t' =>
      match n.stop with
      | none => []
      | some stop => rowCursors s below es stop t') t)
def anyCursors (s : Scope σ) (below : Bool → String → Nat → σ → List Nat) : List Expr → Nat → σ → List Nat
  | [], _, _ => []
  | e :: es, p, t =>
    cursors s below e p t ++ (e.eval s p).onward (fun n t' =>
      if n.isFailed then anyCursors s below es p t' else []) t
end

end Expr

def callCursors (h : Host σ) (i : Input) : Nat → Options → Nat → Bool → String → Nat → σ → List Nat
  | 0, _, _, _, _, p, _ => [p]
  | fuel + 1, o, depth, _, name, p, t =>
    p :: (h.rule name).onward (fun rule =>
      (checkDepth o (depth + 1)).onward fun _ =>
        (h.enter ⟨rule.name, p, o⟩).onward fun _ =>
          rule.body.cursors (h.scope i fuel (rule.overrides.apply o) (depth + 1))
            (callCursors h i fuel (rule.overrides.apply o) (depth + 1)) p) t

def Grammar.cursors (g : Grammar) (i : Input) (o : Options) (depth : Nat) (e : Expr) (p : Nat) :
    Session → List Nat :=
  e.cursors (g.scope i o depth) (callCursors (Session.host g) i (g.nestingBound i + 1) o depth) p

/-! ## What results show -/

section
variable {g : Grammar} {qs rs : List Nat} {φ : α → List Nat → Prop} {ψ : β → List Nat → Prop}

/-- Of a value `φ` holds; a fault shows its places among `qs`, but for faults of bodies that are not built. -/
def Shows (g : Grammar) (φ : α → List Nat → Prop) (r : Except Fault α) (qs : List Nat) : Prop :=
  match r with
  | .ok a => φ a qs
  | .error f => g.Unbuilt f ∨ f.places ⊆ qs

theorem Shows.mono {r : Except Fault α} (h : Shows g φ r qs) (hφ : ∀ a, φ a qs → φ a rs) (hsub : qs ⊆ rs) :
    Shows g φ r rs := by
  cases r with
  | ok a => exact hφ a h
  | error f => exact h.imp_right fun hf => List.Subset.trans hf hsub

theorem Shows.last {x : Eval σ α} {k : α → Eval σ β} {s : σ} (hx : Shows g φ (x s).1 qs)
    (hk : ∀ a s', φ a qs → Shows g ψ (k a s').1 qs) : Shows g ψ ((x >>= k) s).1 qs := by
  rw [bind_apply]
  rcases hr : x s with ⟨f | a, s'⟩
  · rw [hr] at hx
    exact hx
  · rw [hr] at hx
    exact hk a s' hx

theorem Shows.bind {x : Eval σ α} {k : α → Eval σ β} {next : α → σ → List Nat} {s : σ} (hx : Shows g φ (x s).1 qs)
    (hk : ∀ a s', φ a qs → Shows g ψ (k a s').1 (qs ++ next a s')) :
    Shows g ψ ((x >>= k) s).1 (qs ++ x.onward next s) := by
  rw [bind_apply]
  unfold onward
  rcases hr : x s with ⟨f | a, s'⟩
  · rw [hr] at hx
    exact hx.imp_right fun hf => List.subset_append_of_subset_left _ hf
  · rw [hr] at hx
    exact hk a s' hx

def Node.Within (n : Node) (qs : List Nat) : Prop := n.places ⊆ qs

structure Run.Within (s : Scope σ) (run : Run) (qs : List Nat) : Prop where
  matched : ∀ n ∈ run.matched, n.places ⊆ qs
  refused : ∀ n ∈ run.refused.toList, n.places ⊆ qs
  stop : run.stop ∈ qs
  -- where the refused attempt was made
  start : run.refused ≠ none → s.skip run.stop ∈ qs

structure Trial.Within (trial : Trial) (qs : List Nat) : Prop where
  failed : ∀ n ∈ trial.failed, n.places ⊆ qs
  chosen : ∀ n ∈ trial.chosen.toList, n.places ⊆ qs

theorem Run.Within.mono {s : Scope σ} {run : Run} (h : run.Within s qs) (hsub : qs ⊆ rs) : run.Within s rs :=
  ⟨fun n hn => List.Subset.trans (h.matched n hn) hsub, fun n hn => List.Subset.trans (h.refused n hn) hsub,
    hsub h.stop, fun hr => hsub (h.start hr)⟩

theorem Trial.Within.mono {trial : Trial} (h : trial.Within qs) (hsub : qs ⊆ rs) : trial.Within rs :=
  ⟨fun n hn => List.Subset.trans (h.failed n hn) hsub, fun n hn => List.Subset.trans (h.chosen n hn) hsub⟩

theorem Options.kept_places {o : Options} {ns : List Node} (h : ∀ n ∈ ns, n.places ⊆ qs) :
    ∀ n ∈ o.kept ns, n.places ⊆ qs :=
  fun n hn => h n (Options.mem_of_mem_kept hn)

/-! ## Leaves and closings -/

theorem shows_refuse {i : Input} {a : Bool} {p : Nat} {message : String} {n : Node} (hp : p ∈ qs)
    (hn : n.Within qs) :
    Shows g Node.Within (refuse i a p message n) qs := by
  cases a with
  | true => exact .inr (List.cons_subset.2 ⟨hp, List.nil_subset qs⟩)
  | false => exact hn

theorem Cursor.accept?_shows (c : Cursor) (leading? : Text → Option Text) :
    Shows g (fun r qs => ∀ t stop, r = some (t, stop) → stop.offset ∈ qs) (c.accept? leading?)
      (c.offset :: c.accepted leading?) := by
  unfold Cursor.accepted
  cases h : c.accept? leading? with
  | ok r =>
    rintro t stop rfl
    exact List.mem_cons_of_mem _ List.mem_cons_self
  | error f =>
    unfold Cursor.accept? Cursor.advance at h
    split at h
    · split at h
      · cases h
      · cases h
        exact .inr fun q hq => hq
    · cases h

namespace Scope

variable {s : Scope σ} {a : Bool} {p : Nat}

theorem literal_shows (ms : List Matcher) (c : Option Bool) :
    Shows g Node.Within (s.literal a ms c p) (s.literalCursors ms c p) := by
  have hstart := Cursor.accept?_shows (g := g) ((Cursor.ofOffset s.input p).skip s.options) fun t =>
    ms.findSome? (·.leading? (c.getD s.options.caseSensitive) t)
  unfold literal literalCursors
  by_cases hm : ms.isEmpty = true
  · rw [if_pos hm]
    exact Node.matched_places List.mem_cons_self List.mem_cons_self (List.forall_mem_nil _)
  · rw [if_neg hm]
    dsimp only
    generalize ((Cursor.ofOffset s.input p).skip s.options).accepted _ = rs at hstart ⊢
    cases hacc : ((Cursor.ofOffset s.input p).skip s.options).accept? _ with
    | error f =>
      rw [hacc] at hstart
      exact hstart
    | ok r =>
      rw [hacc] at hstart
      cases r with
      | none =>
        exact shows_refuse List.mem_cons_self (Node.failed_places List.mem_cons_self (List.forall_mem_nil _))
      | some r => exact Node.matched_places List.mem_cons_self (hstart _ _ rfl) (List.forall_mem_nil _)

theorem endOfLine_shows : Shows g Node.Within (s.endOfLine a p) (p :: s.endOfLineCursors p) := by
  have hstart := Cursor.accept?_shows (g := g) (Cursor.ofOffset s.input p) leadingNewline?
  simp only [endOfLine, endOfLineCursors]
  generalize (Cursor.ofOffset s.input p).accepted leadingNewline? = rs at hstart ⊢
  have hsub : ∀ q ∈ (Cursor.ofOffset s.input p).offset :: rs, q ∈
      p :: ((Cursor.ofOffset s.input p).skip s.options).offset :: (Cursor.ofOffset s.input p).offset :: rs :=
    fun q hq => List.mem_cons_of_mem _ (List.mem_cons_of_mem _ hq)
  cases hacc : (Cursor.ofOffset s.input p).accept? leadingNewline? with
  | error f =>
    rw [hacc] at hstart
    exact hstart.imp_right fun hf => List.Subset.trans hf hsub
  | ok r =>
    rw [hacc] at hstart
    cases r with
    | some r => exact Node.matched_places List.mem_cons_self (hsub _ (hstart _ _ rfl)) (List.forall_mem_nil _)
    | none =>
      show Shows g Node.Within (if _ then _ else _) _
      split
      · exact Node.matched_places List.mem_cons_self (List.mem_cons_of_mem _ List.mem_cons_self)
          (List.forall_mem_nil _)
      · exact shows_refuse List.mem_cons_self (Node.failed_places List.mem_cons_self (List.forall_mem_nil _))

theorem endOfInput_shows : Shows g Node.Within (s.endOfInput a p) [p, s.skip p] := by
  have hp : p ∈ [p, s.skip p] := List.mem_cons_self
  have hq : s.skip p ∈ [p, s.skip p] := List.mem_cons_of_mem _ List.mem_cons_self
  simp only [endOfInput]
  split
  · exact Node.matched_places hp hq (List.forall_mem_nil _)
  · exact shows_refuse hq (Node.failed_places hp (List.forall_mem_nil _))

theorem closeSequence_shows (items : List Expr) {run : Run} (hp : p ∈ qs) (hr : run.Within s qs) :
    Shows g Node.Within (s.closeSequence a items p run) qs := by
  unfold closeSequence
  split
  · exact Node.matched_places hp hr.stop hr.matched
  · rename_i n hn
    refine shows_refuse (hr.start (by simp [hn])) (Node.failed_places hp (Options.kept_places ?_))
    exact List.forall_mem_append.2 ⟨hr.matched, List.forall_mem_singleton.2 (hr.refused n (by simp [hn]))⟩

theorem closeChoice_shows {place : Nat} {trial : Trial} (hp : p ∈ qs) (hplace : place ∈ qs)
    (ht : trial.Within qs) :
    Shows g Node.Within (s.closeChoice a p place trial) qs := by
  unfold closeChoice
  split
  · rename_i n stop hn
    obtain ⟨m, hm, hs⟩ := Option.bind_eq_some_iff.1 hn
    obtain ⟨stop', hs, he⟩ := Option.map_eq_some_iff.1 hs
    cases he
    have hchosen := ht.chosen n (by simp [hm])
    refine Node.matched_places hp (hchosen (Node.stop_mem_places hs)) ?_
    exact List.forall_mem_append.2 ⟨Options.kept_places ht.failed, List.forall_mem_singleton.2 hchosen⟩
  · exact shows_refuse hplace (Node.failed_places hp (Options.kept_places ht.failed))

theorem closeRepetition_shows (low : Nat) (high : Option Nat) {run : Run} (hp : p ∈ qs) (hr : run.Within s qs) :
    Shows g Node.Within (s.closeRepetition a low high p run) qs := by
  have hall : ∀ n ∈ run.matched ++ s.options.kept run.refused.toList, n.places ⊆ qs :=
    List.forall_mem_append.2 ⟨hr.matched, Options.kept_places hr.refused⟩
  have hfailed : (Node.failed .repetition p
      (s.options.kept (run.matched ++ s.options.kept run.refused.toList))).Within qs :=
    Node.failed_places hp (Options.kept_places hall)
  simp only [closeRepetition]
  split
  · exact shows_refuse hr.stop hfailed
  · split
    · exact shows_refuse hr.stop hfailed
    · exact Node.matched_places hp hr.stop hall

theorem closeOptional_within {n : Node} (hp : p ∈ qs) (hn : n.Within qs) : (s.closeOptional p n).Within qs := by
  have hall : ∀ m ∈ [n], m.places ⊆ qs := List.forall_mem_singleton.2 hn
  unfold closeOptional
  cases hs : n.stop with
  | some stop => exact Node.matched_places hp (hn (Node.stop_mem_places hs)) hall
  | none => exact Node.matched_places hp hp (Options.kept_places hall)

end Scope

theorem closeRule_shows {i : Input} {o : Options} {a : Bool} {name : String} {p : Nat} {tree : Node} (hp : p ∈ qs)
    (ht : tree.Within qs) : Shows g Node.Within (closeRule i o a name p tree) qs := by
  have hall : ∀ m ∈ [tree], m.places ⊆ qs := List.forall_mem_singleton.2 ht
  unfold closeRule
  split
  · rename_i stop hs
    exact Node.matched_places hp (ht (Node.stop_mem_places hs)) hall
  · exact shows_refuse hp (Node.failed_places hp (Options.kept_places hall))

/-! ## Expressions -/

section
variable {s : Scope σ} {below : Bool → String → Nat → σ → List Nat}

theorem Shows.within {r : Except Fault Node} (h : Shows g Node.Within r qs) (hsub : qs ⊆ rs) :
    Shows g Node.Within r rs :=
  h.mono (fun _ hn => List.Subset.trans hn hsub) hsub

theorem repeatRun_shows {item : Nat → Eval σ Node} {within : Nat → σ → List Nat}
    (hi : ∀ p t, Shows g Node.Within (item p t).1 (within p t)) :
    ∀ (fuel place : Nat) (done : List Node) (t : σ) (qs : List Nat), (∀ n ∈ done, n.places ⊆ qs) →
      Shows g (Run.Within s) (s.repeatRun item fuel place done t).1
        (qs ++ s.loopCursors item within fuel place t)
  | 0, _, _, _, _, _ => .inr (List.nil_subset _)
  | fuel + 1, place, done, t, qs, hdone => by
    -- the matches so far show places among `qs`, which takes in the cursors of each round
    let here := qs ++ (place :: s.skip place :: within (s.skip place) t)
    have hplace : place ∈ here := by simp [here]
    have hskip : s.skip place ∈ here := by simp [here]
    have hitem : Shows g Node.Within (item (s.skip place) t).1 here :=
      (hi (s.skip place) t).within fun q hq => by simp [here, hq]
    unfold Scope.repeatRun Scope.loopCursors
    show Shows g _ _ (qs ++ ((place :: s.skip place :: within (s.skip place) t) ++ _))
    rw [← List.append_assoc]
    refine Shows.bind hitem fun n t' hn => ?_
    have hmore : ∀ m ∈ n :: done, m.places ⊆ here :=
      List.forall_mem_cons.2 ⟨hn, fun m hm => List.subset_append_of_subset_left _ (hdone m hm)⟩
    cases hs : n.stop with
    | none =>
      have hrun : Run.Within s ⟨done.reverse, place, some n⟩ here :=
        ⟨fun m hm => hmore m (List.mem_cons_of_mem _ (List.mem_reverse.1 hm)),
          List.forall_mem_singleton.2 hn, hplace,
          fun _ => hskip⟩
      exact hrun.mono (List.subset_append_left _ _)
    | some stop =>
      dsimp only
      by_cases he : stop = s.skip place
      · rw [if_pos he, if_pos he]
        have hrun : Run.Within s ⟨(n :: done).reverse, stop, none⟩ here :=
          ⟨fun m hm => hmore m (List.mem_reverse.1 hm), List.forall_mem_nil _, hn (Node.stop_mem_places hs),
            fun h => absurd rfl h⟩
        exact hrun.mono (List.subset_append_left _ _)
      · rw [if_neg he, if_neg he]
        exact repeatRun_shows hi fuel stop (n :: done) t' here hmore

mutual
theorem eval_shows (hr : ∀ a name p t, Shows g Node.Within (s.refer a name p t).1 (below a name p t)) (e : Expr)
    (p : Nat) (t : σ) : Shows g Node.Within (e.eval s p t).1 (e.cursors s below p t) := by
  have hp : ∀ {qs : List Nat}, p ∈ p :: qs := List.mem_cons_self
  cases e with
  | literal a ms c =>
    unfold Expr.eval Expr.cursors
    exact (Scope.literal_shows ms c).within (List.subset_cons_self _ _)
  | sequence a items =>
    unfold Expr.eval Expr.cursors
    have hrow := (evalRow_shows hr items p t).mono (fun _ h => h.mono (List.subset_cons_self p _))
      (List.subset_cons_self p _)
    exact hrow.last fun run _ h => Scope.closeSequence_shows items hp h
  | choice a items =>
    unfold Expr.eval Expr.cursors
    have hsub : ∀ {rs : List Nat}, rs ⊆ p :: s.skip p :: rs := by simp
    have hany := (evalAny_shows hr items (s.skip p) t).mono (fun _ h => h.mono hsub) hsub
    exact hany.last fun trial _ h => Scope.closeChoice_shows hp (List.mem_cons_of_mem _ List.mem_cons_self) h
  | repetition a low high item =>
    unfold Expr.eval Expr.cursors
    have hrun := repeatRun_shows (s := s) (fun q t => eval_shows hr item q t) (s.input.size + 1) p [] t [p]
      (List.forall_mem_nil _)
    exact hrun.last fun run _ h => Scope.closeRepetition_shows low high hp h
  | optional a item =>
    unfold Expr.eval Expr.cursors
    have hitem := (eval_shows hr item p t).within (List.subset_cons_self p _)
    exact hitem.last fun n _ h => Scope.closeOptional_within hp h
  | endOfLine a =>
    unfold Expr.eval Expr.cursors
    exact Scope.endOfLine_shows
  | endOfInput a =>
    unfold Expr.eval Expr.cursors
    exact Scope.endOfInput_shows
  | rule a name =>
    unfold Expr.eval Expr.cursors
    exact (hr a name p t).within (List.subset_cons_self p _)
  | placeholder a name =>
    unfold Expr.eval Expr.cursors
    exact .inr (List.nil_subset _)
theorem evalRow_shows (hr : ∀ a name p t, Shows g Node.Within (s.refer a name p t).1 (below a name p t))
    (es : List Expr) (p : Nat) (t : σ) :
    Shows g (Run.Within s) (Expr.evalRow s es p t).1 (Expr.rowCursors s below es p t) := by
  cases es with
  | nil =>
    unfold Expr.evalRow Expr.rowCursors
    exact ⟨List.forall_mem_nil _, List.forall_mem_nil _, List.mem_cons_self, fun h => absurd rfl h⟩
  | cons e es =>
    unfold Expr.evalRow Expr.rowCursors
    let here := p :: s.skip p :: e.cursors s below (s.skip p) t
    have hitem : Shows g Node.Within (e.eval s (s.skip p) t).1 here :=
      (eval_shows hr e (s.skip p) t).within fun q hq => by simp [here, hq]
    show Shows g _ _ (here ++ _)
    refine Shows.bind hitem fun n t' hn => ?_
    cases hs : n.stop with
    | none =>
      have hrun : Run.Within s ⟨[], p, some n⟩ here :=
        ⟨List.forall_mem_nil _, List.forall_mem_singleton.2 hn, List.mem_cons_self,
          fun _ => List.mem_cons_of_mem _ List.mem_cons_self⟩
      exact hrun.mono (List.subset_append_left _ _)
    | some stop =>
      dsimp only
      have hsub := List.subset_append_right here (Expr.rowCursors s below es stop t')
      have hrest := (evalRow_shows hr es stop t').mono (fun _ h => h.mono hsub) hsub
      refine hrest.last fun run _ h => ⟨List.forall_mem_cons.2 ⟨?_, h.matched⟩, h.refused, h.stop, h.start⟩
      exact List.subset_append_of_subset_left _ hn
theorem evalAny_shows (hr : ∀ a name p t, Shows g Node.Within (s.refer a name p t).1 (below a name p t))
    (es : List Expr) (p : Nat) (t : σ) :
    Shows g Trial.Within (Expr.evalAny s es p t).1 (Expr.anyCursors s below es p t) := by
  cases es with
  | nil =>
    unfold Expr.evalAny Expr.anyCursors
    exact ⟨List.forall_mem_nil _, List.forall_mem_nil _⟩
  | cons e es =>
    unfold Expr.evalAny Expr.anyCursors
    refine Shows.bind (eval_shows hr e p t) fun n t' hn => ?_
    cases n.isFailed with
    | true =>
      have hsub := List.subset_append_right (e.cursors s below p t) (Expr.anyCursors s below es p t')
      have hrest := (evalAny_shows hr es p t').mono (fun _ h => h.mono hsub) hsub
      refine hrest.last fun trial _ h => ⟨List.forall_mem_cons.2 ⟨?_, h.failed⟩, h.chosen⟩
      exact List.subset_append_of_subset_left _ hn
    | false =>
      refine ⟨List.forall_mem_nil _, List.forall_mem_singleton.2 ?_⟩
      exact List.subset_append_of_subset_left _ hn
end

end

/-! ## Rules -/

theorem Session.rule_shows (name : String) (s : Session) :
    Shows g (fun _ _ => True) (Session.rule g name s).1 qs := by
  rcases Session.rule_cases g name s with ⟨_, _, he⟩ | ⟨_, ⟨_, he⟩ | ⟨decl, hr, ⟨e, hb, he⟩ | ⟨_, _, he⟩⟩⟩
  · rw [he]
    trivial
  · rw [he]
    exact .inr (List.nil_subset _)
  · rw [he]
    exact .inl ⟨decl, List.mem_of_find?_eq_some hr, e, hb, rfl⟩
  · rw [he]
    trivial

theorem callRule_shows (i : Input) : ∀ (fuel : Nat) (o : Options) (depth : Nat) (a : Bool)
    (name : String) (p : Nat)
    (s : Session), Shows g Node.Within (callRule (Session.host g) i fuel o depth a name p s).1
      (callCursors (Session.host g) i fuel o depth a name p s)
  | 0, _, _, _, _, _, _ => .inr (List.nil_subset _)
  | fuel + 1, o, depth, a, name, p, s => by
    have hp : ∀ {rs : List Nat}, p ∈ [p] ++ rs := List.mem_cons_self
    rw [callRule_succ]
    unfold callCursors
    show Shows g _ _ ([p] ++ _)
    refine Shows.bind (Session.rule_shows name s) fun rule s _ => ?_
    refine Shows.bind (φ := fun _ _ => True) ?_ fun _ s _ => ?_
    · unfold checkDepth
      split
      · exact .inr (List.nil_subset _)
      · trivial
    refine Shows.bind (φ := fun _ _ => True) ?_ fun _ s _ => ?_
    · show Shows g _ (Session.enter _ s).1 _
      rw [Session.enter_apply]
      cases inProgress s.active ⟨rule.name, p, o⟩ with
      | true => exact .inr (List.cons_subset.2 ⟨List.mem_cons_self, List.nil_subset _⟩)
      | false => trivial
    have hbody := eval_shows (s := (Session.host g).scope i fuel (rule.overrides.apply o) (depth + 1))
      (fun a name q t => callRule_shows i fuel (rule.overrides.apply o) (depth + 1) a name q t) rule.body p s
    refine Shows.last (φ := Node.Within) ?_ fun tree _ h => closeRule_shows hp h
    rw [ensuring_fst fun _ => rfl]
    exact hbody.within (List.subset_append_right _ _)

/-- A node shows only offsets that its evaluation goes through, and so does a fault unless it is one of
a body that fails to be built. -/
theorem Grammar.eval_shows (g : Grammar) (i : Input) (o : Options) (depth : Nat) (e : Expr)
    (p : Nat) (s : Session) :
    Shows g Node.Within (e.eval (g.scope i o depth) p s).1 (g.cursors i o depth e p s) :=
  PegTree.eval_shows (fun a name q t => callRule_shows i _ o depth a name q t) e p s

end

end PegTree
