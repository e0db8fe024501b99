import PegTree.Proofs.Caching
import PegTree.Proofs.Safety

/-!
# Evaluation does not look back

What comes before the place where an evaluation begins has no say in it: on the rest of the input alone
the same happens, at offsets that count from that place.
-/

namespace PegTree

open Eval

/-! ## Other places -/

namespace Node

mutual
def shift (k : Nat) : Node → Node
  | ⟨tag, text, offset, stop, children⟩ => ⟨tag, text, k + offset, stop.map (k + ·), shiftList k children⟩
def shiftList (k : Nat) : List Node → List Node
  | [] => []
  | n :: ns => n.shift k :: shiftList k ns
end

variable {k : Nat}

theorem shiftList_eq (ns : List Node) : shiftList k ns = ns.map (shift k) := by
  induction ns with
  | nil => rfl
  | cons n ns ih => rw [shiftList, ih, List.map_cons]

@[simp] theorem shift_text (n : Node) : (n.shift k).text = n.text := by cases n; rfl

@[simp] theorem shift_stop (n : Node) : (n.shift k).stop = n.stop.map (k + ·) := by cases n; rfl

@[simp] theorem shift_isFailed (n : Node) : (n.shift k).isFailed = n.isFailed := by
  rw [isFailed, isFailed, shift_stop, Option.isNone_map]

theorem shift_matched (tag : Tag) (t : Text) (p q : Nat) (ns : List Node) :
    (matched tag t p q ns).shift k = matched tag t (k + p) (k + q) (ns.map (shift k)) := by
  rw [← shiftList_eq]
  rfl

theorem shift_failed (tag : Tag) (p : Nat) (ns : List Node) :
    (failed tag p ns).shift k = failed tag (k + p) (ns.map (shift k)) := by
  rw [← shiftList_eq]
  rfl

end Node

def Error.shift (i : Input) (k : Nat) : Error → Error
  | .parse e => .parse ⟨k + e.offset, e.message, i⟩
  | .leftRecursion rule p => .leftRecursion rule (k + p)
  | e => e

def Fault.shift (i : Input) (k : Nat) : Fault → Fault
  | .error e => .error (e.shift i k)
  | .insideCharacter p => .insideCharacter (k + p)
  | .exhausted => .exhausted

/-- A result with all its places moved by `k`, in the input `i`. -/
def moved (i : Input) (k : Nat) (r : Except Fault Node) : Except Fault Node :=
  (r.map (Node.shift k)).mapError (Fault.shift i k)

def Run.shift (k : Nat) (r : Run) : Run := ⟨r.matched.map (Node.shift k), k + r.stop, r.refused.map (Node.shift k)⟩

def Trial.shift (k : Nat) (t : Trial) : Trial := ⟨t.failed.map (Node.shift k), t.chosen.map (Node.shift k)⟩

def Frame.shift (k : Nat) (f : Frame) : Frame := { f with offset := k + f.offset }

def Cursor.shift (i : Input) (k : Nat) (c : Cursor) : Cursor := ⟨i, k + c.offset⟩

/-! ## Inputs from a place on -/

/-- From `k` on, the input `i` is `j`. -/
def Input.Tail (i : Input) (k : Nat) (j : Input) : Prop := i.suffix? k = some j.text

section
variable {i j : Input} {k : Nat} (h : i.Tail k j)
include h

theorem Input.Tail.suffix? (p : Nat) : i.suffix? (k + p) = j.suffix? p := by
  obtain ⟨u, hu, hk⟩ := Input.suffix?_eq_some_iff.1 h
  ext r
  rw [Input.suffix?_eq_some_iff, Input.suffix?_eq_some_iff]
  constructor
  · intro ⟨s, hs, hp⟩
    rcases List.append_eq_append_iff.1 (hu.symm.trans hs) with ⟨w, hw, hr⟩ | ⟨w, hw, hr⟩
    · refine ⟨w, hr, ?_⟩
      rw [hw, byteSize_append] at hp
      omega
    · have hwr : w ++ j.text = [] ++ r := hr.symm
      rw [hw, byteSize_append] at hk
      obtain ⟨rfl, htext⟩ := append_inj_of_byteSize hwr (show byteSize w = byteSize [] by rw [byteSize_nil]; omega)
      refine ⟨[], htext, ?_⟩
      rw [byteSize_nil] at hk ⊢
      omega
  · intro ⟨s, hs, hp⟩
    refine ⟨u ++ s, ?_, ?_⟩
    · rw [hu, hs, List.append_assoc]
    · rw [byteSize_append, hk, hp]

theorem Input.Tail.rest (p : Nat) : i.rest (k + p) = j.rest p := by
  unfold Input.rest
  rw [h.suffix?]

theorem Input.Tail.isBoundary (p : Nat) : i.isBoundary (k + p) = j.isBoundary p := by
  unfold Input.isBoundary
  rw [h.suffix?]

theorem Input.Tail.size : i.size = k + j.size := by
  obtain ⟨u, hu, hk⟩ := Input.suffix?_eq_some_iff.1 h
  rw [i.size_eq, j.size_eq, hu, byteSize_append, hk]

theorem Input.Tail.slice? (p q : Nat) : i.slice? (k + p) (k + q) = j.slice? p q := by
  unfold Input.slice?
  rw [h.suffix?, h.suffix?, Nat.add_sub_add_left]
  simp only [Nat.add_le_add_iff_left]

theorem Input.Tail.ofOffset (p : Nat) : Cursor.ofOffset i (k + p) = (Cursor.ofOffset j p).shift i k := by
  unfold Cursor.ofOffset Cursor.shift
  rw [h.size, Nat.add_min_add_left]

end

section
variable {i : Input} {k : Nat} {c : Cursor} (h : i.Tail k c.input)
include h

theorem Cursor.shift_rest : (c.shift i k).rest = c.rest := h.rest c.offset

theorem Cursor.shift_skip (o : Options) : (c.shift i k).skip o = (c.skip o).shift i k := by
  unfold Cursor.skip
  rw [Cursor.shift_rest h]
  show Cursor.mk i (k + c.offset + _) = Cursor.mk i (k + (c.offset + _))
  rw [Nat.add_assoc]

theorem Cursor.shift_atEnd : (c.shift i k).atEnd = c.atEnd := by
  unfold Cursor.atEnd
  show decide (i.size ≤ k + c.offset) = decide (c.input.size ≤ c.offset)
  rw [h.size]
  simp only [Nat.add_le_add_iff_left]

theorem Cursor.shift_accept? (find : Text → Option Text) : (c.shift i k).accept? find =
    ((c.accept? find).map fun r => r.map fun (t, stop) => (t, stop.shift i k)).mapError (Fault.shift i k) := by
  unfold Cursor.accept?
  rw [Cursor.shift_rest h]
  cases find c.rest with
  | none => rfl
  | some t =>
    unfold Cursor.advance
    have hb : (c.shift i k).input.isBoundary (c.shift i k).offset = c.input.isBoundary c.offset :=
      h.isBoundary c.offset
    rw [hb]
    cases c.input.isBoundary c.offset with
    | true =>
      show Except.ok (some (t, Cursor.mk i (k + c.offset + byteSize t))) =
        Except.ok (some (t, Cursor.mk i (k + (c.offset + byteSize t))))
      rw [Nat.add_assoc]
    | false => rfl

end

section
variable {i j : Input} {k : Nat} (h : i.Tail k j)
include h

theorem Input.Tail.skip (o : Options) (p : Nat) : i.skip o (k + p) = k + j.skip o p := by
  unfold Input.skip
  rw [h.ofOffset, Cursor.shift_skip h]
  rfl

theorem Input.Tail.describeAt (p : Nat) : i.describeAt (k + p) = j.describeAt p := by
  unfold Input.describeAt
  rw [h.ofOffset, Cursor.shift_rest h]

theorem Input.Tail.joinText (p q : Nat) (ns : List Node) :
    joinText i (k + p) (k + q) (ns.map (Node.shift k)) = joinText j p q ns :=
  joinText_map Node.shift_text (h.slice? p q) ns

end

/-! ## Leaves -/

section
variable {σ τ : Type} {i j : Input} {o : Options} {a : Bool} {k : Nat} (h : i.Tail k j)
  {refer : Bool → String → Nat → Eval σ Node} {refer' : Bool → String → Nat → Eval τ Node}

theorem refuse_shift (p : Nat) (message : String) (n : Node) :
    refuse i a (k + p) message (n.shift k) = moved i k (refuse j a p message n) := by
  cases a with
  | true => rfl
  | false => rfl

theorem Options.kept_shift (ns : List Node) : o.kept (ns.map (Node.shift k)) = (o.kept ns).map (Node.shift k) := by
  unfold Options.kept
  split <;> rfl

theorem refuse_shift_failed (p q : Nat) (message : String) (tag : Tag) (ns : List Node) :
    refuse i a (k + q) message (.failed tag (k + p) (o.kept (ns.map (Node.shift k)))) =
      moved i k (refuse j a q message (.failed tag p (o.kept ns))) := by
  rw [Options.kept_shift, ← Node.shift_failed]
  exact refuse_shift q message _

namespace Scope

include h

theorem literal_shift (ms : List Matcher) (c : Option Bool) (p : Nat) :
    Scope.literal ⟨i, o, refer'⟩ a ms c (k + p) = moved i k (Scope.literal ⟨j, o, refer⟩ a ms c p) := by
  unfold Scope.literal
  have hstart : (Cursor.ofOffset i (k + p)).skip o = ((Cursor.ofOffset j p).skip o).shift i k := by
    rw [h.ofOffset]
    exact Cursor.shift_skip h o
  dsimp only
  rw [hstart]
  by_cases hm : ms.isEmpty = true
  · rw [if_pos hm, if_pos hm]
    rfl
  · rw [if_neg hm, if_neg hm, Cursor.shift_accept? h]
    cases ((Cursor.ofOffset j p).skip o).accept? fun t => ms.findSome? (·.leading? (c.getD o.caseSensitive) t) with
    | error f => rfl
    | ok r =>
      cases r with
      | none => exact refuse_shift (j := j) ((Cursor.ofOffset j p).skip o).offset _ (.failed .literal _ [])
      | some r => rfl

theorem endOfLine_shift (p : Nat) :
    Scope.endOfLine ⟨i, o, refer'⟩ a (k + p) = moved i k (Scope.endOfLine ⟨j, o, refer⟩ a p) := by
  unfold Scope.endOfLine
  dsimp only
  rw [h.ofOffset, Cursor.shift_accept? h, h.describeAt]
  cases (Cursor.ofOffset j p).accept? leadingNewline? with
  | error f => rfl
  | ok r =>
    cases r with
    | some r => rfl
    | none =>
      have hskip : ((Cursor.ofOffset j p).shift i k).skip o = ((Cursor.ofOffset j p).skip o).shift i k :=
        Cursor.shift_skip h o
      have hend : (((Cursor.ofOffset j p).skip o).shift i k).atEnd = ((Cursor.ofOffset j p).skip o).atEnd :=
        Cursor.shift_atEnd h
      rw [hskip]
      show (if (((Cursor.ofOffset j p).skip o).shift i k).atEnd = true then _ else _) =
        moved i k (if ((Cursor.ofOffset j p).skip o).atEnd = true then _ else _)
      rw [hend]
      by_cases he : ((Cursor.ofOffset j p).skip o).atEnd = true
      · rw [if_pos he, if_pos he]
        rfl
      · rw [if_neg he, if_neg he]
        exact refuse_shift (j := j) p _ (.failed .endOfLine p [])

theorem endOfInput_shift (p : Nat) :
    Scope.endOfInput ⟨i, o, refer'⟩ a (k + p) = moved i k (Scope.endOfInput ⟨j, o, refer⟩ a p) := by
  unfold Scope.endOfInput
  show (if i.size ≤ i.skip o (k + p) then _ else _) = moved i k (if j.size ≤ j.skip o p then _ else _)
  have hend : i.size ≤ i.skip o (k + p) ↔ j.size ≤ j.skip o p := by
    rw [h.skip, h.size, Nat.add_le_add_iff_left]
  by_cases he : j.size ≤ j.skip o p
  · rw [if_pos he, if_pos (hend.2 he)]
    show Except.ok (Node.matched _ _ _ (i.skip o (k + p)) _) = _
    rw [h.skip]
    rfl
  · rw [if_neg he, if_neg (fun hi => he (hend.1 hi))]
    show refuse i a (i.skip o (k + p)) (_ ++ i.describeAt (i.skip o (k + p))) _ = _
    rw [h.skip, h.describeAt]
    exact refuse_shift (j := j) (j.skip o p) _ (.failed .endOfInput p [])

/-! ## Closings -/

theorem closeSequence_shift (items : List Expr) (p : Nat) (r : Run) :
    Scope.closeSequence ⟨i, o, refer'⟩ a items (k + p) (r.shift k) =
      moved i k (Scope.closeSequence ⟨j, o, refer⟩ a items p r) := by
  obtain ⟨ns, q, refused⟩ := r
  unfold Scope.closeSequence Run.shift
  cases refused with
  | none =>
    show Except.ok (Node.matched _ (joinText i (k + p) (k + q) (ns.map (Node.shift k))) _ _ _) =
      Except.ok (Node.shift k (.matched _ (joinText j p q ns) _ _ _))
    rw [h.joinText, Node.shift_matched]
  | some n =>
    have hnodes : ns.map (Node.shift k) ++ [n.shift k] = (ns ++ [n]).map (Node.shift k) := by simp
    show refuse i a (i.skip o (k + q)) _ (.failed _ _ (o.kept (ns.map (Node.shift k) ++ [n.shift k]))) = _
    rw [h.skip, hnodes, List.length_map]
    exact refuse_shift_failed p _ _ _ _

omit h in
theorem closeChoice_shift (p place : Nat) (t : Trial) :
    Scope.closeChoice ⟨i, o, refer'⟩ a (k + p) (k + place) (t.shift k) =
      moved i k (Scope.closeChoice ⟨j, o, refer⟩ a p place t) := by
  obtain ⟨failed, chosen⟩ := t
  have hnone : refuse i a (k + place) "Choice found no matches"
      (.failed .choice (k + p) (o.kept (failed.map (Node.shift k)))) =
      moved i k (refuse j a place "Choice found no matches" (.failed .choice p (o.kept failed))) :=
    refuse_shift_failed p place _ _ _
  unfold Scope.closeChoice Trial.shift
  cases chosen with
  | none => exact hnone
  | some n =>
    dsimp only [Option.map_some, Option.bind_some]
    rw [Node.shift_stop]
    cases n.stop with
    | none => exact hnone
    | some q =>
      show Except.ok (Node.matched _ (n.shift k).text _ _ (o.kept (failed.map (Node.shift k)) ++ [n.shift k])) =
        Except.ok (Node.shift k (.matched _ n.text _ _ (o.kept failed ++ [n])))
      rw [Node.shift_matched, Node.shift_text, Options.kept_shift, List.map_append]
      rfl

theorem closeRepetition_shift (low : Nat) (high : Option Nat) (p : Nat) (r : Run) :
    Scope.closeRepetition ⟨i, o, refer'⟩ a low high (k + p) (r.shift k) =
      moved i k (Scope.closeRepetition ⟨j, o, refer⟩ a low high p r) := by
  obtain ⟨ns, q, refused⟩ := r
  have hnodes : ns.map (Node.shift k) ++ o.kept (refused.map (Node.shift k)).toList =
      (ns ++ o.kept refused.toList).map (Node.shift k) := by
    have hlist :
        (refused.map (Node.shift k)).toList = refused.toList.map (Node.shift k) := by cases refused <;> rfl
    rw [hlist, Options.kept_shift, List.map_append]
  unfold Scope.closeRepetition Run.shift
  dsimp only
  rw [hnodes, List.length_map]
  by_cases hlow : ns.length < low
  · rw [if_pos hlow, if_pos hlow]
    exact refuse_shift_failed p q _ _ _
  · rw [if_neg hlow, if_neg hlow]
    by_cases hhigh : high.any (· < ns.length) = true
    · rw [if_pos hhigh, if_pos hhigh]
      exact refuse_shift_failed p q _ _ _
    · rw [if_neg hhigh, if_neg hhigh, h.joinText, ← Node.shift_matched]
      rfl

omit h in
theorem closeOptional_shift (p : Nat) (n : Node) :
    Scope.closeOptional ⟨i, o, refer'⟩ (k + p) (n.shift k) = (Scope.closeOptional ⟨j, o, refer⟩ p n).shift k := by
  unfold Scope.closeOptional
  rw [Node.shift_stop]
  cases n.stop with
  | some q =>
    show Node.matched _ (n.shift k).text _ _ _ = Node.shift k (.matched _ n.text _ _ _)
    rw [Node.shift_matched, Node.shift_text]
    rfl
  | none =>
    show Node.matched _ _ _ _ (o.kept [n.shift k]) = Node.shift k (.matched _ _ _ _ (o.kept [n]))
    rw [Node.shift_matched, ← Options.kept_shift]
    rfl

end Scope

theorem closeRule_shift (name : String) (p : Nat) (n : Node) :
    closeRule i o a name (k + p) (n.shift k) = moved i k (closeRule j o a name p n) := by
  unfold closeRule
  rw [Node.shift_stop]
  cases n.stop with
  | some q =>
    show Except.ok (Node.matched _ (n.shift k).text _ _ _) = Except.ok (Node.shift k (.matched _ n.text _ _ _))
    rw [Node.shift_matched, Node.shift_text]
    rfl
  | none => exact refuse_shift_failed p p _ _ [n]

end

/-! ## Evaluations whose faults differ -/

namespace Eval

variable {σ τ α β γ δ : Type} {E : Fault → Prop} {F : Fault → Fault → Prop} {R : σ → τ → Prop}

/-- Two ends of evaluations in states related by `R`: `φ` makes the second value out of the first, or `F`
relates the faults. -/
inductive Mirror (E : Fault → Prop) (F : Fault → Fault → Prop) (R : σ → τ → Prop) (φ : α → β) :
    Except Fault α × σ → Except Fault β × τ → Prop
  | excused {f : Fault} {s : σ} {y : Except Fault β × τ} : E f → Mirror E F R φ (.error f, s) y
  | ok {a : α} {s : σ} {t : τ} : R s t → Mirror E F R φ (.ok a, s) (.ok (φ a), t)
  | error {f f' : Fault} {s : σ} {t : τ} : F f f' → R s t → Mirror E F R φ (.error f, s) (.error f', t)

/-- From states in `R` the second evaluation mirrors the first, unless that stops with a fault in `E`. -/
def Mirrors (E : Fault → Prop) (F : Fault → Fault → Prop) (R : σ → τ → Prop) (φ : α → β) (x : Eval σ α)
    (y : Eval τ β) : Prop :=
  ∀ s t, R s t → Mirror E F R φ (x s) (y t)

section
variable {φ : α → β} {x : Eval σ α} {y : Eval τ β}

theorem Mirrors.excused {f : Fault} (h : E f) : Mirrors E F R φ (throw f) y := fun _ _ _ => .excused h

theorem Mirrors.pure {a : α} {b : β} (h : φ a = b) : Mirrors E F R φ (pure a) (pure b) := by
  rw [← h]
  exact fun _ _ hst => .ok hst

theorem Mirrors.throw {f f' : Fault} (h : F f f') : Mirrors E F R φ (throw f) (throw f') :=
  fun _ _ hst => .error h hst

theorem Refines.mirrors {y : Eval τ α} (h : Refines E R x y R R)
    (hF : ∀ s t f, R s t → (x s).1 = .error f → F f f) : Mirrors E F R id x y := by
  intro s t hst
  have hF := fun f => hF s t f hst
  have h := h s t hst
  generalize x s = a at h hF ⊢
  generalize y t = b at h ⊢
  cases h with
  | excused hf => exact .excused hf
  | ok h => exact .ok h
  | error h => exact .error (hF _ rfl) h

theorem Mirrors.bind {ψ : γ → δ} {v : Eval σ α} {w : Eval τ β} {x : α → Eval σ γ} {y : β → Eval τ δ}
    (hv : Mirrors E F R φ v w) (hx : ∀ a, Mirrors E F R ψ (x a) (y (φ a))) :
    Mirrors E F R ψ (v >>= x) (w >>= y) := by
  intro s t hst
  have h := hv s t hst
  rw [bind_apply, bind_apply]
  generalize v s = a at h ⊢
  generalize w t = b at h ⊢
  cases h with
  | excused hf => exact .excused hf
  | ok h => exact hx _ _ _ h
  | error hf h => exact .error hf h

theorem Mirrors.ensuring {cleanup : Eval σ Unit} {cleanup' : Eval τ Unit} (hx : Mirrors E F R φ x y)
    (hc : ∀ s, (cleanup s).1 = .ok ()) (hcleanup : Refines (fun _ => False) R cleanup cleanup' R R) :
    Mirrors E F R φ (x.ensuring cleanup) (y.ensuring cleanup') := by
  have hrun : ∀ {s t}, R s t → ∃ s' t', cleanup s = (.ok (), s') ∧ cleanup' t = (.ok (), t') ∧ R s' t' := by
    intro s t hst
    obtain ⟨hsame, hst'⟩ := hcleanup.same hst fun _ _ hf => hf
    exact ⟨_, _, Prod.ext (hc s) rfl, Prod.ext (hsame.trans (hc s)) rfl, hst'⟩
  intro s t hst
  have h := hx s t hst
  unfold Eval.ensuring
  simp only [bind_apply, attempt_apply]
  generalize x s = a at h ⊢
  generalize y t = b at h ⊢
  cases h with
  | @excused f s _ hf =>
    have hs : ∃ s', cleanup s = (.ok (), s') := ⟨_, Prod.ext (hc s) rfl⟩
    obtain ⟨s', hs⟩ := hs
    simp only [hs]
    exact .excused hf
  | ok h =>
    obtain ⟨s', t', hs, ht, hst'⟩ := hrun h
    simp only [hs, ht]
    exact .ok hst'
  | error hf h =>
    obtain ⟨s', t', hs, ht, hst'⟩ := hrun h
    simp only [hs, ht]
    exact .error hf hst'

theorem Mirrors.result {s : σ} {t : τ} (h : Mirrors E F R φ x y) (hst : R s t)
    (hE : ∀ f, (x s).1 = .error f → ¬ E f) : (∃ a, (x s).1 = .ok a ∧ (y t).1 = .ok (φ a)) ∨
      ∃ f f', (x s).1 = .error f ∧ (y t).1 = .error f' ∧ F f f' := by
  have h := h s t hst
  generalize x s = a at h hE ⊢
  generalize y t = b at h ⊢
  cases h with
  | excused hf => exact absurd hf (hE _ rfl)
  | ok _ => exact .inl ⟨_, rfl, rfl⟩
  | error hf _ => exact .inr ⟨_, _, rfl, rfl, hf⟩

theorem Mirrors.moved {i : Input} {k : Nat} (hF : ∀ f, F f (f.shift i k)) {r r' : Except Fault Node}
    (h : r' = moved i k r) : Mirrors E F R (Node.shift k) (ofExcept r) (ofExcept r') := by
  rw [h]
  cases r with
  | ok n => exact .pure rfl
  | error f => exact .throw (hF f)

end

end Eval

/-! ## Expressions elsewhere -/

section
variable {σ τ : Type} {E : Fault → Prop} {F : Fault → Fault → Prop} {R : σ → τ → Prop} {i j : Input} {o : Options}
  {k : Nat} {refer : Bool → String → Nat → Eval σ Node} {refer' : Bool → String → Nat → Eval τ Node}

/-- What stands before may allow for more rounds. -/
theorem repeatRun_shift (h : i.Tail k j) (hE : E .exhausted) {item : Nat → Eval σ Node} {item' : Nat → Eval τ Node}
    (hi : ∀ p, Mirrors E F R (Node.shift k) (item p) (item' (k + p))) :
    ∀ (fuel fuel' place : Nat) (done : List Node), fuel ≤ fuel' →
      Mirrors E F R (Run.shift k) (Scope.repeatRun ⟨j, o, refer⟩ item fuel place done)
        (Scope.repeatRun ⟨i, o, refer'⟩ item' fuel' (k + place) (done.map (Node.shift k)))
  | 0, _, _, _, _ => .excused hE
  | fuel + 1, 0, _, _, hf => by omega
  | fuel + 1, fuel' + 1, place, done, hf => by
    unfold Scope.repeatRun
    have hskip : Scope.skip ⟨i, o, refer'⟩ (k + place) = k + Scope.skip ⟨j, o, refer⟩ place := h.skip o place
    rw [hskip]
    refine (hi (Scope.skip ⟨j, o, refer⟩ place)).bind fun n => ?_
    rw [Node.shift_stop]
    cases n.stop with
    | none =>
      dsimp only [Option.map_none]
      rw [← List.map_reverse]
      exact .pure rfl
    | some stop =>
      dsimp only [Option.map_some]
      rw [← List.map_cons]
      by_cases he : stop = Scope.skip ⟨j, o, refer⟩ place
      · rw [if_pos he, if_pos (congrArg (k + ·) he), ← List.map_reverse]
        exact .pure rfl
      · rw [if_neg he, if_neg (fun hk => he (Nat.add_left_cancel hk))]
        exact repeatRun_shift h hE hi fuel fuel' stop (n :: done) (Nat.le_of_succ_le_succ hf)

mutual
/-- Expressions do not look back if references do not. -/
theorem eval_shift (h : i.Tail k j) (hE : E .exhausted) (hF : ∀ f, F f (f.shift i k))
    (hr : ∀ a name p, Mirrors E F R (Node.shift k) (refer a name p) (refer' a name (k + p))) (e : Expr) (p : Nat) :
    Mirrors E F R (Node.shift k) (e.eval ⟨j, o, refer⟩ p) (e.eval ⟨i, o, refer'⟩ (k + p)) := by
  cases e with
  | literal a ms c =>
    unfold Expr.eval
    exact .moved hF (Scope.literal_shift h ms c p)
  | sequence a items =>
    unfold Expr.eval
    exact (evalRow_shift h hE hF hr items p).bind fun run => .moved hF (Scope.closeSequence_shift h items p run)
  | choice a items =>
    unfold Expr.eval
    have hskip : Scope.skip ⟨i, o, refer'⟩ (k + p) = k + Scope.skip ⟨j, o, refer⟩ p := h.skip o p
    rw [hskip]
    exact (evalAny_shift h hE hF hr items _).bind fun trial => .moved hF (Scope.closeChoice_shift p _ trial)
  | repetition a low high item =>
    unfold Expr.eval
    have hfuel : j.size + 1 ≤ i.size + 1 := by
      rw [h.size]
      omega
    refine (repeatRun_shift h hE (fun q => eval_shift h hE hF hr item q) _ _ p [] hfuel).bind fun run => ?_
    exact .moved hF (Scope.closeRepetition_shift h low high p run)
  | optional a item =>
    unfold Expr.eval
    exact (eval_shift h hE hF hr item p).bind fun n => .pure (Scope.closeOptional_shift p n).symm
  | endOfLine a =>
    unfold Expr.eval
    exact .moved hF (Scope.endOfLine_shift h p)
  | endOfInput a =>
    unfold Expr.eval
    exact .moved hF (Scope.endOfInput_shift h p)
  | rule a name =>
    unfold Expr.eval
    exact hr a name p
  | placeholder a name =>
    unfold Expr.eval
    exact .throw (hF (.error (.unresolved name)))
theorem evalRow_shift (h : i.Tail k j) (hE : E .exhausted) (hF : ∀ f, F f (f.shift i k))
    (hr : ∀ a name p, Mirrors E F R (Node.shift k) (refer a name p) (refer' a name (k + p)))
    (es : List Expr) (p : Nat) :
    Mirrors E F R (Run.shift k) (Expr.evalRow ⟨j, o, refer⟩ es p)
      (Expr.evalRow ⟨i, o, refer'⟩ es (k + p)) := by
  cases es with
  | nil =>
    unfold Expr.evalRow
    exact .pure rfl
  | cons e es =>
    unfold Expr.evalRow
    have hskip : Scope.skip ⟨i, o, refer'⟩ (k + p) = k + Scope.skip ⟨j, o, refer⟩ p := h.skip o p
    rw [hskip]
    refine (eval_shift h hE hF hr e _).bind fun n => ?_
    rw [Node.shift_stop]
    cases n.stop with
    | none => exact .pure rfl
    | some stop => exact (evalRow_shift h hE hF hr es stop).bind fun run => .pure rfl
theorem evalAny_shift (h : i.Tail k j) (hE : E .exhausted) (hF : ∀ f, F f (f.shift i k))
    (hr : ∀ a name p, Mirrors E F R (Node.shift k) (refer a name p) (refer' a name (k + p)))
    (es : List Expr) (p : Nat) :
    Mirrors E F R (Trial.shift k) (Expr.evalAny ⟨j, o, refer⟩ es p)
      (Expr.evalAny ⟨i, o, refer'⟩ es (k + p)) := by
  cases es with
  | nil =>
    unfold Expr.evalAny
    exact .pure rfl
  | cons e es =>
    unfold Expr.evalAny
    refine (eval_shift h hE hF hr e p).bind fun n => ?_
    rw [Node.shift_isFailed]
    cases n.isFailed with
    | true => exact (evalAny_shift h hE hF hr es p).bind fun trial => .pure rfl
    | false => exact .pure rfl
end

end

/-! ## Rules elsewhere -/

/-- A fault and the same fault moved, but for one that a body failed with when it was built. -/
def Grammar.Moves (g : Grammar) (i : Input) (k : Nat) (f f' : Fault) : Prop :=
  f' = f.shift i k ∨ f' = f ∧ g.Unbuilt f

section
variable {E : Fault → Prop} {g : Grammar} {i j : Input} {k : Nat}

def FurtherBy (k : Nat) (st st' : List Frame) : Prop := st' = st.map (Frame.shift k)

theorem Session.rule_moves {ρ : List Frame → List Frame → Prop} (name : String) :
    Mirrors E (g.Moves i k) (Session.Alongside g ρ) id (Session.rule g name) (Session.rule g name) := by
  refine (Session.rule_alongside name).mirrors ?_
  intro s t f hst hf
  obtain ⟨s', hs, _⟩ := hst.left.rule_apply name
  rw [hs] at hf
  rcases Grammar.find_eq_error hf with ⟨_, hf⟩ | hf
  · rw [hf]
    exact .inl rfl
  · exact .inr ⟨rfl, hf⟩

theorem Frame.shift_injective {f f' : Frame} (h : f.shift k = f'.shift k) : f = f' := by
  obtain ⟨rule, p, o⟩ := f
  obtain ⟨rule', p', o'⟩ := f'
  simp only [Frame.shift, Frame.mk.injEq, Nat.add_left_cancel_iff] at h
  obtain ⟨rfl, rfl, rfl⟩ := h
  rfl

theorem inProgress_shift (st : List Frame) (f : Frame) :
    inProgress (st.map (Frame.shift k)) (f.shift k) = inProgress st f := by
  apply inProgress_map
  · intro f'
    exact Nat.add_left_cancel_iff
  · intro f' _ h
    exact Frame.shift_injective h

theorem Session.enter_moves (f : Frame) : Mirrors E (g.Moves i k) (Session.Alongside g (FurtherBy k)) id
    (Session.enter f) (Session.enter (f.shift k)) := by
  intro s t hst
  have hactive : t.active = s.active.map (Frame.shift k) := hst.active
  rw [Session.enter_apply, Session.enter_apply, hactive, inProgress_shift]
  cases inProgress s.active f with
  | true => exact .error (.inl rfl) hst
  | false => exact .ok ⟨⟨rfl, hst.left.cache⟩, ⟨rfl, hst.right.cache⟩, rfl⟩

theorem Session.exit_further :
    Refines (fun _ => False) (Session.Alongside g (FurtherBy k)) Session.exit Session.exit
      (Session.Alongside g (FurtherBy k)) (Session.Alongside g (FurtherBy k)) := by
  refine Session.exit_alongside ?_
  intro st st' hst
  rw [hst]
  exact List.map_tail.symm

theorem callRule_shift (h : i.Tail k j) (hE : E .exhausted) : ∀ (fuel fuel' : Nat), fuel ≤ fuel' →
    ∀ (o : Options) (depth : Nat) (a : Bool) (name : String) (p : Nat),
      Mirrors E (g.Moves i k) (Session.Alongside g (FurtherBy k)) (Node.shift k)
        (callRule (Session.host g) j fuel o depth a name p)
        (callRule (Session.host g) i fuel' o depth a name (k + p))
  | 0, _, _, _, _, _, _, _ => .excused hE
  | _ + 1, 0, hf, _, _, _, _, _ => by omega
  | fuel + 1, fuel' + 1, hf, o, depth, a, name, p => by
    rw [callRule_succ, callRule_succ]
    refine (Session.rule_moves name).bind fun rule => Mirrors.bind (φ := id) ?_ fun _ => ?_
    · unfold checkDepth
      split
      · exact .throw (.inl rfl)
      · exact .pure rfl
    refine (Session.enter_moves ⟨rule.name, p, o⟩).bind fun _ => ?_
    refine Mirrors.bind (φ := Node.shift k) ?_ fun tree => ?_
    · refine Mirrors.ensuring ?_ (fun _ => rfl) Session.exit_further
      refine eval_shift h hE (fun f => .inl rfl) (fun a name q => ?_) rule.body p
      exact callRule_shift h hE fuel fuel' (Nat.le_of_succ_le_succ hf) _ (depth + 1) a name q
    · exact .moved (fun f => .inl rfl) (closeRule_shift rule.name p tree)

end

/-! ## Evaluations elsewhere -/

/-- What comes of an expression at `p` after these calls, below `depth` rules. -/
def Grammar.outcome (g : Grammar) (calls : List Call) (e : Expr) (i : Input) (o : Options) (depth p : Nat) :
    Except Fault Node :=
  (e.eval (g.scope i o depth) p (g.after calls)).1

theorem Grammar.outcome_shift (g : Grammar) (calls calls' : List Call) (e : Expr) {i j : Input} {k : Nat}
    (h : i.Tail k j) (o : Options) (depth : Nat) {p : Nat} (hp : j.isBoundary p = true) :
    g.outcome calls' e i o depth (k + p) = moved i k (g.outcome calls e j o depth p) ∨
      ∃ f, g.Unbuilt f ∧ g.outcome calls e j o depth p = .error f ∧
        g.outcome calls' e i o depth (k + p) = .error f := by
  have hfuel : g.nestingBound j + 1 ≤ g.nestingBound i + 1 := by
    refine Nat.succ_le_succ (Nat.mul_le_mul_right _ (Nat.mul_le_mul_left _ ?_))
    rw [h.size]
    omega
  have hrun : Mirrors (· = .exhausted) (g.Moves i k) (Session.Alongside g (FurtherBy k)) (Node.shift k)
      (e.eval (g.scope j o depth) p) (e.eval (g.scope i o depth) (k + p)) := by
    refine eval_shift (E := (· = .exhausted)) h rfl (fun f => .inl rfl) (fun a name q => ?_) e p
    exact callRule_shift (E := (· = .exhausted)) h rfl _ _ hfuel o depth a name q
  have hs := g.after_sound calls
  have hs' := g.after_sound calls'
  have hst : Session.Alongside g (FurtherBy k) (g.after calls) (g.after calls') := by
    refine ⟨⟨rfl, hs.cache⟩, ⟨rfl, hs'.cache⟩, ?_⟩
    rw [hs.active, hs'.active]
    exact List.map_nil.symm
  have hforeseen := (hs.eval_safe e j o depth hp).foreseen
  have hresult := hrun.result hst fun f hf he => by
    obtain ⟨err, hf'⟩ := hforeseen f hf
    rw [he] at hf'
    cases hf'
  unfold outcome
  rcases hresult with ⟨n, hn, hn'⟩ | ⟨f, f', hf, hf', hmoves | ⟨hsame, hunbuilt⟩⟩
  · rw [hn, hn']
    exact .inl rfl
  · rw [hf, hf', hmoves]
    exact .inl rfl
  · rw [hsame] at hf'
    exact .inr ⟨f, hunbuilt, hf, hf'⟩

/-- Where a character begins, an expression comes to what it comes to on the rest of the input alone, with all
places moved; only an error that a body failed with when it was built is what it was. -/
theorem eval_translates (g : Grammar) (calls calls' : List Call) (e : Expr) (i : Input)
    (o : Options) (depth p : Nat)
    (hp : i.isBoundary p = true) :
    g.outcome calls' e i o depth p = moved i p (g.outcome calls e (.ofText (i.rest p)) o depth 0) ∨
      ∃ f, g.Unbuilt f ∧ g.outcome calls e (.ofText (i.rest p)) o depth 0 = .error f ∧
        g.outcome calls' e i o depth p = .error f := by
  have htail : i.Tail p (.ofText (i.rest p)) := Input.suffix?_of_isBoundary hp
  exact g.outcome_shift calls calls' e htail o depth (Input.isBoundary_zero _)

def reentrant : Grammar where
  rules := [⟨"item", {}, fun _ => .ok (.sequence false [.ref "item", .text ['é']])⟩]

theorem reentrant_unbuilt (f : Fault) : ¬ reentrant.Unbuilt f := by
  intro ⟨decl, hdecl, e, hb, _⟩
  rw [List.mem_singleton.1 hdecl] at hb
  cases hb

/-- After two bytes and before a blank, letters match, and the rule enters itself behind the blank. -/
theorem eval_translates_reentrant : accents.isBoundary 2 = true ∧
    (∃ n, reentrant.outcome [] (.many (.text ['é'])) (.ofText (accents.rest 2)) {} 0 0 = .ok n ∧
      n.places = [0, 3, 1, 3] ∧
      reentrant.outcome [.rule "item"] (.many (.text ['é'])) accents {} 0 2 = .ok (n.shift 2)) ∧
    reentrant.outcome [] (.ref "item") (.ofText (accents.rest 2)) {} 0 0 =
      .error (.error (.leftRecursion "item" 1)) ∧
    reentrant.outcome [.rule "item"] (.ref "item") accents {} 0 2 = .error (.error (.leftRecursion "item" 3)) := by
  have hp : accents.isBoundary 2 = true := by decide +kernel
  have hnode :
      (reentrant.outcome [] (.many (.text ['é'])) (.ofText (accents.rest 2)) {} 0 0).toOption.map Node.places =
      some [0, 3, 1, 3] := by decide +kernel
  have hfault : reentrant.outcome [] (.ref "item") (.ofText (accents.rest 2)) {} 0 0 =
      .error (.error (.leftRecursion "item" 1)) := by
    have hrun : (reentrant.outcome [] (.ref "item") (.ofText (accents.rest 2)) {} 0 0).map (fun _ => ()) =
        .error (.error (.leftRecursion "item" 1)) := by decide +kernel
    cases hr : reentrant.outcome [] (.ref "item") (.ofText (accents.rest 2)) {} 0 0 with
    | ok n =>
      rw [hr] at hrun
      cases hrun
    | error f =>
      rw [hr] at hrun
      exact congrArg Except.error (Except.error.inj hrun)
  have hmoved : ∀ e : Expr, reentrant.outcome [.rule "item"] e accents {} 0 2 =
      moved accents 2 (reentrant.outcome [] e (.ofText (accents.rest 2)) {} 0 0) := by
    intro e
    rcases eval_translates reentrant [] [.rule "item"] e accents {} 0 2 hp with h | ⟨f, hf, _⟩
    · exact h
    · exact absurd hf (reentrant_unbuilt f)
  obtain ⟨n, hn, hplaces⟩ := exists_ok_of_toOption hnode
  refine ⟨hp, ⟨n, hn, hplaces, ?_⟩, hfault, ?_⟩
  · rw [hmoved, hn]
    rfl
  · rw [hmoved, hfault]
    rfl

end PegTree
