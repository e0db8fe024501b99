import PegTree.Expr.Equality
import PegTree.Proofs.Yield

/-!
# Grouping

Neighbouring alternatives of a choice may be put into a choice of their own, and neighbouring items of a
sequence into a sequence of their own: what comes out is the same but for the nodes of these groups, which
simplification takes away. Only a group of no items at the end of a sequence shows, as it moves the end past
whitespace.
-/

namespace PegTree

/-! ## Two evaluations from one state -/

namespace Eval

variable {σ α β γ δ : Type} {I : σ → Prop}

/-- Two ends of evaluations in the same state: values that `R` relates, in a state in `I`, or the same fault. -/
inductive Twin (I : σ → Prop) (R : α → β → Prop) : Except Fault α × σ → Except Fault β × σ → Prop
  | ok {a : α} {b : β} {s : σ} : I s → R a b → Twin I R (.ok a, s) (.ok b, s)
  | error {f : Fault} {s : σ} : Twin I R (.error f, s) (.error f, s)

def Twins (I : σ → Prop) (R : α → β → Prop) (x : Eval σ α) (y : Eval σ β) : Prop := ∀ s, I s → Twin I R (x s) (y s)

section
variable {R : α → β → Prop} {Q : γ → δ → Prop} {x : Eval σ α} {y : Eval σ β}

theorem Twins.pure {a : α} {b : β} (h : R a b) : Twins I R (pure a) (pure b) := fun _ hs => .ok hs h

theorem Twins.imp {R' : α → β → Prop} (h : Twins I R x y) (hR : ∀ a b, R a b → R' a b) : Twins I R' x y := by
  intro s hs
  have h := h s hs
  generalize x s = a at h ⊢
  generalize y s = b at h ⊢
  cases h with
  | ok hs h => exact .ok hs (hR _ _ h)
  | error => exact .error

theorem Twins.bind {k : α → Eval σ γ} {l : β → Eval σ δ} (h : Twins I R x y)
    (hk : ∀ a b, R a b → Twins I Q (k a) (l b)) : Twins I Q (x >>= k) (y >>= l) := by
  intro s hs
  have h := h s hs
  rw [bind_apply, bind_apply]
  generalize x s = a at h ⊢
  generalize y s = b at h ⊢
  cases h with
  | ok hs h => exact hk _ _ h _ hs
  | error => exact .error

theorem Twins.self {φ : α → Prop} {E : Fault → σ → Prop} (h : Triple I x (fun a t => I t ∧ φ a) E) :
    Twins I (fun a b => a = b ∧ φ a) x x := by
  intro s hs
  have h := h s hs
  generalize x s = a at h ⊢
  obtain ⟨_ | a, t⟩ := a
  · exact .error
  · exact .ok h.1 ⟨rfl, h.2⟩

theorem Twins.both {φ : α → Prop} {ψ : β → Prop} {E E' : Fault → σ → Prop} (h : Twins I R x y)
    (hx : Triple I x (fun a t => I t ∧ φ a) E) (hy : Triple I y (fun b t => I t ∧ ψ b) E') :
    Twins I (fun a b => R a b ∧ φ a ∧ ψ b) x y := by
  intro s hs
  have h := h s hs
  have hx := hx s hs
  have hy := hy s hs
  generalize x s = a at h hx ⊢
  generalize y s = b at h hy ⊢
  cases h with
  | ok hs h => exact .ok hs ⟨h, hx.2, hy.2⟩
  | error => exact .error

theorem Twins.map {f : α → γ} {g : β → δ} (h : Twins I R x y) (hf : ∀ a b, R a b → Q (f a) (g b)) :
    Twins I Q (f <$> x) (g <$> y) := by
  rw [map_eq_pure_bind, map_eq_pure_bind]
  exact h.bind fun a b hab => .pure (hf a b hab)

end

end Eval

open Eval

/-! ## What a node shows -/

/-- What a node shows once it is simplified, but for its text, which is the one it had before. -/
def Node.shown (n : Node) : Face × List Node := (n.face, n.simplify.children)

/-- What an evaluation at `p` comes to, as far as structural nodes below the root do not count. -/
def Expr.outcome {σ : Type} (s : Scope σ) (e : Expr) (p : Nat) : Eval σ (Face × List Node) :=
  Node.shown <$> e.eval s p

theorem Node.shown_eq {m n : Node} (hf : m.face = n.face) (hc : flatList m.children = flatList n.children) :
    m.shown = n.shown := by
  unfold Node.shown
  rw [hf, simplify_children, simplify_children, hc]

theorem outcome_eq {σ : Type} {I : σ → Prop} {s : Scope σ} {e f : Expr} {p : Nat} {t : σ} (ht : I t)
    (h : Twins I (fun m n => m.shown = n.shown) (e.eval s p) (f.eval s p)) :
    e.outcome s p t = f.outcome s p t := by
  have h := h t ht
  unfold Expr.outcome
  rw [map_apply, map_apply]
  generalize e.eval s p t = a at h ⊢
  generalize f.eval s p t = b at h ⊢
  cases h with
  | ok _ h => exact congrArg (fun x => (Except.ok x, _)) h
  | error => rfl

/-! ## Choices -/

section
variable {σ : Type} (s : Scope σ)

def Scope.choiceNode (p : Nat) (t : Trial) : Node :=
  match t.chosen.bind fun n => n.stop.map (n, ·) with
  | some (n, stop) => .matched .choice n.text p stop (s.options.kept t.failed ++ [n])
  | none => .failed .choice p (s.options.kept t.failed)

theorem eval_choice (items : List Expr) (p : Nat) :
    (Expr.choice false items).eval s p = s.choiceNode p <$> Expr.evalAny s items (s.skip p) := by
  have hclose : ∀ t, s.closeChoice false p (s.skip p) t = .ok (s.choiceNode p t) := by
    intro t
    unfold Scope.closeChoice Scope.choiceNode
    cases t.chosen.bind fun n => n.stop.map (n, ·) <;> rfl
  unfold Expr.eval
  simp only [hclose, map_eq_pure_bind]
  rfl

theorem evalAny_append (es fs : List Expr) (p : Nat) : Expr.evalAny s (es ++ fs) p =
    Expr.evalAny s es p >>= fun t => match t.chosen with
      | some _ => pure t
      | none => (fun t' => { t' with failed := t.failed ++ t'.failed }) <$> Expr.evalAny s fs p := by
  induction es with
  | nil => simp [Expr.evalAny]
  | cons e es ih =>
    rw [List.cons_append, Expr.evalAny, Expr.evalAny, bind_assoc]
    refine bind_congr fun n => ?_
    cases n.isFailed with
    | true =>
      simp only [if_true, ih, bind_assoc, pure_bind]
      refine bind_congr fun t => ?_
      obtain ⟨failed, chosen⟩ := t
      cases chosen <;> simp
    | false => simp

end

/-- What two trials have in common if they differ by groups only. -/
inductive Trial.Regroups (o : Options) : Trial → Trial → Prop
  | chosen {fs gs : List Node} {m n : Node} {stop : Nat} :
    m.stop = some stop → n.stop = some stop → m.text = n.text →
    Node.flatList (o.kept fs ++ [m]) = Node.flatList (o.kept gs ++ [n]) → Regroups o ⟨fs, some m⟩ ⟨gs, some n⟩
  | none {fs gs : List Node} : Node.flatList (o.kept fs) = Node.flatList (o.kept gs) →
    Regroups o ⟨fs, .none⟩ ⟨gs, .none⟩

theorem Options.kept_append (o : Options) (ns ms : List Node) : o.kept (ns ++ ms) = o.kept ns ++ o.kept ms := by
  unfold Options.kept
  split <;> rfl

theorem Trial.Regroups.shown {σ : Type} {s : Scope σ} {t t' : Trial}
    (h : Trial.Regroups s.options t t') (p : Nat) :
    (s.choiceNode p t).shown = (s.choiceNode p t').shown := by
  cases h with
  | chosen hm hn htext hflat =>
    simp only [Scope.choiceNode, Option.bind_some, hm, hn, Option.map_some, htext]
    exact Node.shown_eq rfl hflat
  | none hflat => exact Node.shown_eq rfl hflat

theorem Trial.Regroups.failed {o : Options} {t t' : Trial} (h : Trial.Regroups o t t') (ns : List Node) {n : Node}
    (hn : Node.flatList (o.kept ns) = Node.flatList (o.kept [n])) :
    Trial.Regroups o { t with failed := ns ++ t.failed } { t' with failed := n :: t'.failed } := by
  have hcons : ∀ gs, o.kept (n :: gs) = o.kept [n] ++ o.kept gs := fun gs => o.kept_append [n] gs
  cases h with
  | chosen hm hn' htext hflat =>
    refine .chosen hm hn' htext ?_
    rw [o.kept_append, hcons, List.append_assoc, List.append_assoc, Node.flatList_append, hflat, hn,
      ← Node.flatList_append]
  | none hflat =>
    refine .none ?_
    rw [o.kept_append, hcons, Node.flatList_append, hflat, hn, ← Node.flatList_append]

theorem Node.flatList_structural {n : Node} (ht : n.tag.isStructural = true) (ns : List Node) :
    flatList (n :: ns) = flatList (n.children ++ ns) := by
  obtain ⟨tag, text, offset, stop, children⟩ := n
  have htag : tag.isStructural = true := ht
  rw [flatList, flat, if_pos htag, flatList_append]

theorem Options.flatList_kept (o : Options) {n : Node} {ns : List Node} (ht : n.tag.isStructural = true)
    (hn : n.children = o.kept ns) : Node.flatList (o.kept [n]) = Node.flatList (o.kept ns) := by
  unfold Options.kept at hn ⊢
  by_cases ho : o.includeFailed = true
  · rw [if_pos ho] at hn
    rw [if_pos ho, if_pos ho, Node.flatList_structural ht, hn, List.append_nil]
  · rw [if_neg ho, if_neg ho]

section
variable {σ : Type} {s : Scope σ} {p : Nat}

theorem evalAny_self (es : List Expr) (p : Nat) :
    Twins (fun _ => True) (fun t t' => t = t' ∧ t.Proper) (Expr.evalAny s es p) (Expr.evalAny s es p) :=
  .self ((evalAny_proper s es p).conseq (fun _ h => h) (fun _ _ h => ⟨trivial, h⟩) fun _ _ h => h)

theorem eval_self (e : Expr) (p : Nat) :
    Twins (fun _ => True) (fun m n => m = n ∧ True) (e.eval s p) (e.eval s p) :=
  .self ((Triple.any _).conseq (fun _ h => h) (fun _ _ _ => ⟨trivial, trivial⟩) fun _ _ h => h)

theorem evalAny_regroups (hp : s.skip p = p) (es : List Expr) :
    Twins (fun _ => True) (Trial.Regroups s.options) (Expr.evalAny s (es.flatMap Expr.alternatives) p)
      (Expr.evalAny s es p) := by
  induction es with
  | nil => exact .pure (.none rfl)
  | cons e es ih =>
    rw [List.flatMap_cons]
    by_cases he : ∃ items, e = .choice false items
    · obtain ⟨items, rfl⟩ := he
      -- the group is tried where its alternatives are, as no whitespace is left to be skipped
      rw [Expr.evalAny, eval_choice, hp, map_eq_pure_bind, bind_assoc, Expr.alternatives, evalAny_append]
      refine (evalAny_self items p).bind ?_
      rintro ⟨failed, chosen⟩ _ ⟨rfl, hproper⟩
      rw [pure_bind]
      cases chosen with
      | some n =>
        obtain ⟨stop, hstop⟩ := Option.ne_none_iff_exists'.1 (hproper.chosen n (by simp))
        simp only [Scope.choiceNode, Option.bind_some, hstop, Option.map_some]
        refine .pure (.chosen hstop rfl rfl ?_)
        rw [s.options.kept_nil, List.nil_append, Node.flatList_structural rfl, List.append_nil]
        rfl
      | none =>
        simp only [Scope.choiceNode, Option.bind_none]
        rw [map_eq_pure_bind]
        refine ih.bind fun t t' h => .pure (h.failed _ ?_)
        exact (s.options.flatList_kept rfl rfl).symm
    · have halone : e.alternatives = [e] := by
        cases e with
        | choice a items =>
          cases a with
          | false => exact absurd ⟨items, rfl⟩ he
          | true => rfl
        | _ => rfl
      rw [halone, List.singleton_append, Expr.evalAny, Expr.evalAny]
      refine (eval_self e p).bind ?_
      rintro n _ ⟨rfl, _⟩
      cases hf : n.isFailed with
      | true => exact ih.bind fun t t' h => .pure (h.failed [n] rfl)
      | false =>
        obtain ⟨stop, hstop⟩ : ∃ stop, n.stop = some stop :=
          Option.isSome_iff_exists.1 (by simpa [Node.isFailed] using hf)
        exact .pure (.chosen hstop hstop rfl rfl)

end

/-! ## Sequences -/

theorem Input.skip_skip {i : Input} {p : Nat} (o : Options) (hp : i.isBoundary p = true) :
    i.skip o (i.skip o p) = i.skip o p := by
  have hrest : o.skippable (i.rest (i.skip o p)) = [] := by
    obtain ⟨t, r, ht, rfl⟩ := isBoundary_iff.1 hp
    have hstop := (span_skip o hp).byteSize_eq
    rw [rest_byteSize ht, ← byteSize_append] at hstop
    unfold Options.skippable at hstop ⊢
    by_cases ho : o.stripWhitespace = true
    · rw [if_pos ho] at hstop ⊢
      have hsplit : i.text = t ++ r.takeWhile o.isWhitespace ++ r.dropWhile o.isWhitespace := by
        rw [List.append_assoc, List.takeWhile_append_dropWhile, ht]
      rw [hstop, rest_byteSize hsplit, List.takeWhile_eq_nil_iff]
      exact fun h => List.dropWhile_get_zero_not _ _ h
    · rw [if_neg ho]
  have hspan := span_skip o (skip_boundary o hp)
  rw [hrest] at hspan
  simpa using hspan.byteSize_eq

section
variable {σ : Type} (s : Scope σ)

def Scope.sequenceNode (p : Nat) (r : Run) : Node :=
  match r.refused with
  | none => .matched .sequence (joinText s.input p r.stop r.matched) p r.stop r.matched
  | some n => .failed .sequence p (s.options.kept (r.matched ++ [n]))

theorem eval_sequence (items : List Expr) (p : Nat) :
    (Expr.sequence false items).eval s p = s.sequenceNode p <$> Expr.evalRow s items p := by
  have hclose : ∀ r, s.closeSequence false items p r = .ok (s.sequenceNode p r) := by
    rintro ⟨matched, stop, _ | n⟩ <;> rfl
  unfold Expr.eval
  simp only [hclose, map_eq_pure_bind]
  rfl

theorem evalRow_append (es fs : List Expr) (p : Nat) : Expr.evalRow s (es ++ fs) p =
    Expr.evalRow s es p >>= fun r => match r.refused with
      | some _ => pure r
      | none => (fun r' => { r' with matched := r.matched ++ r'.matched }) <$> Expr.evalRow s fs r.stop := by
  induction es generalizing p with
  | nil => simp [Expr.evalRow]
  | cons e es ih =>
    rw [List.cons_append, Expr.evalRow, Expr.evalRow, bind_assoc]
    refine bind_congr fun n => ?_
    cases n.stop with
    | none => simp
    | some stop =>
      simp only [ih, bind_assoc, pure_bind]
      refine bind_congr fun r => ?_
      obtain ⟨matched, stop', refused⟩ := r
      cases refused <;> simp

end

inductive Run.Regroups (o : Options) : Run → Run → Prop
  | matched {ns ms : List Node} {stop : Nat} : Node.flatList ns = Node.flatList ms →
    ns.flatMap (·.text) = ms.flatMap (·.text) → Regroups o ⟨ns, stop, none⟩ ⟨ms, stop, none⟩
  | refused {ns ms : List Node} {p q : Nat} {n m : Node} :
    Node.flatList (o.kept (ns ++ [n])) = Node.flatList (o.kept (ms ++ [m])) →
    Regroups o ⟨ns, p, some n⟩ ⟨ms, q, some m⟩

section
variable {σ : Type} {g : Grammar} {s : Scope σ} {I : σ → Prop} {err : Fault → Prop} {low : Nat}

theorem Run.Regroups.shown {p : Nat} {r r' : Run} (h : Run.Regroups s.options r r')
    (hr : Laid s.input (fun _ => True) p r.matched r.stop)
    (hr' : Laid s.input (fun _ => True) p r'.matched r'.stop) :
    (s.sequenceNode p r).shown = (s.sequenceNode p r').shown := by
  cases h with
  | matched hflat htext =>
    refine Node.shown_eq ?_ hflat
    have hjoin := (joinText_eq hr).trans (htext.trans (joinText_eq hr').symm)
    show Face.mk _ _ _ _ = Face.mk _ _ _ _
    exact congrArg (Face.mk _ · _ _) hjoin
  | refused hflat => exact Node.shown_eq rfl hflat

theorem Run.Regroups.after {o : Options} {r r' : Run} (h : Run.Regroups o r r') (ns : List Node) {n : Node}
    (hflat : Node.flatList ns = Node.flatList [n]) (htext : ns.flatMap (·.text) = n.text) :
    Run.Regroups o { r with matched := ns ++ r.matched } { r' with matched := n :: r'.matched } := by
  have hcons : ∀ ms, Node.flatList (n :: ms) = Node.flatList [n] ++ Node.flatList ms := fun ms =>
    Node.flatList_append [n] ms
  cases h with
  | matched hf ht =>
    refine .matched ?_ ?_
    · rw [Node.flatList_append, hcons, hflat, hf]
    · rw [List.flatMap_append, List.flatMap_cons, htext, ht]
  | @refused ns' ms' _ _ m m' hf =>
    refine .refused ?_
    unfold Options.kept at hf ⊢
    by_cases ho : o.includeFailed = true
    · rw [if_pos ho, if_pos ho] at hf
      rw [if_pos ho, if_pos ho, List.append_assoc, List.cons_append, Node.flatList_append, hcons, hflat, hf]
    · rw [if_neg ho, if_neg ho]

theorem Scope.Sound.row_at (hs : s.Sound g I err low) (es : List Expr) {p q : Nat} (hl : low ≤ q)
    (hq : s.input.isBoundary q = true) (hpq : s.skip p = s.skip q) :
    Twins I (fun r r' => r.matched = r'.matched ∧ r.refused = r'.refused ∧
      (r.refused = none → r.stop = r'.stop ∨ es = [] ∧ r.stop = p ∧ r'.stop = q))
      (Expr.evalRow s es p) (Expr.evalRow s es q) := by
  cases es with
  | nil => exact .pure ⟨rfl, rfl, fun _ => .inr ⟨rfl, rfl, rfl⟩⟩
  | cons e es =>
    rw [Expr.evalRow, Expr.evalRow, hpq]
    have hle := Nat.le_trans hl (Input.le_skip s.options hq)
    have hb := Input.skip_boundary s.options hq
    refine (Twins.self (hs.eval e hle hb)).bind ?_
    rintro n _ ⟨rfl, hn⟩
    cases hstop : n.stop with
    | none => exact .pure ⟨rfl, rfl, fun h => by cases h⟩
    | some stop =>
      obtain ⟨hle', hb'⟩ := hn.stop_boundary hb hstop
      refine (Twins.self (hs.evalRow es (Nat.le_trans hle hle') hb')).bind ?_
      rintro r _ ⟨rfl, _⟩
      exact .pure ⟨rfl, rfl, fun _ => .inl rfl⟩

/-- Items match with the same outcome if some of them are grouped, but for a group of no items at the end. -/
theorem Scope.Sound.row_regroups (hs : s.Sound g I err low) (es : List Expr)
    (hlast : ∀ e ∈ es.getLast?, e ≠ .sequence false []) {p q : Nat} (hlp : low ≤ p) (hlq : low ≤ q)
    (hp : s.input.isBoundary p = true) (hq : s.input.isBoundary q = true)
    (hpq : p = q ∨ es ≠ [] ∧ s.skip p = s.skip q) :
    Twins I (Run.Regroups s.options) (Expr.evalRow s (es.flatMap Expr.rowItems) p) (Expr.evalRow s es q) := by
  induction es generalizing p q with
  | nil =>
    obtain rfl : p = q := hpq.resolve_right fun h => h.1 rfl
    exact .pure (.matched rfl rfl)
  | cons e es ih =>
    have hskip : s.skip p = s.skip q := hpq.elim (congrArg s.skip) (·.2)
    have hlast' : ∀ e ∈ es.getLast?, e ≠ .sequence false [] := by
      intro e' he'
      refine hlast e' ?_
      cases es with
      | nil => cases he'
      | cons e₂ es => rwa [List.getLast?_cons_cons]
    have hle := Nat.le_trans hlq (Input.le_skip s.options hq)
    have hb := Input.skip_boundary s.options hq
    rw [List.flatMap_cons]
    by_cases he : ∃ items, e = .sequence false items
    · obtain ⟨items, rfl⟩ := he
      rw [Expr.evalRow, eval_sequence, map_eq_pure_bind, bind_assoc, Expr.rowItems, evalRow_append]
      -- the group begins behind the whitespace before its first item, so it may end elsewhere only without items
      have hagain : s.skip p = s.skip (s.skip q) := hskip.trans (Input.skip_skip s.options hq).symm
      have hrow :=
        (hs.row_at items (p := p) hle hb hagain).both (hs.evalRow items hlp hp) (hs.evalRow items hle hb)
      refine hrow.bind ?_
      rintro ⟨ms, stop, refused⟩ ⟨_, stop', _⟩ ⟨⟨rfl, rfl, hstop⟩, hr, hr'⟩
      rw [pure_bind]
      cases refused with
      | some n =>
        refine .pure (.refused ?_)
        rw [List.nil_append]
        exact (s.options.flatList_kept rfl rfl).symm
      | none =>
        have hlaid := hr.laid (g.blanks_all _) hp
        have hlaid' := hr'.laid (g.blanks_all _) hb
        have hnext : stop = stop' ∨ es ≠ [] ∧ s.skip stop = s.skip stop' := by
          rcases hstop rfl with hsame | ⟨rfl, rfl, rfl⟩
          · exact .inl hsame
          · refine .inr ⟨?_, hagain⟩
            rintro rfl
            exact hlast (.sequence false []) rfl rfl
        have hrest := ih hlast' (Nat.le_trans hlp hlaid.le) (Nat.le_trans hle hlaid'.le) hlaid.boundary
          hlaid'.boundary hnext
        simp only [Scope.sequenceNode]
        rw [map_eq_pure_bind]
        refine hrest.bind fun r r' h => .pure (h.after _ ?_ (joinText_eq hlaid').symm)
        rw [Node.flatList_structural rfl, List.append_nil]
        rfl
    · have halone : e.rowItems = [e] := by
        cases e with
        | sequence a items =>
          cases a with
          | false => exact absurd ⟨items, rfl⟩ he
          | true => rfl
        | _ => rfl
      rw [halone, List.singleton_append, Expr.evalRow, Expr.evalRow, hskip]
      refine (Twins.self (hs.eval e hle hb)).bind ?_
      rintro n _ ⟨rfl, hn⟩
      cases hstop : n.stop with
      | none => exact .pure (.refused rfl)
      | some stop =>
        obtain ⟨hle', hb'⟩ := hn.stop_boundary hb hstop
        have hrest := ih hlast' (Nat.le_trans hle hle') (Nat.le_trans hle hle') hb' hb' (.inl rfl)
        exact hrest.bind fun r r' h => .pure (h.after [n] rfl (List.append_nil _))

end

/-! ## Sessions -/

section
variable {g : Grammar} {calls : List Call} {st : List Frame} {i : Input} {o : Options} {depth p : Nat}
  (hp : i.isBoundary p = true)
include hp

theorem choice_grouped (es : List Expr) :
    (Expr.choice false (es.flatMap Expr.alternatives)).outcome
      (g.scope i o depth) p { g.after calls with active := st } =
      (Expr.choice false es).outcome (g.scope i o depth) p { g.after calls with active := st } := by
  refine outcome_eq (I := fun _ => True) trivial ?_
  rw [eval_choice, eval_choice]
  have hskip : (g.scope i o depth).skip ((g.scope i o depth).skip p) = (g.scope i o depth).skip p :=
    Input.skip_skip o hp
  exact (evalAny_regroups hskip es).map fun t t' h => h.shown p

theorem sequence_grouped {es : List Expr} (hlast : ∀ e ∈ es.getLast?, e ≠ .sequence false []) :
    (Expr.sequence false (es.flatMap Expr.rowItems)).outcome
      (g.scope i o depth) p { g.after calls with active := st } =
      (Expr.sequence false es).outcome (g.scope i o depth) p { g.after calls with active := st } := by
  have hs : (g.scope i o depth).Sound g (Session.Sound g st) (fun _ => True) p :=
    (Session.host_sound g i).scope (fun _ _ _ => trivial) depth
  have hle := Nat.le_refl p
  refine outcome_eq (g.resumed_sound calls st) ?_
  rw [eval_sequence, eval_sequence]
  have hrow := (hs.row_regroups es hlast hle hle hp hp (.inl rfl)).both (hs.evalRow _ hle hp) (hs.evalRow _ hle hp)
  exact hrow.map fun r r' ⟨h, hr, hr'⟩ => h.shown (hr.laid (g.blanks_all o) hp) (hr'.laid (g.blanks_all o) hp)

/-- Joined by `orElse` or by `andThen`, expressions come to what the choice and the sequence of the two come
to, but for an empty sequence at the end. Both ways to join are associative. -/
theorem grouping_unseen (a b : Expr) :
    (a.orElse b).outcome (g.scope i o depth) p { g.after calls with active := st } =
      (Expr.choice false [a, b]).outcome (g.scope i o depth) p { g.after calls with active := st } ∧
    (b ≠ .sequence false [] →
      (a.andThen b).outcome (g.scope i o depth) p { g.after calls with active := st } =
        (Expr.sequence false [a, b]).outcome (g.scope i o depth) p { g.after calls with active := st }) ∧
    ∀ c : Expr, (a.andThen b).andThen c = a.andThen (b.andThen c) ∧
      (a.orElse b).orElse c = a.orElse (b.orElse c) := by
  refine ⟨?_, fun hb => ?_, fun c => ⟨?_, ?_⟩⟩
  · refine Eq.trans ?_ (choice_grouped hp [a, b])
    rw [List.flatMap_cons, List.flatMap_singleton]
    rfl
  · have hlast : ∀ e ∈ [a, b].getLast?, e ≠ .sequence false [] := by
      intro e he
      cases he
      exact hb
    refine Eq.trans ?_ (sequence_grouped hp hlast)
    rw [List.flatMap_cons, List.flatMap_singleton]
    rfl
  · exact congrArg (Expr.sequence false) (List.append_assoc _ _ _)
  · exact congrArg (Expr.choice false) (List.append_assoc _ _ _)

end

theorem grouping_unseen_words :
    let line := Input.ofText ['a', 'b', ' ', 'a', 'b', ' ', '!']
    let pair := Expr.sequence false [.ref "word", .ref "word"]
    let mark := Expr.text ['!']
    (pair.andThen mark).outcome (words.scope line {} 0) 0 (words.after []) =
      (Expr.sequence false [pair, mark]).outcome (words.scope line {} 0) 0 (words.after []) ∧
    (pair.andThen mark ≠ Expr.sequence false [pair, mark]) ∧
    ((pair.andThen mark).eval (words.scope line {} 0) 0 (words.after [])).1.toOption.map Node.face =
      some ⟨.sequence, ['a', 'b', 'a', 'b', '!'], 0, some 7⟩ := by
  intro line pair mark
  have h : (pair.andThen mark).outcome (words.scope line {} 0) 0 { words.after [] with active := [] } =
      (Expr.sequence false [pair, mark]).outcome (words.scope line {} 0) 0 { words.after [] with active := [] } :=
    (grouping_unseen (Input.isBoundary_zero line) pair mark).2.1 (by decide)
  rw [Grammar.resumed_idle] at h
  exact ⟨h, by decide, by decide +kernel⟩

/-- A group of no items at the end moves the end of a sequence past whitespace. -/
example : ((Expr.sequence false [.text ['a'], .sequence false []]).parse ['a', ' '] {}).toOption.map (·.stop) =
      some (some 2) ∧
    (((Expr.text ['a']).andThen (.sequence false [])).parse ['a', ' '] {}).toOption.map (·.stop) =
      some (some 1) := by
  decide +kernel

end PegTree
