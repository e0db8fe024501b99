import PegTree.Proofs.Cleaning
import PegTree.Proofs.Cursors
import PegTree.Proofs.Termination

/-!
# Safety of evaluations

An evaluation that begins at the beginning of a character never leaves the beginnings of characters from
there on. So no match begins inside a character, and all offsets that a result shows are good.
-/

namespace PegTree

open Eval

/-- `q` is the beginning of a character from `p` on, or the end of the input. -/
structure Input.After (i : Input) (p q : Nat) : Prop where
  le : p ≤ q
  boundary : i.isBoundary q = true
  le_size : q ≤ i.size

namespace Input.After

variable {i : Input} {p q r : Nat}

theorem of_le (hle : p ≤ q) (hq : i.isBoundary q = true) : i.After p q := ⟨hle, hq, Input.le_size_of_isBoundary hq⟩

theorem self (hp : i.isBoundary p = true) : i.After p p := of_le (Nat.le_refl p) hp

theorem trans (h : i.After p q) (h' : i.After q r) : i.After p r :=
  ⟨Nat.le_trans h.le h'.le, h'.boundary, h'.le_size⟩

theorem skip (h : i.After p q) (o : Options) : i.After p (i.skip o q) :=
  h.trans (of_le (Input.le_skip o h.boundary) (Input.skip_boundary o h.boundary))

theorem span {t : Text} (h : i.After p q) (ht : i.Span q r t) : i.After p r := h.trans (of_le ht.le ht.boundary.2)

end Input.After

variable {σ α : Type} {g : Grammar}

/-! ## Cursors stay good -/

theorem Eval.onward_forall {x : Eval σ α} {next : α → σ → List Nat} {P : σ → Prop} {Q : α → σ → Prop}
    {E : Fault → σ → Prop} {C : Nat → Prop} {t : σ} (hx : Triple P x Q E) (ht : P t)
    (hnext : ∀ a t', Q a t' → ∀ q ∈ next a t', C q) : ∀ q ∈ x.onward next t, C q := by
  unfold onward
  have h := hx t ht
  rcases hr : x t with ⟨f | a, t'⟩
  · exact List.forall_mem_nil _
  · rw [hr] at h
    exact hnext a t' h

theorem Cursor.accepted_after {c : Cursor} {p : Nat} {leading? : Text → Option Text}
    (hc : c.input.After p c.offset)
    (hl : ∀ t s, leading? t = some s → ∃ rest, t = s ++ rest) : ∀ q ∈ c.accepted leading?, c.input.After p q := by
  unfold accepted
  rcases Cursor.accept?_cases hc.boundary hl with ⟨_, ha⟩ | ⟨t, stop, ha, hspan⟩
  · rw [ha]
    exact List.forall_mem_nil _
  · rw [ha]
    exact List.forall_mem_singleton.2 (hc.span hspan)

namespace Scope

variable {s : Scope σ} {low p : Nat} (hp : s.input.After low p)
include hp

theorem ofOffset_eq : Cursor.ofOffset s.input p = ⟨s.input, p⟩ := by
  rw [Cursor.ofOffset, Nat.min_eq_left hp.le_size]

theorem literalCursors_after (ms : List Matcher) (c : Option Bool) :
    ∀ q ∈ s.literalCursors ms c p, s.input.After low q := by
  have hstart : s.input.After low ((Cursor.ofOffset s.input p).skip s.options).offset := hp.skip s.options
  refine List.forall_mem_cons.2 ⟨hstart, Cursor.accepted_after hstart fun t u hu => ?_⟩
  obtain ⟨m, _, hm⟩ := List.exists_of_findSome?_eq_some hu
  exact m.leading?_append hm

theorem endOfLineCursors_after : ∀ q ∈ s.endOfLineCursors p, s.input.After low q := by
  unfold endOfLineCursors
  have hstart : s.input.After low (Cursor.ofOffset s.input p).offset := by rwa [ofOffset_eq hp]
  exact List.forall_mem_cons.2 ⟨hp.skip s.options, List.forall_mem_cons.2
    ⟨hstart, Cursor.accepted_after hstart leadingNewline?_append⟩⟩

end Scope

section
variable {s : Scope σ} {I : σ → Prop} {err : Fault → Prop} {low : Nat}

theorem loopCursors_after {item : Nat → Eval σ Node} {within : Nat → σ → List Nat} {e : Expr}
    (hitem : ∀ p, s.input.After low p →
      Triple I (item p) (fun n t => I t ∧ Derives g s.input s.options e p n) (fun f t => I t ∧ err f))
    (hwithin : ∀ p t, s.input.After low p → I t → ∀ q ∈ within p t, s.input.After low q) :
    ∀ (fuel place : Nat) (t : σ), s.input.After low place → I t →
      ∀ q ∈ s.loopCursors item within fuel place t, s.input.After low q
  | 0, _, _, hp, _ => List.forall_mem_singleton.2 hp
  | fuel + 1, place, t, hp, ht => by
    have hskip := hp.skip s.options
    unfold Scope.loopCursors
    refine List.forall_mem_cons.2 ⟨hp, List.forall_mem_cons.2 ⟨hskip, List.forall_mem_append.2
      ⟨hwithin _ t hskip ht, onward_forall (hitem _ hskip) ht fun n t' hn => ?_⟩⟩⟩
    cases hs : n.stop with
    | none => exact List.forall_mem_nil _
    | some stop =>
      obtain ⟨hle, hb⟩ := hn.2.stop_boundary hskip.boundary hs
      dsimp only
      split
      · exact List.forall_mem_nil _
      · exact loopCursors_after hitem hwithin fuel stop t' (hskip.trans (.of_le hle hb)) hn.1

/-- References keep what they must, and their cursors are good from `low` on. -/
structure Scope.Contained (s : Scope σ) (g : Grammar) (I : σ → Prop) (err : Fault → Prop) (low : Nat)
    (below : Bool → String → Nat → σ → List Nat) : Prop extends s.Sound g I err low where
  below : ∀ a name p t, s.input.After low p → I t → ∀ q ∈ below a name p t, s.input.After low q

variable {below : Bool → String → Nat → σ → List Nat}

mutual
theorem Scope.Contained.cursors (hs : s.Contained g I err low below) (e : Expr) {p : Nat} {t : σ}
    (hp : s.input.After low p) (ht : I t) :
    ∀ q ∈ e.cursors s below p t, s.input.After low q := by
  cases e with
  | literal a ms c =>
    unfold Expr.cursors
    exact List.forall_mem_cons.2 ⟨hp, Scope.literalCursors_after hp ms c⟩
  | sequence a items =>
    unfold Expr.cursors
    exact List.forall_mem_cons.2 ⟨hp, hs.rowCursors items hp ht⟩
  | choice a items =>
    unfold Expr.cursors
    have hskip := hp.skip s.options
    exact List.forall_mem_cons.2 ⟨hp, List.forall_mem_cons.2 ⟨hskip, hs.anyCursors items hskip ht⟩⟩
  | repetition a low' high item =>
    unfold Expr.cursors
    exact List.forall_mem_cons.2 ⟨hp, loopCursors_after (fun q hq => hs.eval item hq.le hq.boundary)
      (fun q t hq ht => hs.cursors item hq ht) _ p t hp ht⟩
  | optional a item =>
    unfold Expr.cursors
    exact List.forall_mem_cons.2 ⟨hp, hs.cursors item hp ht⟩
  | endOfLine a =>
    unfold Expr.cursors
    exact List.forall_mem_cons.2 ⟨hp, Scope.endOfLineCursors_after hp⟩
  | endOfInput a =>
    unfold Expr.cursors
    exact List.forall_mem_cons.2 ⟨hp, List.forall_mem_singleton.2 (hp.skip s.options)⟩
  | rule a name =>
    unfold Expr.cursors
    exact List.forall_mem_cons.2 ⟨hp, hs.below a name p t hp ht⟩
  | placeholder a name =>
    unfold Expr.cursors
    exact List.forall_mem_singleton.2 hp
theorem Scope.Contained.rowCursors (hs : s.Contained g I err low below) (es : List Expr) {p : Nat} {t : σ}
    (hp : s.input.After low p) (ht : I t) :
    ∀ q ∈ Expr.rowCursors s below es p t, s.input.After low q := by
  cases es with
  | nil =>
    unfold Expr.rowCursors
    exact List.forall_mem_singleton.2 hp
  | cons e es =>
    have hskip := hp.skip s.options
    unfold Expr.rowCursors
    refine List.forall_mem_cons.2 ⟨hp, List.forall_mem_cons.2 ⟨hskip, List.forall_mem_append.2
      ⟨hs.cursors e hskip ht, onward_forall (hs.eval e hskip.le hskip.boundary) ht fun n t' hn => ?_⟩⟩⟩
    cases hstop : n.stop with
    | none => exact List.forall_mem_nil _
    | some stop =>
      obtain ⟨hle, hb⟩ := hn.2.stop_boundary hskip.boundary hstop
      exact hs.rowCursors es (hskip.trans (.of_le hle hb)) hn.1
theorem Scope.Contained.anyCursors (hs : s.Contained g I err low below) (es : List Expr) {p : Nat} {t : σ}
    (hp : s.input.After low p) (ht : I t) :
    ∀ q ∈ Expr.anyCursors s below es p t, s.input.After low q := by
  cases es with
  | nil =>
    unfold Expr.anyCursors
    exact List.forall_mem_nil _
  | cons e es =>
    unfold Expr.anyCursors
    refine List.forall_mem_append.2 ⟨hs.cursors e hp ht,
      onward_forall (hs.eval e hp.le hp.boundary) ht fun n t' hn => ?_⟩
    cases n.isFailed with
    | true => exact hs.anyCursors es hp hn.1
    | false => exact List.forall_mem_nil _
end

end

section
variable {h : Host σ} {i : Input} {I : List Frame → σ → Prop} {err : Fault → Prop}
  {Fit : Nat → Options → List Frame → Nat → Prop} (hh : h.Sound g i I err Fit)
include hh

theorem Host.Sound.callCursors_after : ∀ (fuel : Nat) (o : Options) (st : List Frame) (depth : Nat) (a : Bool)
    (name : String) (p : Nat) (t : σ), Fit fuel o st p → i.isBoundary p = true → I st t →
    ∀ q ∈ callCursors h i fuel o depth a name p t, i.After p q
  | 0, _, _, _, _, _, _, _, _, hp, _ => List.forall_mem_singleton.2 (.self hp)
  | fuel + 1, o, st, depth, a, name, p, t, hfit, hp, ht => by
    unfold callCursors
    refine List.forall_mem_cons.2 ⟨.self hp, onward_forall (hh.rule st name) ht fun rule t hrule => ?_⟩
    obtain ⟨ht, hd⟩ := hrule
    refine onward_forall (checkDepth_triple o (hh.limit _)) ht fun _ t ht => ?_
    refine onward_forall (hh.enter fuel o st p name rule hfit hp hd) ht fun _ t henter => ?_
    obtain ⟨ht, hbody⟩ := henter
    have hscope := hh.scope (fun q hq hb => hbody q hq hb) (depth + 1)
    refine Scope.Contained.cursors ⟨hscope, fun a name q t hq ht r hr => ?_⟩ rule.body (.self hp) ht
    have hcall :=
      Host.Sound.callCursors_after fuel _ _ (depth + 1) a name q t (hbody q hq.le hq.boundary) hq.boundary ht
    exact hq.trans (hcall r hr)

end

theorem Grammar.cursors_after (g : Grammar) (i : Input) (o : Options) (depth : Nat) (e : Expr)
    {p : Nat} {s : Session}
    {st : List Frame} (hp : i.isBoundary p = true) (hs : s.Sound g st) :
    ∀ q ∈ g.cursors i o depth e p s, i.After p q := by
  have hh := Session.host_sound g i
  have hscope : (g.scope i o depth).Sound g (Session.Sound g st) (fun _ => True) p :=
    hh.scope (fun _ _ _ => trivial) depth
  refine Scope.Contained.cursors ⟨hscope, fun a name q t hq ht r hr => ?_⟩ e (.self hp) hs
  exact hq.trans (hh.callCursors_after _ o st depth a name q t trivial hq.boundary ht r hr)

/-! ## Simplified trees -/

namespace Node

theorem places_subset {tag tag' : Tag} {text text' : Text} {offset : Nat} {stop : Option Nat} {cs ns : List Node}
    (h : ∀ c ∈ cs, c.places ⊆ placesList ns) :
    places ⟨tag, text, offset, stop, cs⟩ ⊆ places ⟨tag', text', offset, stop, ns⟩ :=
  List.cons_subset_cons _ (List.append_subset.2 ⟨List.subset_append_left _ _,
    List.subset_append_of_subset_right _ (placesList_subset h)⟩)

mutual
theorem flat_places (n : Node) : ∀ c ∈ n.flat, c.simplify.places ⊆ n.places := by
  obtain ⟨tag, text, offset, stop, children⟩ := n
  have hchildren := flatList_places children
  rw [flat]
  split
  · exact fun c hc => List.subset_cons_of_subset _ (List.subset_append_of_subset_right _ (hchildren c hc))
  · refine List.forall_mem_singleton.2 ?_
    rw [simplify_eq_flat]
    exact places_subset (List.forall_mem_map.2 hchildren)
theorem flatList_places (ns : List Node) : ∀ c ∈ flatList ns, c.simplify.places ⊆ placesList ns := by
  match ns with
  | [] => exact List.forall_mem_nil _
  | n :: ns =>
    rw [flatList, placesList]
    exact List.forall_mem_append.2 ⟨fun c hc => List.subset_append_of_subset_left _ (flat_places n c hc),
      fun c hc => List.subset_append_of_subset_right _ (flatList_places ns c hc)⟩
end

theorem simplify_places (n : Node) : n.simplify.places ⊆ n.places := by
  obtain ⟨tag, text, offset, stop, children⟩ := n
  rw [simplify_eq_flat]
  exact places_subset (List.forall_mem_map.2 (flatList_places children))

end Node

/-! ## Results -/

/-- A result without a panic that shows only the beginnings of characters from `p` on; an error that a
body failed with when it was built can show anything. -/
structure Grammar.Safe (g : Grammar) (i : Input) (p : Nat) (r : Except Fault Node) : Prop where
  foreseen : ∀ f, r = .error f → ∃ e, f = .error e
  node : ∀ n, r = .ok n → ∀ q ∈ n.places, i.After p q
  error : ∀ e, r = .error (.error e) → g.Unbuilt (.error e) ∨ ∀ q ∈ e.places, i.After p q

theorem Grammar.Safe.of_shows {i : Input} {p : Nat} {r : Except Fault Node} {qs : List Nat}
    (hf : ∀ f, r = .error f → ∃ e, f = .error e) (h : Shows g Node.Within r qs) (hqs : ∀ q ∈ qs, i.After p q) :
    g.Safe i p r where
  foreseen := hf
  node n hn := by
    subst hn
    exact fun q hq => hqs q (h hq)
  error e he := by
    subst he
    exact h.imp_right fun hsub q hq => hqs q (hsub hq)

theorem Session.Sound.eval_safe {s : Session} (hs : s.Sound g []) (e : Expr) (i : Input)
    (o : Options) (depth : Nat)
    {p : Nat} (hp : i.isBoundary p = true) : g.Safe i p (e.eval (g.scope i o depth) p s).1 := by
  refine .of_shows (fun f hf => ?_) (g.eval_shows i o depth e p s) (g.cursors_after i o depth e hp hs)
  have hscope :
      (g.scope i o depth).Sound g (fun s => s.Sound g [] ∧ Orderly g i o []) (fun f => ∃ e, f = .error e) p :=
    (Session.host_orderly g i o).scope (fun q _ _ => Headroom.start (g.bound_lt i) q) depth
  exact ((hscope.eval e (Nat.le_refl p) hp).error ⟨hs, .nil⟩ hf).2

section
variable {s : Session} (hs : s.Sound g [])
include hs

theorem Session.Sound.evaluate_safe (name : String) (t : Text) : g.Safe (.ofText t) 0 (g.evaluate name t s).1 :=
  hs.eval_safe (.ref name) (.ofText t) g.options 0 (Input.isBoundary_zero _)

theorem Session.Sound.parseRule_safe (name : String) (t : Text) :
    g.Safe (.ofText t) 0 (g.parseRule name t s).1 := by
  have h := hs.evaluate_safe name t
  rw [Grammar.parseRule_fst]
  cases hr : (g.evaluate name t s).1 with
  | error f =>
    rw [hr] at h
    exact ⟨h.foreseen, fun n hn => (by cases hn), h.error⟩
  | ok tree =>
    have htree := h.node tree hr
    show g.Safe _ _ (if tree.isFailed = true then _ else _)
    split
    · refine ⟨fun f hf => ?_, fun n hn => (by cases hn), fun e he => .inr ?_⟩
      · cases hf
        exact ⟨_, rfl⟩
      · cases he
        exact List.forall_mem_nil _
    · refine ⟨fun f hf => (by cases hf), fun n hn q hq => ?_, fun e he => (by cases he)⟩
      cases hn
      split at hq
      · exact htree q (tree.simplify_places hq)
      · exact htree q hq

theorem Session.Sound.parse_safe (t : Text) : g.Safe (.ofText t) 0 (g.parse t s).1 := by
  unfold Grammar.parse
  cases g.start with
  | some name => exact hs.parseRule_safe name t
  | none =>
    refine ⟨fun f hf => ?_, fun n hn => (by cases hn), fun e he => .inr ?_⟩
    · cases hf
      exact ⟨_, rfl⟩
    · cases he
      exact List.forall_mem_nil _

end

/-- Evaluations never panic, and from the beginning of a character on they go through beginnings of
characters only; so do all offsets that their nodes and errors show. -/
theorem evaluation_safe (g : Grammar) (calls : List Call) :
    (∀ (e : Expr) (i : Input) (o : Options) (depth p : Nat), i.isBoundary p = true →
      g.Safe i p (e.eval (g.scope i o depth) p (g.after calls)).1 ∧
        ∀ q ∈ g.cursors i o depth e p (g.after calls), i.After p q) ∧
    (∀ (name : String) (t : Text), g.Safe (.ofText t) 0 (g.evaluate name t (g.after calls)).1 ∧
      g.Safe (.ofText t) 0 (g.parseRule name t (g.after calls)).1) ∧
    (∀ t : Text, g.Safe (.ofText t) 0 (g.parse t (g.after calls)).1) ∧
    ∀ (e : Expr) (t : Text) (o : Options), Grammar.Safe {} (.ofText t) 0 (e.parse t o) := by
  have hs := g.after_sound calls
  refine ⟨fun e i o depth p hp => ⟨hs.eval_safe e i o depth hp, g.cursors_after i o depth e hp hs⟩,
    fun name t => ⟨hs.evaluate_safe name t, hs.parseRule_safe name t⟩, hs.parse_safe, fun e t o => ?_⟩
  exact (Grammar.after_sound {} []).eval_safe e (.ofText t) o 0 (Input.isBoundary_zero _)

def accents : Input := .ofText ['é', ' ', 'é']

theorem evaluation_safe_accents : accents.isBoundary 1 = false ∧ accents.isBoundary 2 = true ∧
    ∃ n, ((Expr.text ['é']).many.eval (Grammar.scope {} accents {} 0) 2 (Grammar.after {} [])).1 = .ok n ∧
      n.places = [2, 5, 3, 5] ∧ (∀ q ∈ n.places, accents.After 2 q) ∧
      ∀ q ∈ [2, 2, 3, 3, 3, 5, 5, 5, 5, 5], accents.After 2 q := by
  have hp : accents.isBoundary 2 = true := by decide +kernel
  have hrun : ((Expr.text ['é']).many.eval (Grammar.scope {} accents {} 0) 2 (Grammar.after {} [])).1.toOption.map
      Node.places = some [2, 5, 3, 5] := by decide +kernel
  have hcursors : Grammar.cursors {} accents {} 0 (Expr.text ['é']).many 2 (Grammar.after {} []) =
      [2, 2, 3, 3, 3, 5, 5, 5, 5, 5] := by decide +kernel
  obtain ⟨hsafe, hafter⟩ := (evaluation_safe {} []).1 (Expr.text ['é']).many accents {} 0 2 hp
  obtain ⟨n, hn, hplaces⟩ := exists_ok_of_toOption hrun
  exact ⟨by decide +kernel, hp, n, hn, hplaces, hsafe.node n hn, hcursors ▸ hafter⟩

end PegTree
