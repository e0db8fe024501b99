import PegTree.Eval.Basic
import PegTree.Proofs.Span

/-!
# Texts with characters left out

The text of a node is the text of its span without some of the whitespace in it. Nodes in a row
that are such, each from where the one before stopped, make up one node that is such; and if it
is as long as its span then nothing was left out.
-/

namespace PegTree

/-- The first text is the second without some of its characters in `W`. -/
inductive Thinned (W : Char → Prop) : Text → Text → Prop
  | nil : Thinned W [] []
  | keep {s t : Text} (c : Char) : Thinned W s t → Thinned W (c :: s) (c :: t)
  | leave {s t : Text} {c : Char} : W c → Thinned W s t → Thinned W s (c :: t)

namespace Thinned

variable {W : Char → Prop} {s t s' t' w : Text}

theorem refl : ∀ t, Thinned W t t
  | [] => .nil
  | c :: t => .keep c (refl t)

theorem append (h : Thinned W s t) (h' : Thinned W s' t') : Thinned W (s ++ s') (t ++ t') := by
  induction h with
  | nil => exact h'
  | keep c _ ih => exact .keep c ih
  | leave hc _ ih => exact .leave hc ih

theorem of_blank (hw : ∀ c ∈ w, W c) : Thinned W [] w := by
  induction w with
  | nil => exact .nil
  | cons c w ih => exact .leave (hw c (by simp)) (ih fun x hx => hw x (by simp [hx]))

theorem blank_append (hw : ∀ c ∈ w, W c) (h : Thinned W s t) : Thinned W s (w ++ t) :=
  (of_blank hw).append h

theorem byteSize_le (h : Thinned W s t) : byteSize s ≤ byteSize t := by
  induction h with
  | nil => exact Nat.le_refl _
  | keep c _ ih => rw [byteSize_cons, byteSize_cons]; omega
  | leave _ _ ih => rw [byteSize_cons]; omega

theorem eq_of_byteSize (h : Thinned W s t) (hs : byteSize t = byteSize s) : s = t := by
  induction h with
  | nil => rfl
  | keep c _ ih =>
    rw [byteSize_cons, byteSize_cons] at hs
    rw [ih (by omega)]
  | @leave s t c _ h _ =>
    have hc := c.utf8Size_pos
    have hle := h.byteSize_le
    rw [byteSize_cons] at hs
    omega

theorem eq_of_forall_not (h : Thinned W s t) (hW : ∀ c, ¬ W c) : s = t := by
  induction h with
  | nil => rfl
  | keep c _ ih => rw [ih]
  | leave hc _ _ => exact absurd hc (hW _)

end Thinned

/-! ## Nodes over their spans -/

/-- Up to whitespace, the node begins at `p` and its text is that of its span. -/
structure Node.Fits (i : Input) (W : Char → Prop) (p : Nat) (n : Node) : Prop where
  lead : ∃ w, i.Span p n.offset w ∧ ∀ c ∈ w, W c
  body : ∀ stop, n.stop = some stop → ∃ t, i.Span n.offset stop t ∧ Thinned W n.text t

/-- Nodes in a row from `p`, each from where the one before stopped. -/
inductive Laid (i : Input) (W : Char → Prop) : Nat → List Node → Nat → Prop
  | nil {p : Nat} : i.isBoundary p = true → Laid i W p [] p
  | cons {p q stop : Nat} {n : Node} {ns : List Node} :
    n.Fits i W p → n.stop = some q → Laid i W q ns stop → Laid i W p (n :: ns) stop

variable {i : Input} {W : Char → Prop} {p q stop : Nat} {n : Node} {ns : List Node}

namespace Node.Fits

theorem matched {tag : Tag} {x t : Text} {cs : List Node} (ht : i.Span p stop t) (hT : Thinned W x t) :
    (Node.matched tag x p stop cs).Fits i W p :=
  ⟨⟨[], .of_boundary ht.boundary.1, by simp⟩, fun _ hs => by cases hs; exact ⟨t, ht, hT⟩⟩

theorem failed {tag : Tag} {cs : List Node} (hp : i.isBoundary p = true) :
    (Node.failed tag p cs).Fits i W p :=
  ⟨⟨[], .of_boundary hp, by simp⟩, fun _ hs => by cases hs⟩

theorem widen {w : Text} (hw : i.Span p q w) (hW : ∀ c ∈ w, W c) (h : n.Fits i W q) : n.Fits i W p := by
  obtain ⟨⟨w', hs, hW'⟩, hb⟩ := h
  refine ⟨⟨w ++ w', hw.append hs, fun c hc => ?_⟩, hb⟩
  rcases List.mem_append.1 hc with hc | hc
  · exact hW c hc
  · exact hW' c hc

theorem whole (h : n.Fits i W p) (hn : n.stop = some stop) : ∃ t, i.Span p stop t ∧ Thinned W n.text t := by
  obtain ⟨w, hw, hW⟩ := h.lead
  obtain ⟨t, ht, hT⟩ := h.body stop hn
  exact ⟨w ++ t, hw.append ht, .blank_append hW hT⟩

theorem le_offset (h : n.Fits i W p) : p ≤ n.offset := by
  obtain ⟨w, hw, _⟩ := h.lead
  exact hw.le

theorem offset_le (h : n.Fits i W p) (hn : n.stop = some stop) : n.offset ≤ stop := by
  obtain ⟨t, ht, _⟩ := h.body stop hn
  exact ht.le

theorem stop_boundary (h : n.Fits i W p) (hn : n.stop = some stop) : i.isBoundary stop = true := by
  obtain ⟨t, ht, _⟩ := h.body stop hn
  exact ht.boundary.2

end Node.Fits

namespace Laid

theorem boundary (h : Laid i W p ns stop) : i.isBoundary stop = true := by
  induction h with
  | nil hp => exact hp
  | cons _ _ _ ih => exact ih

theorem le (h : Laid i W p ns stop) : p ≤ stop := by
  induction h with
  | nil _ => exact Nat.le_refl _
  | cons hn hs _ ih =>
    have := hn.le_offset
    have := hn.offset_le hs
    omega

theorem span (h : Laid i W p ns stop) : ∃ t, i.Span p stop t ∧ Thinned W (ns.flatMap (·.text)) t := by
  induction h with
  | nil hp => exact ⟨[], .of_boundary hp, .nil⟩
  | cons hn hs _ ih =>
    obtain ⟨t, ht, hT⟩ := hn.whole hs
    obtain ⟨t', ht', hT'⟩ := ih
    exact ⟨t ++ t', ht.append ht', hT.append hT'⟩

end Laid

theorem byteSize_flatMap (ns : List Node) :
    byteSize (ns.flatMap (·.text)) = ns.foldr (fun n size => byteSize n.text + size) 0 := by
  induction ns with
  | nil => rfl
  | cons n ns ih => rw [List.flatMap_cons, byteSize_append, ih, List.foldr_cons]

/-- Whether a text is taken from a sole child, from the span or from the children, it is the
joined texts of the children. -/
theorem joinText_eq (h : Laid i W p ns stop) : joinText i p stop ns = ns.flatMap (·.text) := by
  obtain ⟨t, ht, hT⟩ := h.span
  unfold joinText
  split
  · simp
  · rw [ht.slice?]
    dsimp only
    split
    · rename_i hb
      exact (hT.eq_of_byteSize (by rw [byteSize_flatMap]; exact hb)).symm
    · rfl

theorem Laid.joined (h : Laid i W p ns stop) : ∃ t, i.Span p stop t ∧ Thinned W (joinText i p stop ns) t := by
  rw [joinText_eq h]
  exact h.span

end PegTree
