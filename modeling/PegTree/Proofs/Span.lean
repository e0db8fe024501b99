import Mathlib.Data.List.TakeWhile
import PegTree.Cursor

/-!
# Spans of an input

A span is the text between two byte offsets. Spans that meet append, and the span between two
offsets is the slice there.
-/

namespace PegTree

/-! ## Bytes of texts -/

theorem append_inj_of_byteSize {s s' r r' : Text} (h : s ++ r = s' ++ r') (hs : byteSize s = byteSize s') :
    s = s' ∧ r = r' := by
  have e : s = s' := by
    rw [← takeBytes_byteSize_append s r, ← takeBytes_byteSize_append s' r', h, hs]
  subst e
  exact ⟨rfl, List.append_cancel_left h⟩

theorem append_of_byteSize_lt {s s' r r' : Text} (h : s ++ r = s' ++ r') (hs : byteSize s < byteSize s') :
    ∃ c w, s' = s ++ c :: w ∧ r = c :: w ++ r' := by
  rcases List.append_eq_append_iff.1 h with ⟨w, rfl, rfl⟩ | ⟨w, rfl, _⟩
  · cases w with
    | nil => simp at hs
    | cons c w => exact ⟨c, w, rfl, rfl⟩
  · rw [byteSize_append] at hs
    omega

namespace Input

/-- `t` is the text between the offsets `a` and `b`. -/
def Span (i : Input) (a b : Nat) (t : Text) : Prop :=
  ∃ u v, i.text = u ++ t ++ v ∧ a = byteSize u ∧ b = byteSize u + byteSize t

variable {i : Input} {a b c : Nat} {s t r : Text}

theorem Span.of_boundary (h : i.isBoundary a = true) : i.Span a a [] := by
  obtain ⟨u, v, ht, rfl⟩ := isBoundary_iff.1 h
  exact ⟨u, v, by simpa using ht, rfl, by simp⟩

theorem Span.boundary (h : i.Span a b t) : i.isBoundary a = true ∧ i.isBoundary b = true := by
  obtain ⟨u, v, ht, rfl, rfl⟩ := h
  exact ⟨isBoundary_iff.2 ⟨u, t ++ v, by simp [ht], rfl⟩, isBoundary_iff.2 ⟨u ++ t, v, ht, by simp⟩⟩

theorem Span.byteSize_eq (h : i.Span a b t) : b = a + byteSize t := by
  obtain ⟨u, v, _, rfl, rfl⟩ := h
  rfl

theorem Span.le (h : i.Span a b t) : a ≤ b := by
  have := h.byteSize_eq
  omega

theorem le_size_of_isBoundary (h : i.isBoundary a = true) : a ≤ i.size := by
  obtain ⟨u, v, ht, rfl⟩ := isBoundary_iff.1 h
  rw [i.size_eq, ht, byteSize_append]
  omega

theorem isBoundary_zero (i : Input) : i.isBoundary 0 = true :=
  isBoundary_iff.2 ⟨[], i.text, by simp, by simp⟩

theorem Span.append (h : i.Span a b s) (h' : i.Span b c t) : i.Span a c (s ++ t) := by
  obtain ⟨u, v, e, rfl, rfl⟩ := h
  obtain ⟨u', v', e', hb, rfl⟩ := h'
  rw [List.append_assoc] at e'
  obtain ⟨rfl, rfl⟩ := append_inj_of_byteSize (e.symm.trans e') (by rw [byteSize_append]; exact hb)
  refine ⟨u, v', by simp [e'], rfl, ?_⟩
  simp only [byteSize_append]
  omega

theorem Span.of_suffix? (h : i.suffix? a = some (t ++ r)) : i.Span a (a + byteSize t) t := by
  obtain ⟨u, e, rfl⟩ := suffix?_eq_some_iff.1 h
  exact ⟨u, r, by simp [e], rfl, rfl⟩

theorem suffix?_of_isBoundary (h : i.isBoundary a = true) : i.suffix? a = some (i.rest a) := by
  unfold isBoundary at h
  obtain ⟨r, hr⟩ := Option.isSome_iff_exists.1 h
  rw [rest, hr]
  rfl

theorem Span.of_rest (h : i.isBoundary a = true) (hr : i.rest a = t ++ r) : i.Span a (a + byteSize t) t :=
  .of_suffix? (by rw [suffix?_of_isBoundary h, hr])

theorem Span.rest (h : i.Span a b t) : ∃ r, i.rest a = t ++ r := by
  obtain ⟨u, v, e, rfl, rfl⟩ := h
  rw [List.append_assoc] at e
  exact ⟨v, rest_byteSize e⟩

theorem Span.slice? (h : i.Span a b t) : i.slice? a b = some t := by
  obtain ⟨u, v, e, rfl, rfl⟩ := h
  exact slice?_byteSize e

theorem Span.unique (h : i.Span a b s) (h' : i.Span a b t) : s = t :=
  Option.some.inj (h.slice?.symm.trans h'.slice?)

/-! ## Skipping and accepting -/

theorem skippable_append (o : Options) (t : Text) : ∃ r, t = o.skippable t ++ r := by
  unfold Options.skippable
  split
  · exact ⟨t.dropWhile o.isWhitespace, List.takeWhile_append_dropWhile.symm⟩
  · exact ⟨t, rfl⟩

theorem mem_skippable {o : Options} {x : Char} (h : x ∈ o.skippable t) :
    o.stripWhitespace = true ∧ x ∈ o.whitespaceChars := by
  unfold Options.skippable at h
  split at h
  · rename_i ho
    exact ⟨ho, by simpa [Options.isWhitespace] using List.mem_takeWhile_imp h⟩
  · cases h

theorem span_skip (o : Options) (h : i.isBoundary a = true) : i.Span a (i.skip o a) (o.skippable (i.rest a)) := by
  have ha : min a i.size = a := Nat.min_eq_left (le_size_of_isBoundary h)
  obtain ⟨r, hr⟩ := skippable_append o (i.rest a)
  have := Span.of_rest h hr
  simpa [Input.skip, Cursor.skip, Cursor.ofOffset, Cursor.rest, ha] using this

theorem skip_boundary (o : Options) (h : i.isBoundary a = true) : i.isBoundary (i.skip o a) = true :=
  (span_skip o h).boundary.2

theorem le_skip (o : Options) (h : i.isBoundary a = true) : a ≤ i.skip o a := (span_skip o h).le

end Input

namespace Cursor

variable {c : Cursor} {f : Text → Option Text}

/-- At a boundary a cursor accepts what is found ahead, and never faults. -/
theorem accept?_cases (hc : c.input.isBoundary c.offset = true)
    (hf : ∀ t s, f t = some s → ∃ rest, t = s ++ rest) :
    (f c.rest = none ∧ c.accept? f = .ok none) ∨
      ∃ t stop, c.accept? f = .ok (some (t, stop)) ∧ c.input.Span c.offset stop.offset t := by
  cases h : f c.rest with
  | none => exact .inl ⟨rfl, by unfold accept?; rw [h]⟩
  | some t =>
    obtain ⟨r, hr⟩ := hf _ _ h
    refine .inr ⟨t, { c with offset := c.offset + byteSize t }, ?_, Input.Span.of_rest hc hr⟩
    unfold accept? advance
    simp only [h, if_pos hc]
    rfl

end Cursor

end PegTree
