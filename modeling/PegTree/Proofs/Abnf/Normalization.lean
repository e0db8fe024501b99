import PegTree.Proofs.Abnf.Layout

/-!
# Normalization of texts

The lines of a text end with a line feed, also after a carriage return, and the last may end with the text.
What normalization leaves are the lines with something visible in them, right-trimmed, all of them without
the same number of blanks in front. So it is the same for a text with more blanks before each of its lines.
-/

namespace PegTree.Abnf

/-! ## Lines with their ends -/

def pieces : Text → List Text
  | [] => []
  | c :: t =>
    if c = '\n' then [c] :: pieces t
    else
      match pieces t with
      | piece :: rest => (c :: piece) :: rest
      | [] => [[c]]

/-- A piece without the line feed that ends it, and without the carriage return before that. -/
def endless (piece : Text) : Text :=
  if piece.getLast? = some '\n' then
    if piece.dropLast.getLast? = some '\r' then piece.dropLast.dropLast else piece.dropLast
  else piece

def textLines (t : Text) : List Text := (pieces t).map endless

def isVisible (line : Text) : Bool := line.any (!isBlank ·)

section
variable {t l w : Text} {ls : List Text} {P : Text → Prop}

/-- A text is a line without an end, or begins with a line that has one. -/
theorem line_induction (last : ∀ l, '\n' ∉ l → P l) (line : ∀ l t, '\n' ∉ l → P t → P (l ++ '\n' :: t))
    (t : Text) : P t := by
  induction hk : t.length using Nat.strong_induction_on generalizing t with
  | _ k ih =>
    by_cases hn : '\n' ∈ t
    · obtain ⟨l, u, rfl, hl⟩ := List.eq_append_cons_of_mem hn
      exact line l u hl (ih u.length (by rw [← hk]; simp; omega) u rfl)
    · exact last t hn

theorem pieces_append (h : '\n' ∉ l) : pieces (l ++ '\n' :: t) = (l ++ ['\n']) :: pieces t := by
  induction l with
  | nil => simp [pieces]
  | cons c l ih =>
    simp only [List.mem_cons, not_or] at h
    simp [pieces, Ne.symm h.1, ih h.2]

theorem pieces_last (h : '\n' ∉ l) (hl : l ≠ []) : pieces l = [l] := by
  induction l with
  | nil => exact absurd rfl hl
  | cons c l ih =>
    simp only [List.mem_cons, not_or] at h
    cases l with
    | nil => simp [pieces, Ne.symm h.1]
    | cons d l => rw [pieces, if_neg (Ne.symm h.1), ih h.2 (List.cons_ne_nil _ _)]

/-! ## What trimming leaves -/

theorem trimRight_concat {c : Char} (hc : isBlank c = true) : trimRight (l ++ [c]) = trimRight l := by
  simp [trimRight, hc]

theorem trimRight_endless (h : '\n' ∉ l) : trimRight (endless (l ++ ['\n'])) = trimRight l := by
  unfold endless
  rw [List.getLast?_concat, if_pos rfl, List.dropLast_concat]
  split
  · rename_i hr
    obtain ⟨v, rfl⟩ := List.getLast?_eq_some_iff.1 hr
    rw [List.dropLast_concat, trimRight_concat (by decide)]
  · rfl

theorem endless_last (h : '\n' ∉ l) : endless l = l := by
  unfold endless
  rw [if_neg fun hl => h (List.mem_of_getLast? hl)]

theorem isVisible_eq (l : Text) : isVisible l = !(trimRight l).isEmpty := by
  rw [Bool.eq_iff_iff]
  simp [isVisible, trimRight, List.dropWhile_eq_nil_iff]

theorem trimRight_blanks (hw : ∀ c ∈ w, isBlank c = true) :
    trimRight (w ++ l) = if (trimRight l).isEmpty then [] else w ++ trimRight l := by
  have hd : w.reverse.dropWhile isBlank = [] := List.dropWhile_eq_nil_iff.2 (by simpa using hw)
  unfold trimRight
  rw [List.reverse_append, List.dropWhile_append, hd]
  cases l.reverse.dropWhile isBlank <;> simp

/-! ## Solid lines -/

theorem solidLines_append (h : '\n' ∉ l) : solidLines (l ++ '\n' :: t) = solidLines l ++ solidLines t := by
  unfold solidLines
  rw [lines_append h, lines_last h, ← List.filter_append, ← List.map_append]
  rfl

theorem solidLines_last (h : '\n' ∉ l) : solidLines l = if (trimRight l).isEmpty then [] else [trimRight l] := by
  unfold solidLines
  rw [lines_last h]
  cases hl : trimRight l <;> simp [hl]

theorem solidLines_eq (t : Text) : solidLines t = ((textLines t).filter isVisible).map trimRight := by
  have hf : (fun l => !(trimRight l).isEmpty) = isVisible := funext fun l => (isVisible_eq l).symm
  have hs : solidLines t = ((textLines t).map trimRight).filter (!·.isEmpty) := by
    induction t using line_induction with
    | last l hl =>
      by_cases hnil : l = []
      · subst hnil
        rfl
      · unfold solidLines textLines
        rw [lines_last hl, pieces_last hl hnil, List.map_singleton, List.map_singleton, List.map_singleton,
          endless_last hl]
    | line l t hl ih =>
      unfold textLines at ih ⊢
      rw [solidLines_append hl, pieces_append hl, List.map_cons, List.map_cons, trimRight_endless hl,
        List.filter_cons, solidLines_last hl, ih]
      cases trimRight l <;> rfl
  rw [hs, List.filter_map]
  exact congrArg (fun f => ((textLines t).filter f).map trimRight) hf

theorem textLines_solid (h : ∀ l ∈ ls, Solid l) : textLines (ls.flatMap (· ++ ['\n'])) = ls := by
  induction ls with
  | nil => rfl
  | cons l ls ih =>
    obtain ⟨hl, hls⟩ := List.forall_mem_cons.1 h
    obtain ⟨v, c, rfl, hc⟩ := hl.last
    have hcr : c ≠ '\r' := by
      rintro rfl
      exact absurd hc (by decide)
    have hp : pieces (((v ++ [c]) :: ls).flatMap (· ++ ['\n'])) =
        (v ++ [c] ++ ['\n']) :: pieces (ls.flatMap (· ++ ['\n'])) := by
      simpa using pieces_append hl.inner
    have he : endless (v ++ [c] ++ ['\n']) = v ++ [c] := by
      unfold endless
      rw [List.getLast?_concat, if_pos rfl, List.dropLast_concat, List.getLast?_concat,
        if_neg (by simpa using hcr)]
    unfold textLines at ih ⊢
    rw [hp, List.map_cons, he, ih hls]

/-! ## Blanks before each line -/

theorem solidLines_indented (hw : ∀ c ∈ w, isBlank c = true) (hn : '\n' ∉ w) (t : Text) :
    solidLines ((pieces t).flatMap (w ++ ·)) = (solidLines t).map (w ++ ·) := by
  have hsole : ∀ l, '\n' ∉ l → solidLines (w ++ l) = (solidLines l).map (w ++ ·) := by
    intro l hl
    have hwl : '\n' ∉ w ++ l := by simp [hn, hl]
    rw [solidLines_last hwl, solidLines_last hl, trimRight_blanks hw]
    cases hr : trimRight l <;> simp
  induction t using line_induction with
  | last l hl =>
    by_cases hnil : l = []
    · subst hnil
      rfl
    · simpa [pieces_last hl hnil] using hsole l hl
  | line l t hl ih =>
    have hp : (pieces (l ++ '\n' :: t)).flatMap (w ++ ·) = (w ++ l) ++ '\n' :: (pieces t).flatMap (w ++ ·) := by
      simp [pieces_append hl]
    rw [hp, solidLines_append (by simp [hn, hl]), solidLines_append hl, ih, hsole l hl, List.map_append]

theorem sharedIndent_indented (hw : ∀ c ∈ w, isBlank c = true) (hls : ls ≠ []) :
    sharedIndent (ls.map (w ++ ·)) = w.length + sharedIndent ls := by
  have hindent : ∀ l, indentOf (w ++ l) = w.length + indentOf l := by
    intro l
    simp [indentOf, List.takeWhile_append_of_pos hw]
  unfold sharedIndent
  cases hm : (ls.map indentOf).min? with
  | none => exact absurd (by simpa using hm) hls
  | some m =>
    obtain ⟨hmem, hleast⟩ := List.min?_eq_some_iff.1 hm
    have hm' : ((ls.map (w ++ ·)).map indentOf).min? = some (w.length + m) := by
      refine List.min?_eq_some_iff.2 ⟨?_, ?_⟩
      · obtain ⟨l, hl, rfl⟩ := List.mem_map.1 hmem
        exact List.mem_map.2 ⟨w ++ l, List.mem_map_of_mem hl, hindent l⟩
      · intro k hk
        obtain ⟨_, hl, rfl⟩ := List.mem_map.1 hk
        obtain ⟨l, hl', rfl⟩ := List.mem_map.1 hl
        rw [hindent]
        exact Nat.add_le_add_left (hleast _ (List.mem_map_of_mem hl')) _
    rw [hm', Option.getD_some, Option.getD_some]

theorem normalize_indented (hw : ∀ c ∈ w, isBlank c = true) (hn : '\n' ∉ w) (t : Text) :
    normalize ((pieces t).flatMap (w ++ ·)) = normalize t := by
  have hdrop : ∀ (l : Text) (k : Nat), (w ++ l).drop (w.length + k) = l.drop k := by
    intro l k
    simp
  rw [normalize_eq, normalize_eq, solidLines_indented hw hn]
  by_cases hls : solidLines t = []
  · rw [hls]
    rfl
  · rw [sharedIndent_indented hw hls, List.map_map]
    simp only [Function.comp_def, hdrop]

/-! ## What normalization leaves -/

theorem textLines_normalize (t : Text) :
    textLines (normalize t) = (solidLines t).map (·.drop (sharedIndent (solidLines t))) := by
  rw [normalize_eq]
  refine textLines_solid fun l hl => ?_
  obtain ⟨l', hl', rfl⟩ := List.mem_map.1 hl
  exact (solidLines_are_solid l' hl').drop (sharedIndent_le hl')

theorem take_indent {k : Nat} (hk : k ≤ indentOf l) : k ≤ l.length ∧ ∀ c ∈ l.take k, isBlank c = true := by
  refine ⟨Nat.le_trans hk (List.takeWhile_sublist isBlank).length_le, fun c hc => ?_⟩
  rw [← List.takeWhile_append_dropWhile (p := isBlank) (l := l), List.take_append_of_le_length hk] at hc
  exact List.mem_takeWhile_imp (List.mem_of_mem_take hc)

/-- Normalizing again changes nothing. The lines of a normalized text have no blanks at their ends, and one of
them has none in front; they are the visible lines of the text, right-trimmed, all of them without as many
blanks in front. More blanks before each line of the text make no difference. -/
theorem normalize_normalizes (t : Text) :
    normalize (normalize t) = normalize t ∧
      (∀ l ∈ textLines (normalize t), isVisible l = true ∧ trimRight l = l) ∧
      (normalize t = [] ∨ ∃ l ∈ textLines (normalize t), ∃ c u, l = c :: u ∧ isBlank c = false) ∧
      (∃ k, textLines (normalize t) = (((textLines t).filter isVisible).map trimRight).map (·.drop k) ∧
        ∀ l ∈ ((textLines t).filter isVisible).map trimRight,
          k ≤ l.length ∧ ∀ c ∈ l.take k, isBlank c = true) ∧
      ∀ w : Text, (∀ c ∈ w, isBlank c = true) → '\n' ∉ w →
        normalize ((pieces t).flatMap (w ++ ·)) = normalize t := by
  have hlines := textLines_normalize t
  have hsolid : ∀ l ∈ textLines (normalize t), Solid l := by
    rw [hlines]
    intro l hl
    obtain ⟨l', hl', rfl⟩ := List.mem_map.1 hl
    exact (solidLines_are_solid l' hl').drop (sharedIndent_le hl')
  have htext : normalize t = (textLines (normalize t)).flatMap (· ++ ['\n']) := by rw [hlines, ← normalize_eq]
  refine ⟨normalize_normal (normal_normalize t), fun l hl => ?_, ?_,
    ⟨sharedIndent (solidLines t), ?_, fun l hl => ?_⟩, fun w hw hn => normalize_indented hw hn t⟩
  · obtain ⟨v, c, rfl, hc⟩ := (hsolid l hl).last
    exact ⟨by simp [isVisible, hc], (hsolid _ hl).trimRight⟩
  · refine (normal_normalize t).flush.imp id fun hflush => ?_
    by_contra hno
    rw [htext] at hflush
    refine hflush (indented_of_lines hsolid fun l hl c hc => ?_)
    obtain ⟨u, rfl⟩ := List.head?_eq_some_iff.1 hc
    by_contra hb
    exact hno ⟨_, hl, c, u, rfl, by simpa using hb⟩
  · rw [hlines, solidLines_eq]
  · rw [← solidLines_eq] at hl
    exact take_indent (sharedIndent_le hl)

theorem normalize_normalizes_block : normalize ['a', '\r', '\n', ' ', 'b'] = ['a', '\n', ' ', 'b', '\n'] ∧
    normalize ((pieces ['a', '\r', '\n', ' ', 'b']).flatMap (['\t', ' '] ++ ·)) = ['a', '\n', ' ', 'b', '\n'] := by
  have hplain : normalize ['a', '\r', '\n', ' ', 'b'] = ['a', '\n', ' ', 'b', '\n'] := by decide +kernel
  obtain ⟨_, _, _, _, hindented⟩ := normalize_normalizes ['a', '\r', '\n', ' ', 'b']
  exact ⟨hplain, (hindented ['\t', ' '] (List.all_eq_true.1 (by decide)) (by decide)).trans hplain⟩

end

end PegTree.Abnf
