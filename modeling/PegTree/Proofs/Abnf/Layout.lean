import Mathlib.Data.List.Chain
import Mathlib.Data.List.TakeWhile
import PegTree.Abnf.Layout

/-!
# Lines and blanks

Lines that begin and end with something visible are what normalization leaves as they are. Trimming
takes the blanks around a text and nothing else.
-/

namespace PegTree.Abnf

section
variable {t u v l : Text} {ls : List Text}

/-! ## Trimming -/

theorem trimRight_append (hv : ∀ c ∈ v, isBlank c = true) (hu : ∀ c ∈ u.getLast?, isBlank c = false) :
    trimRight (u ++ v) = u := by
  unfold trimRight
  rw [List.reverse_append, List.dropWhile_append_of_pos (by simpa using hv)]
  rw [← List.head?_reverse] at hu
  cases hr : u.reverse with
  | nil => simp_all
  | cons c w =>
    have hc : isBlank c = false := hu c (by simp [hr])
    rw [List.dropWhile_cons_of_neg (by simp [hc]), ← hr, List.reverse_reverse]

theorem trim_around (hu : ∀ c ∈ u, isBlank c = true) (hv : ∀ c ∈ v, isBlank c = true)
    (ht : ∀ c ∈ t, isBlank c = false) : trim (u ++ t ++ v) = t := by
  unfold trim
  rw [List.append_assoc, List.dropWhile_append_of_pos hu]
  cases t with
  | nil =>
    have hd : v.dropWhile isBlank = [] := List.dropWhile_eq_nil_iff.2 hv
    simp [hd, trimRight]
  | cons c t =>
    rw [List.cons_append, List.dropWhile_cons_of_neg (by simp [ht c])]
    exact trimRight_append hv fun d hd => ht d (List.mem_of_mem_getLast? hd)

theorem trim_spaces (ht : ∀ c ∈ t, isBlank c = false) : trim (' ' :: (t ++ [' '])) = t :=
  trim_around (u := [' ']) (v := [' ']) (List.forall_mem_singleton.2 rfl) (List.forall_mem_singleton.2 rfl) ht

theorem operator_solid {op : Text} (h : op = ['='] ∨ op = ['=', '/']) : ∀ c ∈ op, isBlank c = false := by
  rcases h with rfl | rfl
  · exact List.forall_mem_singleton.2 rfl
  · exact List.forall_mem_cons.2 ⟨rfl, List.forall_mem_singleton.2 rfl⟩

theorem mem_trimRight {c : Char} (hc : c ∈ t) (hb : isBlank c = false) : c ∈ trimRight t := by
  have hr : c ∈ t.reverse.takeWhile isBlank ++ t.reverse.dropWhile isBlank := by
    rw [List.takeWhile_append_dropWhile]
    exact List.mem_reverse.2 hc
  rcases List.mem_append.1 hr with h | h
  · rw [List.mem_takeWhile_imp h] at hb
    cases hb
  · exact List.mem_reverse.2 h

theorem mem_trim {c : Char} (hc : c ∈ t) (hb : isBlank c = false) : c ∈ trim t := by
  refine mem_trimRight ?_ hb
  rw [← List.takeWhile_append_dropWhile (p := isBlank) (l := t)] at hc
  rcases List.mem_append.1 hc with h | h
  · rw [List.mem_takeWhile_imp h] at hb
    cases hb
  · exact h

/-! ## Lines -/

theorem lines_append (h : '\n' ∉ l) : lines (l ++ '\n' :: t) = l :: lines t := by
  induction l with
  | nil => simp [lines]
  | cons c l ih =>
    simp only [List.mem_cons, not_or] at h
    simp [lines, Ne.symm h.1, ih h.2]

theorem lines_last (h : '\n' ∉ l) : lines l = [l] := by
  induction l with
  | nil => rfl
  | cons c l ih =>
    simp only [List.mem_cons, not_or] at h
    rw [lines, if_neg (Ne.symm h.1), ih h.2]

/-- A line that ends with something visible. -/
structure Solid (l : Text) : Prop where
  inner : '\n' ∉ l
  last : ∃ v c, l = v ++ [c] ∧ isBlank c = false

/-- It begins with something visible as well. -/
structure Tidy (l : Text) : Prop extends Solid l where
  first : ∃ c v, l = c :: v ∧ isBlank c = false

theorem Tidy.append (hu : Tidy u) (hv : Tidy v) (hl : '\n' ∉ l) : Tidy (u ++ (l ++ v)) where
  inner := by simp [hu.inner, hv.inner, hl]
  first := by
    obtain ⟨c, w, rfl, hc⟩ := hu.first
    exact ⟨c, w ++ (l ++ v), rfl, hc⟩
  last := by
    obtain ⟨w, c, rfl, hc⟩ := hv.last
    exact ⟨u ++ (l ++ w), c, by simp, hc⟩

theorem Solid.trimRight (h : Solid l) : trimRight l = l := by
  obtain ⟨v, c, rfl, hc⟩ := h.last
  have ht := trimRight_append (u := v ++ [c]) (v := []) (by simp) (by simp [hc])
  rwa [List.append_nil] at ht

theorem Solid.ne_nil (h : Solid l) : l ≠ [] := by
  obtain ⟨v, c, rfl, _⟩ := h.last
  simp

theorem Tidy.indentOf (h : Tidy l) : indentOf l = 0 := by
  obtain ⟨c, v, rfl, hc⟩ := h.first
  simp [Abnf.indentOf, hc]

theorem solidLines_solid (h : ∀ l ∈ ls, Solid l) : solidLines (ls.flatMap (· ++ ['\n'])) = ls := by
  induction ls with
  | nil => rfl
  | cons l ls ih =>
    obtain ⟨hl, hls⟩ := List.forall_mem_cons.1 h
    have hlines : lines ((l :: ls).flatMap (· ++ ['\n'])) = l :: lines (ls.flatMap (· ++ ['\n'])) := by
      simpa using lines_append hl.inner
    have he : l.isEmpty = false := by simp [hl.ne_nil]
    unfold solidLines at ih ⊢
    rw [hlines, List.map_cons, hl.trimRight, List.filter_cons, he]
    simp [ih hls]

theorem sharedIndent_le (hl : l ∈ ls) : sharedIndent ls ≤ indentOf l := by
  unfold sharedIndent
  cases hm : (ls.map indentOf).min? with
  | none => exact Nat.zero_le _
  | some m => exact (List.min?_eq_some_iff.1 hm).2 _ (List.mem_map_of_mem hl)

theorem sharedIndent_eq_zero (hl : l ∈ ls) (h : indentOf l = 0) : sharedIndent ls = 0 :=
  Nat.eq_zero_of_le_zero (h ▸ sharedIndent_le hl)

theorem normalize_eq (t : Text) :
    normalize t = ((solidLines t).map (·.drop (sharedIndent (solidLines t)))).flatMap (· ++ ['\n']) := by
  rw [List.flatMap_map]
  rfl

theorem normalize_solid (h : ∀ l ∈ ls, Solid l) (hs : sharedIndent ls = 0) :
    normalize (ls.flatMap (· ++ ['\n'])) = ls.flatMap (· ++ ['\n']) := by
  unfold normalize
  simp only [solidLines_solid h, hs, List.drop_zero]

theorem normalize_tidy (h : ∀ l ∈ ls, Tidy l) :
    normalize (ls.flatMap (· ++ ['\n'])) = ls.flatMap (· ++ ['\n']) := by
  refine normalize_solid (fun l hl => (h l hl).toSolid) ?_
  cases ls with
  | nil => rfl
  | cons l ls => exact sharedIndent_eq_zero List.mem_cons_self (h l List.mem_cons_self).indentOf

/-! ## Normal texts -/

def SolidPair (a b : Char) : Prop := b = '\n' → isBlank a = false

def IndentedPair (a b : Char) : Prop := a = '\n' → isBlank b = true

/-- A text as normalization leaves it: its lines end with something visible, and one of them begins so. -/
structure Normal (t : Text) : Prop where
  ended : ∀ c ∈ t.getLast?, c = '\n'
  solid : ('\n' :: t).IsChain SolidPair
  flush : t = [] ∨ ¬ ('\n' :: t).IsChain IndentedPair

theorem exists_solid_lines (he : ∀ c ∈ t.getLast?, c = '\n') (hs : ('\n' :: t).IsChain SolidPair) :
    ∃ ls : List Text, t = ls.flatMap (· ++ ['\n']) ∧ ∀ l ∈ ls, Solid l := by
  induction hlen : t.length using Nat.strong_induction_on generalizing t with
  | _ k ih =>
    by_cases ht : t = []
    · exact ⟨[], ht, List.forall_mem_nil _⟩
    · have hmem : '\n' ∈ t := by
        have hlast := he _ (List.getLast?_eq_some_getLast ht)
        rw [← hlast]
        exact List.getLast_mem ht
      obtain ⟨l, w, rfl, hl⟩ := List.eq_append_cons_of_mem hmem
      have hsplit : ('\n' :: l ++ '\n' :: w).IsChain SolidPair := hs
      obtain ⟨_, hw, hcross⟩ := List.isChain_append.1 hsplit
      have hended : ∀ c ∈ w.getLast?, c = '\n' := by
        intro c hc
        refine he c ?_
        rw [List.getLast?_append, List.getLast?_cons, hc]
        rfl
      obtain ⟨ls, rfl, hls⟩ := ih _ (by rw [← hlen]; simp; omega) hended hw rfl
      refine ⟨l :: ls, by simp, List.forall_mem_cons.2 ⟨⟨hl, ?_⟩, hls⟩⟩
      rcases List.eq_nil_or_concat l with rfl | ⟨v, c, rfl⟩
      · exact absurd (hcross '\n' rfl '\n' rfl rfl) (by decide)
      · rw [List.concat_eq_append] at hcross ⊢
        refine ⟨v, c, rfl, hcross c ?_ '\n' rfl rfl⟩
        rw [← List.cons_append, List.getLast?_concat]
        rfl

theorem indented_append (hu : '\n' ∉ u) (h : t.IsChain IndentedPair) : (u ++ t).IsChain IndentedPair := by
  induction u with
  | nil => exact h
  | cons c u ih =>
    simp only [List.mem_cons, not_or] at hu
    exact List.isChain_cons.2 ⟨fun _ _ hc => absurd hc.symm hu.1, ih hu.2⟩

theorem solid_append (hu : '\n' ∉ u) (hy : ∀ c ∈ t.head?, c ≠ '\n') (h : t.IsChain SolidPair) :
    (u ++ t).IsChain SolidPair := by
  induction u with
  | nil => exact h
  | cons c u ih =>
    simp only [List.mem_cons, not_or] at hu
    refine List.isChain_cons.2 ⟨fun d hd hn => ?_, ih hu.2⟩
    cases u with
    | nil => exact absurd hn (hy d hd)
    | cons e u =>
      cases hd
      exact absurd (List.mem_cons.2 (.inl hn.symm)) hu.2

theorem indented_of_lines (h : ∀ l ∈ ls, Solid l) (hi : ∀ l ∈ ls, ∀ c ∈ l.head?, isBlank c = true) :
    ('\n' :: ls.flatMap (· ++ ['\n'])).IsChain IndentedPair := by
  induction ls with
  | nil => exact .singleton _
  | cons l ls ih =>
    obtain ⟨hl, hls⟩ := List.forall_mem_cons.1 h
    obtain ⟨hil, hils⟩ := List.forall_mem_cons.1 hi
    obtain ⟨c, v, hcv⟩ := List.exists_cons_of_ne_nil hl.ne_nil
    have hrest := indented_append hl.inner (ih hls hils)
    have hlines : '\n' :: (l :: ls).flatMap (· ++ ['\n']) =
        '\n' :: (l ++ '\n' :: ls.flatMap (· ++ ['\n'])) := by
      simp
    rw [hlines]
    refine List.isChain_cons.2 ⟨fun d hd _ => hil d ?_, hrest⟩
    simpa [hcv] using hd

theorem normalize_normal (h : Normal t) : normalize t = t := by
  obtain ⟨ls, rfl, hls⟩ := exists_solid_lines h.ended h.solid
  refine normalize_solid hls ?_
  by_cases hflush : ∃ l ∈ ls, ∃ c ∈ l.head?, isBlank c = false
  · obtain ⟨l, hl, c, hc, hb⟩ := hflush
    refine sharedIndent_eq_zero hl ?_
    cases l with
    | nil => cases hc
    | cons d l =>
      cases hc
      simp [indentOf, hb]
  · rcases h.flush with ht | hn
    · cases ls with
      | nil => rfl
      | cons l ls => simp at ht
    · refine absurd (indented_of_lines hls fun l hl c hc => ?_) hn
      by_contra hb
      exact hflush ⟨l, hl, c, hc, by simpa using hb⟩

theorem solid_line {a c : Char} (hv : '\n' ∉ v) (hn : c ≠ '\n') (hc : isBlank c = false)
    (h : ('\n' :: t).IsChain SolidPair) : (a :: (v ++ c :: '\n' :: t)).IsChain SolidPair := by
  induction v generalizing a with
  | nil =>
    refine List.isChain_cons_cons.2 ⟨fun he => absurd he hn, ?_⟩
    exact List.isChain_cons_cons.2 ⟨fun _ => hc, h⟩
  | cons d v ih =>
    simp only [List.mem_cons, not_or] at hv
    exact List.isChain_cons_cons.2 ⟨fun he => absurd he.symm hv.1, ih hv.2⟩

theorem solid_of_lines (h : ∀ l ∈ ls, Solid l) : ('\n' :: ls.flatMap (· ++ ['\n'])).IsChain SolidPair := by
  induction ls with
  | nil => exact .singleton _
  | cons l ls ih =>
    obtain ⟨hl, hls⟩ := List.forall_mem_cons.1 h
    obtain ⟨v, c, rfl, hc⟩ := hl.last
    have hinner := hl.inner
    simp only [List.mem_append, List.mem_singleton, not_or] at hinner
    simpa using solid_line (a := '\n') hinner.1 (Ne.symm hinner.2) hc (ih hls)

theorem getLast?_lines (ls : List Text) : ('\n' :: ls.flatMap (· ++ ['\n'])).getLast? = some '\n' := by
  rcases List.eq_nil_or_concat ls with rfl | ⟨ls, l, rfl⟩
  · rfl
  · simp [List.getLast?_cons]

theorem normal_of_lines (h : ∀ l ∈ ls, Solid l) (hl : l ∈ ls) (hi : indentOf l = 0) :
    Normal (ls.flatMap (· ++ ['\n'])) where
  ended c hc := by
    have hlast := getLast?_lines ls
    rw [List.getLast?_cons, hc] at hlast
    exact Option.some.inj hlast
  solid := solid_of_lines h
  flush := by
    refine .inr fun hchain => ?_
    obtain ⟨as, bs, rfl⟩ := List.append_of_mem hl
    obtain ⟨c, v, rfl⟩ := List.exists_cons_of_ne_nil (h l hl).ne_nil
    have hc : isBlank c = false := by simpa [indentOf] using hi
    have hsplit : ('\n' :: as.flatMap (· ++ ['\n']) ++
        c :: (v ++ '\n' :: bs.flatMap (· ++ ['\n']))).IsChain IndentedPair := by
      simpa using hchain
    have hcross := (List.isChain_append.1 hsplit).2.2 '\n' (getLast?_lines as) c rfl rfl
    rw [hc] at hcross
    cases hcross

theorem lines_inner : ∀ l ∈ lines t, '\n' ∉ l := by
  induction t with
  | nil => simp [lines]
  | cons c t ih =>
    unfold lines
    split
    · simpa using ih
    · rename_i hc
      cases hl : lines t with
      | nil => simpa using Ne.symm hc
      | cons l ls =>
        rw [hl] at ih
        obtain ⟨hl', hls⟩ := List.forall_mem_cons.1 ih
        exact List.forall_mem_cons.2 ⟨by simp [Ne.symm hc, hl'], hls⟩

theorem solidLines_are_solid : ∀ l ∈ solidLines t, Solid l := by
  intro l hl
  obtain ⟨hmem, hne⟩ := List.mem_filter.1 hl
  obtain ⟨l₀, hl₀, rfl⟩ := List.mem_map.1 hmem
  unfold trimRight at hne ⊢
  cases hd : l₀.reverse.dropWhile isBlank with
  | nil => simp [hd] at hne
  | cons c w =>
    have hsub : ∀ x ∈ c :: w, x ∈ l₀ := fun x hx =>
      List.mem_reverse.1 ((List.dropWhile_sublist isBlank).subset (hd ▸ hx))
    have hc : isBlank c = false := by
      have := List.head?_dropWhile_not isBlank l₀.reverse
      rw [hd] at this
      simpa using this
    refine ⟨fun hn => ?_, w.reverse, c, by simp, hc⟩
    exact lines_inner l₀ hl₀ (hsub '\n' (by simpa [or_comm] using hn))

theorem Solid.drop {k : Nat} (h : Solid l) (hk : k ≤ indentOf l) : Solid (l.drop k) := by
  obtain ⟨v, c, rfl, hc⟩ := h.last
  have hle : indentOf (v ++ [c]) ≤ v.length := by
    unfold indentOf
    rw [List.takeWhile_append]
    split
    · simp [hc]
    · exact (List.takeWhile_sublist isBlank).length_le
  refine ⟨fun hn => h.inner (List.mem_of_mem_drop hn), v.drop k, c, ?_, hc⟩
  exact List.drop_append_of_le_length (Nat.le_trans hk hle)

theorem indentOf_drop (l : Text) : indentOf (l.drop (indentOf l)) = 0 := by
  have hd : l.drop (indentOf l) = l.dropWhile isBlank := by
    have hl : (l.takeWhile isBlank ++ l.dropWhile isBlank).drop (indentOf l) = l.dropWhile isBlank :=
      List.drop_left' rfl
    rwa [List.takeWhile_append_dropWhile] at hl
  have hh := List.head?_dropWhile_not isBlank l
  rw [hd]
  unfold indentOf
  cases hw : l.dropWhile isBlank with
  | nil => rfl
  | cons c w =>
    rw [hw] at hh
    simp_all

theorem normal_normalize (t : Text) : Normal (normalize t) := by
  have hsolid : ∀ l ∈ solidLines t, Solid l := solidLines_are_solid
  rw [normalize_eq]
  cases hm : ((solidLines t).map indentOf).min? with
  | none =>
    have hnil : solidLines t = [] := by simpa using hm
    rw [hnil]
    exact ⟨fun c hc => (by cases hc), .singleton _, .inl rfl⟩
  | some m =>
    obtain ⟨l, hl, rfl⟩ := List.mem_map.1 (List.min?_eq_some_iff.1 hm).1
    have hk : sharedIndent (solidLines t) = indentOf l := by rw [sharedIndent, hm, Option.getD_some]
    refine normal_of_lines (fun l' hl' => ?_) (List.mem_map_of_mem hl) (by rw [hk, indentOf_drop])
    obtain ⟨l₁, hl₁, rfl⟩ := List.mem_map.1 hl'
    exact (hsolid l₁ hl₁).drop (sharedIndent_le hl₁)

end

end PegTree.Abnf
