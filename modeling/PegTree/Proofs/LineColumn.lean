import Mathlib.Algebra.GroupWithZero.Nat
import Mathlib.Data.Prod.Lex
import PegTree.Error
import PegTree.Proofs.Span

/-!
# Lines and columns

The line and the column of an error tell its offset: further on the line is later, or the column is later
in the same line, and the offset can be found again from the lines of the input.
-/

namespace PegTree

/-! ## Places by line and column -/

/-- The byte offset of a place by its line and its column, both from one. A line has a place before each of its
characters and one at its end; a line feed stands between two lines. -/
def offsetOf? (t : Text) : (line col : Nat) → Option Nat
  | line + 1, col + 1 => ((t.splitOn '\n')[line]?).bind fun s =>
    if col ≤ s.length then
      some ((((t.splitOn '\n').take line).map (byteSize · + 1)).sum + byteSize (s.take col))
    else none
  | _, _ => none

def placeAfter (t : Text) : Nat × Nat := (t.count '\n' + 1, (t.reverse.takeWhile (· != '\n')).length + 1)

theorem placeAfter_concat (t : Text) (c : Char) : placeAfter (t ++ [c]) =
    if c = '\n' then ((placeAfter t).1 + 1, 1) else ((placeAfter t).1, (placeAfter t).2 + 1) := by
  by_cases hc : c = '\n'
  · simp [placeAfter, hc]
  · simp [placeAfter, hc]

/-- The column behind a text counts from its last line feed on: what comes in front counts if there is none. -/
theorem placeAfter_cons (c : Char) (t : Text) : placeAfter (c :: t) =
    if c = '\n' then ((placeAfter t).1 + 1, (placeAfter t).2)
    else if (placeAfter t).1 = 1 then (1, (placeAfter t).2 + 1) else placeAfter t := by
  unfold placeAfter
  rw [List.reverse_cons, List.takeWhile_append]
  by_cases ht : '\n' ∈ t
  · have hsome : t.count '\n' ≠ 0 := by simpa [List.count_eq_zero] using ht
    have hfeed : (t.reverse.takeWhile (· != '\n')).length ≠ t.reverse.length := by
      intro hlength
      have hall := (List.takeWhile_prefix _).eq_of_length hlength
      simpa using List.takeWhile_eq_self_iff.1 hall '\n' (List.mem_reverse.2 ht)
    rw [if_neg hfeed]
    by_cases hc : c = '\n' <;> simp [hc, hsome]
  · have hnone : t.count '\n' = 0 := List.count_eq_zero.2 ht
    have hinline : t.reverse.takeWhile (· != '\n') = t.reverse := by
      rw [List.takeWhile_eq_self_iff]
      intro d hd
      have hmem := List.mem_reverse.1 hd
      simp only [bne_iff_ne]
      rintro rfl
      exact ht hmem
    by_cases hc : c = '\n' <;> simp [hc, hnone, hinline]

theorem placeAfter_lt (t : Text) (c : Char) (u : Text) :
    toLex (placeAfter t) < toLex (placeAfter (t ++ c :: u)) := by
  have hstep : ∀ (t : Text) (c : Char), toLex (placeAfter t) < toLex (placeAfter (t ++ [c])) := by
    intro t c
    rw [Prod.Lex.lt_iff, placeAfter_concat]
    by_cases hc : c = '\n' <;> simp [hc]
  induction u generalizing t c with
  | nil => exact hstep t c
  | cons d u ih =>
    have h := ih (t ++ [c]) d
    rw [List.append_assoc, List.singleton_append] at h
    exact lt_trans (hstep t c) h

/-! ## Offsets of places -/

section
variable {t : Text} {c : Char} {line col p : Nat}

theorem offsetOf?_first (t : Text) : offsetOf? t 1 1 = some 0 := by
  obtain ⟨s, ls, hs⟩ := List.exists_cons_of_ne_nil (List.splitOn_ne_nil '\n' t)
  simp [offsetOf?, hs]

theorem splitOn_cons (hc : c ≠ '\n') (t : Text) :
    ∃ s ls, t.splitOn '\n' = s :: ls ∧ (c :: t).splitOn '\n' = (c :: s) :: ls := by
  obtain ⟨s, ls, hs⟩ := List.exists_cons_of_ne_nil (List.splitOn_ne_nil '\n' t)
  refine ⟨s, ls, hs, ?_⟩
  simp [List.splitOn_cons_eq_if_modifyHead, hc, hs]

theorem offsetOf?_same_line (hc : c ≠ '\n') : offsetOf? (c :: t) 1 (col + 2) =
    (offsetOf? t 1 (col + 1)).map (c.utf8Size + ·) := by
  obtain ⟨s, ls, hs, hcs⟩ := splitOn_cons hc t
  by_cases hcol : col ≤ s.length <;> simp [offsetOf?, hs, hcs, hcol]

theorem offsetOf?_later_line (hc : c ≠ '\n') : offsetOf? (c :: t) (line + 2) col =
    (offsetOf? t (line + 2) col).map (c.utf8Size + ·) := by
  obtain ⟨s, ls, hs, hcs⟩ := splitOn_cons hc t
  cases col with
  | zero => rfl
  | succ col =>
    cases hl : ls[line]? with
    | none => simp [offsetOf?, hs, hcs, hl]
    | some l => by_cases hcol : col ≤ l.length <;> simp [offsetOf?, hs, hcs, hl, hcol, Nat.add_assoc]

theorem offsetOf?_next_line : offsetOf? ('\n' :: t) (line + 2) col =
    (offsetOf? t (line + 1) col).map (1 + ·) := by
  have hs : ('\n' :: t).splitOn '\n' = [] :: t.splitOn '\n' := by simp [List.splitOn_cons_eq_if_modifyHead]
  cases col with
  | zero => rfl
  | succ col =>
    cases hl : (t.splitOn '\n')[line]? with
    | none => simp [offsetOf?, hs, hl]
    | some l => by_cases hcol : col ≤ l.length <;> simp [offsetOf?, hs, hl, hcol, Nat.add_assoc]

theorem offsetOf?_placeAfter (s r : Text) :
    offsetOf? (s ++ r) (placeAfter s).1 (placeAfter s).2 = some (byteSize s) := by
  induction s with
  | nil => exact offsetOf?_first r
  | cons c s ih =>
    rw [placeAfter_cons, List.cons_append, byteSize_cons]
    by_cases hc : c = '\n'
    · subst hc
      have hnext : offsetOf? ('\n' :: (s ++ r)) ((placeAfter s).1 + 1) (placeAfter s).2 = _ := offsetOf?_next_line
      rw [if_pos rfl, hnext]
      exact congrArg (Option.map _) ih
    · rw [if_neg hc]
      by_cases hl : (placeAfter s).1 = 1
      · have hsame : offsetOf? (c :: (s ++ r)) 1 ((placeAfter s).2 + 1) = _ := offsetOf?_same_line hc
        rw [hl] at ih
        rw [if_pos hl, hsame]
        exact congrArg (Option.map _) ih
      · have hpos : s.count '\n' ≠ 0 := by simpa [placeAfter] using hl
        obtain ⟨n, hn⟩ := Nat.exists_eq_succ_of_ne_zero hpos
        have hline : (placeAfter s).1 = n + 2 := congrArg (· + 1) hn
        rw [hline] at ih
        rw [if_neg hl, hline, offsetOf?_later_line hc, ih]
        rfl

theorem exists_of_offsetOf? (h : offsetOf? t line col = some p) :
    ∃ s r, t = s ++ r ∧ placeAfter s = (line, col) ∧ byteSize s = p := by
  -- the first character makes for a column on the first line, or for a line if it is a line feed
  induction t generalizing line col p with
  | nil =>
    match line, col with
    | 0, _ => cases h
    | _ + 1, 0 => cases h
    | 1, 1 =>
      rw [offsetOf?_first] at h
      exact ⟨[], [], rfl, rfl, Option.some.inj h⟩
    | 1, col + 2 => simp [offsetOf?] at h
    | line + 2, col + 1 => simp [offsetOf?] at h
  | cons c t ih =>
    match line, col with
    | 0, _ => cases h
    | _ + 1, 0 => cases h
    | 1, 1 =>
      rw [offsetOf?_first] at h
      exact ⟨[], c :: t, rfl, rfl, Option.some.inj h⟩
    | 1, col + 2 =>
      by_cases hc : c = '\n'
      · simp [offsetOf?, List.splitOn_cons_eq_if_modifyHead, hc] at h
      · rw [offsetOf?_same_line hc] at h
        obtain ⟨q, hq, rfl⟩ := Option.map_eq_some_iff.1 h
        obtain ⟨s, r, rfl, hs, rfl⟩ := ih hq
        refine ⟨c :: s, r, rfl, ?_, rfl⟩
        simp [placeAfter_cons, hc, hs]
    | line + 2, col + 1 =>
      by_cases hc : c = '\n'
      · subst hc
        rw [offsetOf?_next_line] at h
        obtain ⟨q, hq, rfl⟩ := Option.map_eq_some_iff.1 h
        obtain ⟨s, r, rfl, hs, rfl⟩ := ih hq
        refine ⟨'\n' :: s, r, rfl, ?_, rfl⟩
        simp [placeAfter_cons, hs]
      · rw [offsetOf?_later_line hc] at h
        obtain ⟨q, hq, rfl⟩ := Option.map_eq_some_iff.1 h
        obtain ⟨s, r, rfl, hs, rfl⟩ := ih hq
        refine ⟨c :: s, r, rfl, ?_, rfl⟩
        simp [placeAfter_cons, hc, hs]

end

/-! ## Errors -/

namespace ParseError

variable {i : Input} {message : String}

theorem lineCol_byteSize {s r : Text} (h : i.text = s ++ r) : lineCol ⟨byteSize s, message, i⟩ = placeAfter s := by
  have hle : byteSize s ≤ i.size := by
    rw [i.size_eq, h, byteSize_append]
    omega
  have hbefore : i.slice? 0 (byteSize s) = some s := by
    have hslice := Input.slice?_byteSize (i := i) (s := []) (m := s) (r := r) h
    rwa [byteSize_nil, Nat.zero_add] at hslice
  simp [lineCol, before, Nat.min_eq_left hle, hbefore, placeAfter]

theorem lineCol_beyond {p : Nat} (h : i.size ≤ p) :
    lineCol ⟨p, message, i⟩ = lineCol ⟨i.size, message, i⟩ := by
  simp [lineCol, before, Nat.min_eq_right h]

/-- Errors at later characters have later places. The place of an error is a line and a column just if a walk
to that column of that line of the input comes to its offset, so the offset can be recovered. Beyond the input
all errors are at its end. -/
theorem lineCol_exact (i : Input) (message : String) :
    (∀ p q, i.isBoundary p = true → i.isBoundary q = true → p < q →
      toLex (lineCol ⟨p, message, i⟩) < toLex (lineCol ⟨q, message, i⟩)) ∧
    (∀ p, i.isBoundary p = true → ∀ line col,
      lineCol ⟨p, message, i⟩ = (line, col) ↔ offsetOf? i.text line col = some p) ∧
    (∀ line col p, offsetOf? i.text line col = some p → i.isBoundary p = true) ∧
    ∀ p, i.size ≤ p → lineCol ⟨p, message, i⟩ = lineCol ⟨i.size, message, i⟩ := by
  refine ⟨?_, ?_, ?_, fun p => lineCol_beyond⟩
  · intro p q hp hq hlt
    obtain ⟨s, r, hs, rfl⟩ := Input.isBoundary_iff.1 hp
    obtain ⟨s', r', hs', rfl⟩ := Input.isBoundary_iff.1 hq
    rw [lineCol_byteSize hs, lineCol_byteSize hs']
    obtain ⟨c, w, rfl, _⟩ := append_of_byteSize_lt (hs.symm.trans hs') hlt
    exact placeAfter_lt s c w
  · intro p hp line col
    obtain ⟨s, r, hs, rfl⟩ := Input.isBoundary_iff.1 hp
    rw [lineCol_byteSize hs]
    constructor
    · intro hplace
      have h := offsetOf?_placeAfter s r
      rwa [hplace, ← hs] at h
    · intro h
      obtain ⟨s', r', hs', hplace, hsize⟩ := exists_of_offsetOf? h
      obtain ⟨rfl, _⟩ := append_inj_of_byteSize (hs.symm.trans hs') hsize.symm
      exact hplace
  · intro line col p h
    obtain ⟨s, r, hs, _, rfl⟩ := exists_of_offsetOf? h
    exact Input.isBoundary_iff.2 ⟨s, r, hs, rfl⟩

def accents : Input := .ofText ['é', 'à', '\n', '\n', 'b', '\n']

theorem lineCol_exact_accents :
    toLex (lineCol ⟨5, "", accents⟩) < toLex (lineCol ⟨8, "", accents⟩) ∧
    lineCol ⟨2, "", accents⟩ = (1, 2) ∧ lineCol ⟨5, "", accents⟩ = (2, 1) ∧ lineCol ⟨8, "", accents⟩ = (4, 1) ∧
    lineCol ⟨9, "", accents⟩ = (4, 1) := by
  obtain ⟨hlt, hiff, _, hbeyond⟩ := lineCol_exact accents ""
  have hsize : accents.size = 8 := by decide
  have hend : lineCol ⟨8, "", accents⟩ = (4, 1) := (hiff 8 (by decide) 4 1).2 (by decide)
  refine ⟨hlt 5 8 (by decide) (by decide) (by decide), (hiff 2 (by decide) 1 2).2 (by decide),
    (hiff 5 (by decide) 2 1).2 (by decide), hend, ?_⟩
  rw [hbeyond 9 (by decide), hsize, hend]

end ParseError

end PegTree
