import Mathlib.Data.List.TakeWhile
import PegTree.Pattern.Basic

/-!
# What patterns find

The preferred end of a match is all that counts of a pattern. A greedy repetition of a class ends
after the whole run of its characters, and where nothing can go on inside the run it ends nowhere else.
-/

namespace PegTree

theorem CharClass.contains_single {c x : Char} : (CharClass.single c).contains x = true ↔ x = c := by
  simp only [CharClass.single, CharClass.contains, Bool.and_eq_true, decide_eq_true_eq]
  constructor
  · intro h
    exact Char.toNat_inj.1 (by omega)
  · rintro rfl
    omega

namespace Spot

variable {c : CharClass} {b : Option Char} {o : Nat} {t : Text}

/-- The places of a run of characters of a class, from its start on. -/
def run (c : CharClass) (b : Option Char) (o : Nat) : Text → List Spot
  | [] => [⟨b, o, []⟩]
  | x :: t => ⟨b, o, x :: t⟩ :: if c.contains x then run c (some x) (o + 1) t else []

/-- The place after a run. -/
def past (c : CharClass) (b : Option Char) (o : Nat) : Text → Spot
  | [] => ⟨b, o, []⟩
  | x :: t => if c.contains x then past c (some x) (o + 1) t else ⟨b, o, x :: t⟩

theorem past_offset : (past c b o t).offset = o + (t.takeWhile c.contains).length := by
  induction t generalizing b o with
  | nil => rfl
  | cons x t ih =>
    rw [past, List.takeWhile_cons]
    by_cases hx : c.contains x = true
    · rw [if_pos hx, if_pos hx, ih, List.length_cons]
      omega
    · rw [if_neg hx, if_neg hx]
      rfl

theorem past_rest : (past c b o t).rest = t.dropWhile c.contains := by
  induction t generalizing b o with
  | nil => rfl
  | cons x t ih =>
    rw [past, List.dropWhile_cons]
    by_cases hx : c.contains x = true
    · rw [if_pos hx, if_pos hx, ih]
    · rw [if_neg hx, if_neg hx]

theorem getLast?_run : (run c b o t).getLast? = some (past c b o t) := by
  induction t generalizing b o with
  | nil => rfl
  | cons x t ih =>
    rw [run, past]
    by_cases hx : c.contains x = true
    · rw [if_pos hx, if_pos hx, List.getLast?_cons, ih]
      rfl
    · rw [if_neg hx, if_neg hx]
      rfl

/-- What fails inside a run is found after it or nowhere. -/
theorem findSome?_run {α : Type} {f : Spot → Option α}
    (hf : ∀ (s : Spot) x u, s.rest = x :: u → c.contains x = true → f s = none) :
    (run c b o t).reverse.findSome? f = f (past c b o t) := by
  induction t generalizing b o with
  | nil => simp [run, past]
  | cons x t ih =>
    rw [run, past]
    by_cases hx : c.contains x = true
    · rw [if_pos hx, if_pos hx, List.reverse_cons, List.findSome?_append, ih]
      simp [hf ⟨b, o, x :: t⟩ x t rfl hx]
    · rw [if_neg hx, if_neg hx]
      simp

theorem closure_greedy {step : Spot → List Spot} {fuel : Nat} (s : Spot) :
    closure step true (fuel + 1) s [] = s :: ((step s).filter (·.offset != s.offset)).foldl
      (fun found t => closure step true fuel t found) [] := rfl

theorem closure_chars {fuel : Nat} (hf : t.length < fuel) :
    closure (Regex.chars c).ends true fuel ⟨b, o, t⟩ [] = run c b o t := by
  induction t generalizing b o fuel with
  | nil =>
    obtain ⟨fuel, rfl⟩ : ∃ k, fuel = k + 1 := ⟨fuel - 1, by omega⟩
    rfl
  | cons x t ih =>
    rw [List.length_cons] at hf
    obtain ⟨fuel, rfl⟩ : ∃ k, fuel = k + 1 := ⟨fuel - 1, by omega⟩
    have hends : (Regex.chars c).ends ⟨b, o, x :: t⟩ = if c.contains x then [⟨some x, o + 1, t⟩] else [] := rfl
    rw [closure_greedy, hends, run]
    by_cases hx : c.contains x = true
    · rw [if_pos hx, if_pos hx, List.filter_cons_of_pos (by simp), List.filter_nil, List.foldl_cons,
        List.foldl_nil, ih (by omega)]
    · rw [if_neg hx, if_neg hx]
      rfl

theorem head?_distinct (spots : List Spot) : (distinct spots).head? = spots.head? := by
  have hkeep : ∀ (l found : List Spot) (s : Spot), found.getLast? = some s →
      (l.foldl (fun found s => if s.isIn found then found else s :: found) found).getLast? = some s := by
    intro l
    induction l with
    | nil => exact fun _ _ h => h
    | cons x l ih =>
      intro found s h
      rw [List.foldl_cons]
      refine ih _ s ?_
      split
      · exact h
      · rw [List.getLast?_cons, h]
        rfl
  rw [distinct, List.head?_reverse]
  cases spots with
  | nil => rfl
  | cons s spots => exact hkeep spots [s] s rfl

end Spot

namespace Regex

open Spot

variable {c : CharClass} {a b : Regex} {s : Spot}

/-! ## Preferred ends -/

def first? (r : Regex) (s : Spot) : Option Spot := (r.ends s).head?

theorem leading?_eq (r : Regex) (t : Text) :
    r.leading? t = (r.first? (.start t)).map fun s => t.take s.offset := rfl

theorem first?_seq : (Regex.seq a b).first? s = (a.ends s).findSome? b.first? := by
  rw [first?, ends, head?_distinct, List.head?_flatMap]
  rfl

theorem first?_alt : (Regex.alt a b).first? s = (a.first? s).or (b.first? s) := by
  rw [first?, ends, head?_distinct, List.head?_append]
  rfl

theorem first?_textStart_seq (t : Text) : (Regex.seq .textStart a).first? (.start t) = a.first? (.start t) := by
  simp [first?_seq, ends, Spot.start]

theorem ends_chars {p : Option Char} {o : Nat} {x : Char} {t : Text} :
    (Regex.chars c).ends ⟨p, o, x :: t⟩ = if c.contains x then [⟨some x, o + 1, t⟩] else [] := rfl

theorem first?_chars_seq_nil {p : Option Char} {o : Nat} : (Regex.seq (.chars c) b).first? ⟨p, o, []⟩ = none := by
  rw [first?_seq]
  rfl

theorem first?_chars_seq {p : Option Char} {o : Nat} {x : Char} {t : Text} :
    (Regex.seq (.chars c) b).first? ⟨p, o, x :: t⟩ =
      if c.contains x then b.first? ⟨some x, o + 1, t⟩ else none := by
  rw [first?_seq, ends_chars]
  split
  · simp
  · rfl

theorem ends_star {p : Option Char} {o : Nat} {t : Text} :
    (Regex.star (.chars c) true).ends ⟨p, o, t⟩ = (run c p o t).reverse := by
  rw [ends, closure_chars (Nat.lt_succ_self _)]

theorem first?_star {p : Option Char} {o : Nat} {t : Text} :
    (Regex.star (.chars c) true).first? ⟨p, o, t⟩ = some (past c p o t) := by
  rw [first?, ends_star, List.head?_reverse, getLast?_run]

theorem first?_plus {p : Option Char} {o : Nat} {x : Char} {t : Text} :
    (Regex.plus (.chars c) true).first? ⟨p, o, x :: t⟩ =
      if c.contains x then some (past c (some x) (o + 1) t) else none := by
  rw [first?, ends, ends_chars]
  by_cases hx : c.contains x = true
  · have hne : ((o + 1 : Nat) == o) = false := by simp
    rw [if_pos hx, if_pos hx, List.foldl_cons, List.foldl_nil]
    simp only [hne, Bool.false_eq_true, if_false]
    rw [closure_chars (by simp only [List.length_cons]; omega), List.head?_reverse, getLast?_run]
  · rw [if_neg hx, if_neg hx]
    rfl

theorem first?_star_seq {p : Option Char} {o : Nat} {t : Text}
    (hb : ∀ (s : Spot) x u, s.rest = x :: u → c.contains x = true → b.first? s = none) :
    (Regex.seq (.star (.chars c) true) b).first? ⟨p, o, t⟩ = b.first? (past c p o t) := by
  rw [first?_seq, ends_star, findSome?_run hb]

theorem first?_chars {s : Spot} : (Regex.chars c).first? s = match s.rest with
    | x :: t => if c.contains x then some ⟨some x, s.offset + 1, t⟩ else none
    | [] => none := by
  obtain ⟨p, o, _ | ⟨x, t⟩⟩ := s
  · rfl
  · rw [first?, ends_chars]
    dsimp only
    split <;> rfl

/-! ## Shapes of patterns -/

theorem take_takeWhile_add (f : Char → Bool) (t : Text) (k : Nat) :
    t.take ((t.takeWhile f).length + k) = t.takeWhile f ++ (t.dropWhile f).take k := by
  have h : (t.takeWhile f ++ t.dropWhile f).take ((t.takeWhile f).length + k) =
      t.takeWhile f ++ (t.dropWhile f).take k := List.take_length_add_append k
  rwa [List.takeWhile_append_dropWhile] at h

theorem take_length_takeWhile (f : Char → Bool) (t : Text) : t.take (t.takeWhile f).length = t.takeWhile f := by
  simpa using take_takeWhile_add f t 0

theorem leading?_single {t : Text} : (Regex.seq .textStart (.chars c)).leading? t = match t with
    | x :: _ => if c.contains x then some [x] else none
    | [] => none := by
  rw [leading?_eq, first?_textStart_seq, first?_chars]
  cases t with
  | nil => rfl
  | cons x t =>
    by_cases hx : c.contains x = true
    · simp [Spot.start, hx]
    · simp [Spot.start, hx]

theorem leading?_word {head tail : CharClass} {t : Text} :
    (Regex.seq .textStart (.seq (.chars head) (.star (.chars tail) true))).leading? t = match t with
      | x :: t => if head.contains x then some (x :: t.takeWhile tail.contains) else none
      | [] => none := by
  rw [leading?_eq, first?_textStart_seq]
  cases t with
  | nil => rfl
  | cons x t =>
    rw [Spot.start, first?_chars_seq]
    by_cases hx : head.contains x = true
    · simp only [if_pos hx, first?_star, Option.map_some, past_offset]
      rw [Nat.zero_add, Nat.add_comm, List.take_succ_cons, take_length_takeWhile]
    · simp only [if_neg hx]
      rfl

theorem leading?_quoted {mark inner : CharClass} {t : Text}
    (h : ∀ x, inner.contains x = true → mark.contains x = false) :
    (Regex.seq .textStart (.seq (.chars mark) (.seq (.star (.chars inner) true) (.chars mark)))).leading? t =
      match t with
      | x :: t =>
        if mark.contains x then
          match t.dropWhile inner.contains with
          | y :: _ => if mark.contains y then some (x :: t.takeWhile inner.contains ++ [y]) else none
          | [] => none
        else none
      | [] => none := by
  have hmark : ∀ (s : Spot) x u, s.rest = x :: u → inner.contains x = true →
      (Regex.chars mark).first? s = none := by
    intro s x u hs hx
    rw [first?_chars, hs]
    simp [h x hx]
  rw [leading?_eq, first?_textStart_seq]
  cases t with
  | nil => rfl
  | cons x t =>
    rw [Spot.start, first?_chars_seq]
    by_cases hx : mark.contains x = true
    · simp only [if_pos hx]
      rw [first?_star_seq hmark, first?_chars, past_rest, past_offset]
      cases hd : t.dropWhile inner.contains with
      | nil => rfl
      | cons y u =>
        by_cases hy : mark.contains y = true
        · simp only [if_pos hy, Option.map_some]
          rw [show 0 + 1 + (t.takeWhile inner.contains).length + 1 = (t.takeWhile inner.contains).length + 1 + 1 by
            omega, List.take_succ_cons, take_takeWhile_add, hd]
          rfl
        · simp only [if_neg hy]
          rfl
    · simp only [if_neg hx]
      rfl

theorem leading?_around {inner mark : CharClass} {t : Text}
    (h : ∀ x, inner.contains x = true → mark.contains x = false) :
    (Regex.seq .textStart (.alt (.seq (.star (.chars inner) true) (.seq (.chars mark) (.star (.chars inner) true)))
      (.plus (.chars inner) true))).leading? t =
      let run := if (t.takeWhile inner.contains).isEmpty then none else some (t.takeWhile inner.contains)
      match t.dropWhile inner.contains with
      | y :: u =>
        if mark.contains y then some (t.takeWhile inner.contains ++ y :: u.takeWhile inner.contains) else run
      | [] => run := by
  have hmark : ∀ (s : Spot) x u, s.rest = x :: u → inner.contains x = true →
      (Regex.seq (.chars mark) (.star (.chars inner) true)).first? s = none := by
    rintro ⟨p, o, _⟩ x u rfl hx
    rw [first?_chars_seq, if_neg (by simp [h x hx])]
  have hplus : ((Regex.plus (.chars inner) true).first? (.start t)).map (fun s => t.take s.offset) =
      if (t.takeWhile inner.contains).isEmpty then none else some (t.takeWhile inner.contains) := by
    cases t with
    | nil => rfl
    | cons x t =>
      rw [Spot.start, first?_plus, List.takeWhile_cons]
      by_cases hx : inner.contains x = true
      · rw [if_pos hx, if_pos hx, Option.map_some, past_offset, Nat.zero_add, Nat.add_comm, List.take_succ_cons,
          take_length_takeWhile]
        rfl
      · rw [if_neg hx, if_neg hx]
        rfl
  rw [leading?_eq, first?_textStart_seq, first?_alt]
  have hstar : (Regex.seq (.star (.chars inner) true) (.seq (.chars mark) (.star (.chars inner) true))).first?
      (.start t) = _ := first?_star_seq hmark
  rw [hstar]
  -- the first run ends at `s`, which has the mark ahead or not
  generalize hs : past inner none 0 t = s
  have hoffset : s.offset = (t.takeWhile inner.contains).length := by
    rw [← hs, past_offset, Nat.zero_add]
  have hrest : s.rest = t.dropWhile inner.contains := by rw [← hs, past_rest]
  obtain ⟨p, o, u⟩ := s
  dsimp only at hoffset hrest
  subst hoffset
  rw [← hrest]
  cases u with
  | nil =>
    rw [first?_chars_seq_nil, Option.none_or]
    exact hplus
  | cons y u =>
    rw [first?_chars_seq]
    by_cases hy : mark.contains y = true
    · simp only [if_pos hy, first?_star, Option.some_or, Option.map_some, past_offset]
      rw [Nat.add_assoc, take_takeWhile_add, ← hrest, Nat.add_comm 1, List.take_succ_cons, take_length_takeWhile]
    · simp only [if_neg hy, Option.none_or]
      exact hplus

end Regex

/-! ## Patterns that are read -/

namespace Pattern

theorem ofSource?_eq_some {source : Text} {exact caseless : Regex}
    (he : Regex.read? false (anchored source) = some exact)
    (hc : Regex.read? true (anchored source) = some caseless) :
    Pattern.ofSource? source = some ⟨source, exact, caseless, he, hc⟩ := by
  unfold ofSource?
  split
  · rename_i exact' caseless' he' hc'
    cases he.symm.trans he'
    cases hc.symm.trans hc'
    rfl
  · rename_i h
    exact (h _ _ he hc).elim

end Pattern

end PegTree
