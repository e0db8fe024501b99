import Mathlib.Data.Nat.Digits.Defs
import PegTree.Abnf.Compile
import PegTree.Proofs.Patterns

/-!
# Patterns for ranges of characters

The digits that a number is written with have the value of the number, and the pattern for a range
of characters is read as that range.
-/

namespace PegTree

/-! ## Digits -/

theorem numeralValue_concat (b : Nat) (u : Text) (c : Char) :
    numeralValue b (u ++ [c]) = numeralValue b u * b + digitValue c := by
  simp [numeralValue, List.foldl_append]

theorem digitValue_digitChar {d : Nat} (h : d < 16) : digitValue (Nat.digitChar d) = d := by
  revert d
  decide

/-- The digits of a number are digits, and their value is the number. -/
theorem numeralValue_toDigits {b : Nat} (hb : 1 < b) (hb' : b ≤ 16) (n : Nat) :
    numeralValue b (Nat.toDigits b n) = n ∧ ∀ c ∈ Nat.toDigits b n, isDigitOf b c = true := by
  induction n using Nat.strongRecOn with
  | ind n ih =>
    by_cases hn : n < b
    · rw [Nat.toDigits_of_lt_base hn]
      have hd := digitValue_digitChar (Nat.lt_of_lt_of_le hn hb')
      refine ⟨by simp [numeralValue, hd], List.forall_mem_singleton.2 ?_⟩
      simp [isDigitOf, hd, hn]
    · have hmod : n % b < b := Nat.mod_lt n (by omega)
      have hd := digitValue_digitChar (Nat.lt_of_lt_of_le hmod hb')
      obtain ⟨hv, hall⟩ := ih (n / b) (Nat.div_lt_self (by omega) hb)
      rw [Nat.toDigits_of_base_le hb (by omega)]
      refine ⟨?_, List.forall_mem_append.2 ⟨hall, List.forall_mem_singleton.2 ?_⟩⟩
      · rw [numeralValue_concat, hv, hd, Nat.mul_comm, Nat.div_add_mod]
      · simp [isDigitOf, hd, hmod]

theorem charOfCode?_toNat (c : Char) : charOfCode? c.toNat = some c := by
  unfold charOfCode?
  have hc : c.toNat.isValidChar := c.valid
  rw [if_pos hc, Char.ofNat_toNat]

theorem toNat_ofNat {code : Nat} (h : code.isValidChar) : (Char.ofNat code).toNat = code := by
  rw [Char.ofNat, dif_pos h]
  rfl

namespace Regex

variable {m : ReadMode} {lo hi : Char}

theorem skip_plain (hm : m.spaced = false) (t : Text) : m.skip t = t := by
  rw [ReadMode.skip, hm]
  rfl

/-- A character written by its digits in braces. -/
theorem readCode_hex (hm : m.spaced = false) (width : Nat) (c : Char) (rest : Text) :
    readCode m width ('\x7b' :: (Nat.toDigits 16 c.toNat ++ '\x7d' :: rest)) = some (.char c, rest) := by
  obtain ⟨hv, hall⟩ := numeralValue_toDigits (by decide : 1 < 16) (Nat.le_refl 16) c.toNat
  have hne : (Nat.toDigits 16 c.toNat).isEmpty = false := by
    rw [List.isEmpty_eq_false_iff]
    exact Nat.toDigits_ne_nil
  generalize Nat.toDigits 16 c.toNat = ds at hv hall hne
  have hdigit : ∀ x ∈ ds, (x != '\x7d') = true := by
    intro x hx
    rw [bne_iff_ne]
    rintro rfl
    exact absurd (hall _ hx) (by decide)
  have htake : (ds ++ '\x7d' :: rest).takeWhile (· != '\x7d') = ds := by
    rw [List.takeWhile_append_of_pos hdigit, List.takeWhile_cons_of_neg (by decide), List.append_nil]
  unfold readCode
  rw [skip_plain hm]
  simp only [htake, hm, List.drop_left, Bool.false_eq_true, if_false, hne, Bool.not_false, Bool.true_and,
    List.all_eq_true.2 hall, if_true, hv, charOfCode?_toNat, Option.map_some]

def codeText (c : Char) : Text := '\\' :: 'x' :: '\x7b' :: (Nat.toDigits 16 c.toNat ++ ['\x7d'])

theorem readClassItem_codeText (hm : m.spaced = false) (c : Char) (rest : Text) :
    readClassItem m (codeText c ++ rest) = some (.char c, rest) := by
  have h := readCode_hex hm 2 c rest
  have ht : codeText c ++ rest = '\\' :: 'x' :: '\x7b' :: (Nat.toDigits 16 c.toNat ++ '\x7d' :: rest) := by
    simp [codeText]
  rw [ht, readClassItem, readEscape, h]

theorem codeText_append (c : Char) (t : Text) : ∃ u, codeText c ++ t = '\\' :: u := ⟨_, rfl⟩

theorem readClassRange_codeText (hm : m.spaced = false) (h : lo.toNat ≤ hi.toNat) (rest : Text) :
    readClassRange m (codeText lo ++ '-' :: (codeText hi ++ rest)) = some (.range lo hi, rest) := by
  have hhi := readClassItem_codeText hm hi rest
  obtain ⟨u, hu⟩ := codeText_append hi rest
  rw [hu] at hhi ⊢
  unfold readClassRange
  rw [readClassItem_codeText hm]
  simp [skip_plain hm, hhi, h]

/-- A class that is one range, up to its closing bracket. -/
theorem readClass_codeText (hm : m.spaced = false) (h : lo.toNat ≤ hi.toNat) (fuel : Nat) (d : ClassDraft)
    (rest : Text) :
    readClass m (fuel + 2) d (codeText lo ++ '-' :: (codeText hi ++ ']' :: rest)) =
      some ((d.add (.range lo hi)).close m.ignoreCase, rest) := by
  have hlo := readClassRange_codeText hm h (']' :: rest)
  obtain ⟨u, hu⟩ := codeText_append lo ('-' :: (codeText hi ++ ']' :: rest))
  rw [hu] at hlo ⊢
  simp [readClass, skip_plain hm, hlo]

section
variable {ignoreCase : Bool} {d : GroupDraft} {names names' : List Text} {t t' : Text} {r : Regex} {c : CharClass}

theorem readGroup_textStart (fuel : Nat) :
    readGroup (fuel + 1) { ignoreCase } d names ('^' :: t) =
      readGroup fuel { ignoreCase } (d.add .textStart) names t := rfl

theorem readGroup_inner {fuel : Nat} (h : readGroup fuel { ignoreCase } {} names t = some (r, names', ')' :: t')) :
    readGroup (fuel + 1) { ignoreCase } d names ('(' :: '?' :: ':' :: t) =
      readGroup fuel { ignoreCase } (d.add r) names' t' := by
  show (readGroup fuel { ignoreCase } {} names t).bind _ = _
  rw [h]
  rfl

theorem readGroup_class {fuel : Nat} {u : Text}
    (h : readClass { ignoreCase } fuel ⟨false, none, .nothing⟩ ('\\' :: u) = some (c, t))
    (hc : c.isEmpty = false) :
    readGroup (fuel + 1) { ignoreCase } d names ('[' :: '\\' :: u) =
      readGroup fuel { ignoreCase } (d.add (.chars c)) names t := by
  show (readClass { ignoreCase } fuel ⟨false, none, .nothing⟩ ('\\' :: u)).bind _ = _
  rw [h]
  show (if c.isEmpty then none else readGroup fuel { ignoreCase } (d.add (.chars c)) names t) = _
  rw [hc]
  rfl

theorem readGroup_closed (fuel : Nat) :
    readGroup (fuel + 1) { ignoreCase } d names (')' :: t) = some (d.close, names, ')' :: t) := rfl

theorem readGroup_end (fuel : Nat) :
    readGroup (fuel + 1) { ignoreCase } d names [] = some (d.close, names, []) := rfl

end

end Regex

namespace Abnf

open Regex

theorem anchored_rangeSource (lo hi : Char) : anchored (rangeSource lo hi) =
    '^' :: '(' :: '?' :: ':' :: '[' :: (codeText lo ++ '-' :: (codeText hi ++ ']' :: [')'])) := by
  simp [anchored, rangeSource, codeText]

theorem read?_rangeSource {lo hi : Char} (h : lo.toNat ≤ hi.toNat) (ignoreCase : Bool) :
    Regex.read? ignoreCase (anchored (rangeSource lo hi)) =
      some (.seq .textStart (.chars (.forCase ignoreCase (.union .nothing (.range lo hi))))) := by
  obtain ⟨u, hu⟩ := codeText_append lo ('-' :: (codeText hi ++ ']' :: [')']))
  have hclass := fun fuel => readClass_codeText (m := { ignoreCase }) rfl h fuel ⟨false, none, .nothing⟩ [')']
  rw [anchored_rangeSource]
  rw [hu] at hclass ⊢
  have hempty : CharClass.isEmpty (.forCase ignoreCase (.union .nothing (.range lo hi))) = false := by
    have hrange : CharClass.isEmpty (.union .nothing (.range lo hi)) = false := by
      show (true && decide (hi.toNat < lo.toNat)) = false
      rw [Bool.true_and, decide_eq_false_iff_not]
      exact Nat.not_lt.2 h
    cases ignoreCase
    · exact hrange
    · exact hrange
  have hinner : readGroup (u.length + 5) { ignoreCase } {} [] ('[' :: '\\' :: u) =
      some (.chars (.forCase ignoreCase (.union .nothing (.range lo hi))), [], [')']) := by
    rw [readGroup_class (hclass _) hempty, readGroup_closed]
    rfl
  have hlen : ('^' :: '(' :: '?' :: ':' :: '[' :: '\\' :: u).length + 1 = u.length + 7 := rfl
  unfold Regex.read?
  rw [hlen, readGroup_textStart, readGroup_inner hinner, readGroup_end]
  rfl

theorem pattern_rangeSource {lo hi : Char} (h : lo.toNat ≤ hi.toNat) : ∃ p : Pattern,
    p.source = rangeSource lo hi ∧ Expr.pattern (rangeSource lo hi) = .ok (.literal false [.pattern p] none) := by
  have hp := Pattern.ofSource?_eq_some (read?_rangeSource h false) (read?_rangeSource h true)
  unfold Expr.pattern
  rw [hp]
  exact ⟨_, rfl, rfl⟩

end Abnf

end PegTree
