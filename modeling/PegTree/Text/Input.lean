import PegTree.Text.Basic

/-!
# Inputs

An input is a text that can be entered at any byte offset. A table holds what follows each
offset; inside a character there is nothing to follow.
-/

namespace PegTree

/-- What follows each byte offset of a text, `none` inside a character. -/
def suffixTable : Text → List (Option Text)
  | [] => [some []]
  | c :: t => some (c :: t) :: (List.replicate (c.utf8Size - 1) none ++ suffixTable t)

theorem length_suffixTable (t : Text) : (suffixTable t).length = byteSize t + 1 := by
  induction t with
  | nil => rfl
  | cons c t ih =>
    have := c.utf8Size_pos
    simp [suffixTable, ih]
    omega

theorem suffixTable_byteSize (s t : Text) : (suffixTable (s ++ t))[byteSize s]? = some (some t) := by
  induction s with
  | nil => cases t <;> simp [suffixTable]
  | cons c s ih =>
    have := c.utf8Size_pos
    obtain ⟨k, hk⟩ : ∃ k, c.utf8Size = k + 1 := ⟨c.utf8Size - 1, by omega⟩
    simp only [List.cons_append, suffixTable, byteSize_cons, hk, Nat.add_sub_cancel]
    rw [show k + 1 + byteSize s = (k + byteSize s) + 1 by omega, List.getElem?_cons_succ,
      List.getElem?_append_right (by simp), List.length_replicate, Nat.add_sub_cancel_left, ih]

theorem eq_append_of_suffixTable {t r : Text} {n : Nat} (h : (suffixTable t)[n]? = some (some r)) :
    ∃ s, t = s ++ r ∧ n = byteSize s := by
  induction t generalizing n with
  | nil =>
    cases n with
    | zero => exact ⟨[], by simpa [suffixTable] using h, rfl⟩
    | succ n => simp [suffixTable] at h
  | cons c t ih =>
    cases n with
    | zero =>
      simp only [suffixTable, List.getElem?_cons_zero, Option.some.injEq] at h
      exact ⟨[], h, rfl⟩
    | succ n =>
      have := c.utf8Size_pos
      simp only [suffixTable, List.getElem?_cons_succ] at h
      rcases Nat.lt_or_ge n (c.utf8Size - 1) with hn | hn
      · rw [List.getElem?_append_left (by simpa using hn)] at h
        simp [hn] at h
      · rw [List.getElem?_append_right (by simpa using hn)] at h
        obtain ⟨s, rfl, hs⟩ := ih h
        refine ⟨c :: s, rfl, ?_⟩
        simp only [List.length_replicate] at hs
        simp only [byteSize_cons]
        omega

structure Input where
  text : Text
  suffixes : Array (Option Text)
  suffixes_eq : suffixes = (suffixTable text).toArray
deriving DecidableEq

namespace Input

def ofText (t : Text) : Input := ⟨t, (suffixTable t).toArray, rfl⟩

def size (i : Input) : Nat := i.suffixes.size - 1

theorem size_eq (i : Input) : i.size = byteSize i.text := by
  simp [size, i.suffixes_eq, length_suffixTable]

def suffix? (i : Input) (offset : Nat) : Option Text := i.suffixes[offset]?.join

/-- The text from `offset` on, empty inside a character and past the end. -/
def rest (i : Input) (offset : Nat) : Text := (i.suffix? offset).getD []

/-- Whether a character starts or the input ends at `offset`. -/
def isBoundary (i : Input) (offset : Nat) : Bool := (i.suffix? offset).isSome

/-- The text between two boundaries. -/
def slice? (i : Input) (start stop : Nat) : Option Text :=
  if start ≤ stop then
    match i.suffix? start, i.suffix? stop with
    | some t, some _ => some (takeBytes (stop - start) t)
    | _, _ => none
  else none

theorem suffix?_eq_some_iff {i : Input} {offset : Nat} {r : Text} :
    i.suffix? offset = some r ↔ ∃ s, i.text = s ++ r ∧ offset = byteSize s := by
  have hd : i.suffix? offset = some r ↔ (suffixTable i.text)[offset]? = some (some r) := by
    simp [suffix?, i.suffixes_eq, Option.join_eq_some_iff]
  rw [hd]
  constructor
  · exact eq_append_of_suffixTable
  · rintro ⟨s, ht, rfl⟩
    rw [ht]
    exact suffixTable_byteSize s r

theorem isBoundary_iff {i : Input} {offset : Nat} :
    i.isBoundary offset = true ↔ ∃ s r, i.text = s ++ r ∧ offset = byteSize s := by
  simp only [isBoundary, Option.isSome_iff_exists, suffix?_eq_some_iff]
  exact exists_comm

theorem rest_byteSize {i : Input} {s r : Text} (h : i.text = s ++ r) : i.rest (byteSize s) = r := by
  rw [rest, suffix?_eq_some_iff.2 ⟨s, h, rfl⟩]
  rfl

theorem slice?_byteSize {i : Input} {s m r : Text} (h : i.text = s ++ m ++ r) :
    i.slice? (byteSize s) (byteSize s + byteSize m) = some m := by
  have hs : i.suffix? (byteSize s) = some (m ++ r) := suffix?_eq_some_iff.2 ⟨s, by simp [h], rfl⟩
  have hm : i.suffix? (byteSize s + byteSize m) = some r :=
    suffix?_eq_some_iff.2 ⟨s ++ m, h, by simp⟩
  simp [slice?, hs, hm, takeBytes_byteSize_append]

end Input

end PegTree
