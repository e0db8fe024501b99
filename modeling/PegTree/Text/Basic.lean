/-!
# Texts and their sizes in bytes

A text is a list of characters. Places in a text are counted in bytes of its UTF-8 form, so a
character is one to four places wide.
-/

namespace PegTree

abbrev Text := List Char

def byteSize : Text → Nat
  | [] => 0
  | c :: t => c.utf8Size + byteSize t

@[simp] theorem byteSize_nil : byteSize [] = 0 := rfl

@[simp] theorem byteSize_cons (c : Char) (t : Text) : byteSize (c :: t) = c.utf8Size + byteSize t := rfl

@[simp] theorem byteSize_append (s t : Text) : byteSize (s ++ t) = byteSize s + byteSize t := by
  induction s with
  | nil => simp
  | cons c s ih => rw [List.cons_append, byteSize_cons, byteSize_cons, ih, Nat.add_assoc]

/-- The characters that fit into the first `n` bytes. -/
def takeBytes : Nat → Text → Text
  | _, [] => []
  | n, c :: t => if c.utf8Size ≤ n then c :: takeBytes (n - c.utf8Size) t else []

theorem takeBytes_byteSize_append (s t : Text) : takeBytes (byteSize s) (s ++ t) = s := by
  induction s with
  | nil =>
    cases t with
    | nil => rfl
    | cons c t =>
      have := c.utf8Size_pos
      simp [takeBytes]
      omega
  | cons c s ih => simp [takeBytes, ih]

/-- The start of `t` that agrees with `pattern` character by character under `same`. -/
def leading? (same : Char → Char → Bool) : (pattern t : Text) → Option Text
  | [], _ => some []
  | _ :: _, [] => none
  | p :: ps, c :: cs => if same p c then (leading? same ps cs).map (c :: ·) else none

theorem leading?_append {same : Char → Char → Bool} {p t s : Text} (h : leading? same p t = some s) :
    ∃ rest, t = s ++ rest := by
  induction p generalizing t s with
  | nil => exact ⟨t, by simp_all [leading?]⟩
  | cons p ps ih =>
    cases t with
    | nil => simp [leading?] at h
    | cons c cs =>
      simp only [leading?] at h
      split at h
      · obtain ⟨s', hs, rfl⟩ := Option.map_eq_some_iff.1 h
        obtain ⟨rest, rfl⟩ := ih hs
        exact ⟨rest, rfl⟩
      · simp at h

end PegTree
