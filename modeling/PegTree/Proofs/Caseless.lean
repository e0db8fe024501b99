import PegTree.Matcher
import PegTree.Proofs.Span

/-!
# Texts in either case

A text is found in either case where the input goes on with as many characters, one by one of the same
lower case form. How many bytes they take is up to the input, so it is read off the place of the next
character.
-/

namespace PegTree

/-! ## Agreement character by character -/

theorem leading?_caseless (needle t : Text) : leading? sameCaseless needle t =
    if needle.map lowerCase <+: t.map lowerCase then some (t.take needle.length) else none := by
  induction needle generalizing t with
  | nil => simp [leading?]
  | cons n needle ih =>
    cases t with
    | nil => simp [leading?]
    | cons c t =>
      simp only [leading?, ih, sameCaseless, List.map_cons, List.cons_prefix_cons]
      by_cases hc : lowerCase n = lowerCase c
      · by_cases ht : needle.map lowerCase <+: t.map lowerCase <;> simp [hc, ht]
      · simp [hc]

theorem leading?_mono {same same' : Char → Char → Bool} (h : ∀ a b, same a b = true → same' a b = true)
    {needle t u : Text} (hu : leading? same needle t = some u) : leading? same' needle t = some u := by
  induction needle generalizing t u with
  | nil => exact hu
  | cons n needle ih =>
    cases t with
    | nil => cases hu
    | cons c t =>
      rw [leading?] at hu ⊢
      by_cases hc : same n c = true
      · rw [if_pos hc] at hu
        obtain ⟨v, hv, rfl⟩ := Option.map_eq_some_iff.1 hu
        rw [if_pos (h n c hc), ih hv, Option.map_some]
      · rw [if_neg hc] at hu
        cases hu

theorem leadingText?_caseless {needle t u : Text} (h : leadingText? needle true t = some u) :
    leadingText? needle false t = some u := by
  refine leading?_mono (fun a b hab => ?_) h
  have heq : a = b := by simpa using hab
  simp [heq, sameCaseless]

theorem map_prefix_iff (needle t : Text) : needle.map lowerCase <+: t.map lowerCase ↔
    needle.length ≤ t.length ∧ ∀ k < needle.length, (t[k]?).map lowerCase = (needle[k]?).map lowerCase := by
  rw [List.prefix_iff_getElem?]
  simp only [List.length_map, List.getElem?_map, List.getElem_map]
  constructor
  · intro h
    have hsome : ∀ k (hk : k < needle.length), (t[k]?).map lowerCase = (needle[k]?).map lowerCase := by
      intro k hk
      rw [h k hk, List.getElem?_eq_getElem hk, Option.map_some]
    refine ⟨?_, hsome⟩
    by_contra hlt
    have hk : t.length < needle.length := by omega
    have hlast := hsome t.length hk
    rw [List.getElem?_eq_none (Nat.le_refl _), List.getElem?_eq_getElem hk] at hlast
    cases hlast
  · rintro ⟨_, h⟩ k hk
    rw [h k hk, List.getElem?_eq_getElem hk, Option.map_some]

/-! ## The scan by offsets -/

def charOffsets (offset : Nat) : Text → List (Nat × Char)
  | [] => []
  | c :: t => (offset, c) :: charOffsets (offset + c.utf8Size) t

/-- Compares `needle` with one character after the other. A match ends where the next character begins, and at
`stop` if there is none. -/
def scanCaseless (stop : Nat) : (needle : Text) → List (Nat × Char) → Option Nat
  | [], [] => some stop
  | [], (offset, _) :: _ => some offset
  | _ :: _, [] => none
  | n :: needle, (_, c) :: rest => if lowerCase c = lowerCase n then scanCaseless stop needle rest else none

def caselessSize? (t needle : Text) : Option Nat := scanCaseless (byteSize t) needle (charOffsets 0 t)

theorem scanCaseless_eq (offset : Nat) (needle t : Text) :
    scanCaseless (offset + byteSize t) needle (charOffsets offset t) =
      (leading? sameCaseless needle t).map (offset + byteSize ·) := by
  induction needle generalizing offset t with
  | nil => cases t <;> simp [scanCaseless, charOffsets, leading?]
  | cons n needle ih =>
    cases t with
    | nil => simp [scanCaseless, charOffsets, leading?]
    | cons c t =>
      have hrest := ih (offset + c.utf8Size) t
      rw [charOffsets, scanCaseless, leading?, byteSize_cons, ← Nat.add_assoc, hrest, sameCaseless]
      by_cases hc : lowerCase n = lowerCase c
      · simp [hc, Function.comp_def, Nat.add_assoc]
      · simp [hc, Ne.symm hc]

theorem caselessSize?_eq (t needle : Text) :
    caselessSize? t needle = (leadingText? needle false t).map byteSize := by
  have h := scanCaseless_eq 0 needle t
  simpa [caselessSize?, leadingText?] using h

/-! ## Cursors -/

namespace Cursor

def after (c : Cursor) (found : Option (Text × Cursor)) : Cursor := found.elim c (·.2)

theorem acceptText?_eq {c : Cursor} (hc : c.input.isBoundary c.offset = true) (needle : Text)
    (caseSensitive : Bool) :
    c.acceptText? needle caseSensitive =
      .ok ((leadingText? needle caseSensitive c.rest).map fun t => (t, ⟨c.input, c.offset + byteSize t⟩)) := by
  unfold acceptText? accept? advance
  cases leadingText? needle caseSensitive c.rest with
  | none => rfl
  | some t =>
    simp only [if_pos hc]
    rfl

/-- A text is found in either case just if the rest of the input has as many characters and they agree in their
full lower case forms, one by one. Then it is these characters that are found, whatever bytes they take, and
the cursor is behind them; otherwise it stays. What is found as it is written is found in either case. -/
theorem caseless_exact {c : Cursor} (hc : c.input.isBoundary c.offset = true) (needle : Text) :
    ((∃ found, c.acceptText? needle false = .ok (some found)) ↔ needle.length ≤ c.rest.length ∧
      ∀ k < needle.length, (c.rest[k]?).map lowerCase = (needle[k]?).map lowerCase) ∧
    (∀ t stop, c.acceptText? needle false = .ok (some (t, stop)) →
      t = c.rest.take needle.length ∧ t.length = needle.length ∧ c.input.Span c.offset stop.offset t ∧
        stop.input = c.input) ∧
    (∃ found, c.acceptText? needle false = .ok found ∧
      found.map (byteSize ·.1) = caselessSize? c.rest needle ∧
      c.after found = ⟨c.input, c.offset + (caselessSize? c.rest needle).getD 0⟩) ∧
    ∀ found, c.acceptText? needle true = .ok (some found) → c.acceptText? needle false = .ok (some found) := by
  have hlead : leadingText? needle false c.rest =
      if needle.map lowerCase <+: c.rest.map lowerCase then some (c.rest.take needle.length) else none :=
    leading?_caseless needle c.rest
  rw [acceptText?_eq hc, acceptText?_eq hc, caselessSize?_eq, ← map_prefix_iff]
  refine ⟨?_, ?_, ?_, ?_⟩
  · rw [hlead]
    by_cases hp : needle.map lowerCase <+: c.rest.map lowerCase <;> simp [hp]
  · intro t stop h
    obtain ⟨u, hu, he⟩ := Option.map_eq_some_iff.1 (Except.ok.inj h)
    cases he
    obtain ⟨rest, hrest⟩ := leadingText?_append hu
    have hspan := Input.Span.of_rest hc hrest
    rw [hlead] at hu
    by_cases hp : needle.map lowerCase <+: c.rest.map lowerCase
    · rw [if_pos hp] at hu
      cases hu
      have hlength := ((map_prefix_iff needle c.rest).1 hp).1
      exact ⟨rfl, List.length_take_of_le hlength, hspan, rfl⟩
    · rw [if_neg hp] at hu
      cases hu
  · refine ⟨_, rfl, ?_⟩
    cases leadingText? needle false c.rest with
    | none => exact ⟨rfl, rfl⟩
    | some t => exact ⟨rfl, rfl⟩
  · intro found h
    obtain ⟨t, ht, rfl⟩ := Option.map_eq_some_iff.1 (Except.ok.inj h)
    rw [leadingText?_caseless ht, Option.map_some]

def kelvins : Cursor := ⟨.ofText ['4', Char.ofNat 0x212a, 'K', '.'], 1⟩

theorem caseless_exact_kelvins : kelvins.input.isBoundary kelvins.offset = true ∧
    (∃ stop, kelvins.acceptText? ['k', 'k'] false = .ok (some ([Char.ofNat 0x212a, 'K'], stop)) ∧
      stop.offset = 5) ∧
    kelvins.acceptText? ['k', 'k'] true = .ok none := by
  have hc : kelvins.input.isBoundary kelvins.offset = true := by decide
  obtain ⟨hiff, hfound, _, _⟩ := caseless_exact hc ['k', 'k']
  have hagree : ['k', 'k'].length ≤ kelvins.rest.length ∧
      ∀ k < ['k', 'k'].length, (kelvins.rest[k]?).map lowerCase = (['k', 'k'][k]?).map lowerCase := by
    decide
  obtain ⟨⟨t, stop⟩, h⟩ := hiff.2 hagree
  obtain ⟨ht, _, hspan, _⟩ := hfound t stop h
  have htake : kelvins.rest.take ['k', 'k'].length = [Char.ofNat 0x212a, 'K'] := by decide
  rw [htake] at ht
  subst ht
  have hstrict : leadingText? ['k', 'k'] true kelvins.rest = none := by decide
  refine ⟨hc, ⟨stop, h, hspan.byteSize_eq⟩, ?_⟩
  rw [acceptText?_eq hc, hstrict, Option.map_none]

end Cursor

end PegTree
