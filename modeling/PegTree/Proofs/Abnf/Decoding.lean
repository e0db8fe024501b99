import PegTree.Proofs.Abnf.Lexemes

/-!
# Terminals and bounds as they were meant

The numbers of a written value or of written bounds are never too large, so they are read as they were meant.
-/

namespace PegTree.Abnf

/-! ## Numeric values -/

theorem charOf_toNat (c : Char) : charOf c.toNat = .ok c := by rw [charOf, charOfCode?_toNat]

theorem mapM_charOf (cs : Text) : (cs.map Char.toNat).mapM charOf = .ok cs := by
  induction cs with
  | nil => rfl
  | cons c cs ih =>
    rw [List.map_cons, List.mapM_cons, charOf_toNat, ih]
    rfl

theorem pattern_range {low high : Char} (h : low.toNat ≤ high.toNat) :
    Expr.pattern (rangeSource low high) = .ok (.literal false [.pattern (rangePattern low high h)] none) := by
  obtain ⟨p, hsource, hp⟩ := pattern_rangeSource h
  have he : p = rangePattern low high h := Pattern.eq_of_source_eq hsource
  rw [hp, he]

theorem numVal_codes {t u : Text} (h : decodeNumVal t = .ok (.codes (u.map Char.toNat))) :
    numVal t = .ok (.literal false [.text u] (some true)) := by
  unfold numVal
  rw [h]
  show ((u.map Char.toNat).mapM charOf >>= _) = _
  rw [mapM_charOf]
  rfl

theorem numVal_range {t : Text} {low high : Char} (h : decodeNumVal t = .ok (.range low.toNat high.toNat))
    (hle : low.toNat ≤ high.toNat) :
    numVal t = .ok (.literal false [.pattern (rangePattern low high hle)] (some true)) := by
  unfold numVal
  rw [h]
  simp only [Except.mapError, bind, Except.bind, charOf_toNat, pattern_range hle, if_neg (Nat.not_lt.2 hle)]
  rfl

def Value.numerals : (v : Value) → Numerals v.base.radix
  | .codes _ first more => .row first.toNumeral (more.map (·.toNumeral))
  | .range _ low high _ => .span low.toNumeral high.toNumeral

def Value.lexeme (v : Value) : ValueLexeme := ⟨v.base, false, v.numerals⟩

theorem Value.written_lexeme (v : Value) : v.lexeme.written = v.written := by
  cases v with
  | codes base first more =>
    simp [lexeme, ValueLexeme.written, Value.written, Value.body, numerals, Numerals.written, Numerals.dots,
      Value.base, Base.sign, List.flatMap_map]
  | range base low high h => rfl

theorem Value.small_lexeme (v : Value) : v.lexeme.Small := by
  have hcode : ∀ {b : Nat} (c : Code b), c.value < 2 ^ 32 := by
    intro b c
    rw [c.value_eq]
    have hc : c.char.toNat.isValidChar := c.char.valid
    unfold Nat.isValidChar at hc
    omega
  cases v with
  | codes base first more =>
    refine List.forall_mem_cons.2 ⟨hcode first, List.forall_mem_map.2 fun c _ => hcode c⟩
  | range base low high h => exact List.forall_mem_cons.2 ⟨hcode low, List.forall_mem_singleton.2 (hcode high)⟩

/-- A numeric value is read as the very characters that it stands for. -/
theorem numVal_written (v : Value) : numVal v.written = .ok (.literal false [v.matcher] (some true)) := by
  have hd := decodeNumVal_written v.small_lexeme
  rw [v.written_lexeme] at hd
  cases v with
  | codes base first more =>
    refine numVal_codes (u := first.char :: more.map (·.char)) (hd.trans ?_)
    have hmore : (more.map (·.toNumeral)).map (·.value) = (more.map (·.char)).map Char.toNat := by
      rw [List.map_map, List.map_map]
      exact List.map_congr_left fun c _ => c.value_eq
    show Except.ok (NumVal.codes (first.value :: (more.map (·.toNumeral)).map (·.value))) = _
    rw [first.value_eq, hmore]
    rfl
  | range base low high h =>
    refine numVal_range (hd.trans ?_) h
    show Except.ok (NumVal.range low.value high.value) = _
    rw [low.value_eq, high.value_eq]

/-! ## Bounds -/

def Bounds.lexeme : Bounds → BoundsLexeme
  | .exactly n => .exactly n.toNumeral
  | .within low high _ => .within (low.map (·.toNumeral)) (high.map (·.toNumeral))

theorem Bounds.written_lexeme (b : Bounds) : b.lexeme.written = b.written := by
  cases b with
  | exactly n => rfl
  | within low high h => cases low <;> cases high <;> rfl

theorem Bounds.low_le (b : Bounds) : b.high.any (· < b.low) = false := by
  cases b with
  | exactly n => simp [high, low]
  | within low high h =>
    cases low with
    | none => cases high <;> simp [Bounds.high, Bounds.low]
    | some l =>
      cases high with
      | none => rfl
      | some m => exact decide_eq_false (Nat.not_lt.2 (h l rfl m rfl))

theorem Bounds.small_lexeme (b : Bounds) : b.lexeme.Small := by
  cases b with
  | exactly n => exact List.forall_mem_singleton.2 n.lt
  | within low high h =>
    refine List.forall_mem_append.2 ⟨?_, ?_⟩
    · cases low with
      | none => exact List.forall_mem_nil _
      | some n => exact List.forall_mem_singleton.2 n.lt
    · cases high with
      | none => exact List.forall_mem_nil _
      | some n => exact List.forall_mem_singleton.2 n.lt

theorem Bounds.value_lexeme (b : Bounds) : b.lexeme.low = b.low ∧ b.lexeme.high = b.high := by
  cases b with
  | exactly n => exact ⟨rfl, rfl⟩
  | within low high h => cases low <;> cases high <;> exact ⟨rfl, rfl⟩

/-- The bounds of a repetition are read as they were meant. -/
theorem Bounds.decoded (b : Bounds) : decodeBounds b.written = .ok (b.low, b.high) := by
  have h := decodeBounds_written b.small_lexeme
  rw [b.value_lexeme.1, b.value_lexeme.2, b.low_le, b.written_lexeme] at h
  exact h

end PegTree.Abnf
