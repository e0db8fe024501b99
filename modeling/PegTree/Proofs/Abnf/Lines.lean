import PegTree.Proofs.Abnf.Blocks

/-!
# Texts line by line

A text may be made of lines that define one rule each. Then it defines the rules of its lines in their order.
-/

namespace PegTree.Abnf

def filledLines (t : Text) : List Text := (lines t).filter (!·.isEmpty)

def soleDefinition? (t : Text) : Option (String × Expr) :=
  (compile t).toOption.bind fun d => match d.rules with
    | [r] => some r
    | _ => none

/-- A line of a text that begins with something visible and defines one rule. -/
structure DefiningLine (l : Text) : Prop where
  flush : ∀ c ∈ l.head?, isBlank c = false
  sole : (soleDefinition? l).isSome = true

section
variable {l t : Text} {ls : List Text}

theorem soleDefinition?_eq_some {r : String × Expr} (h : soleDefinition? l = some r) : compile l = .ok ⟨[r]⟩ := by
  unfold soleDefinition? at h
  cases hc : compile l with
  | error e => simp [hc, Except.toOption] at h
  | ok d =>
    obtain ⟨rules⟩ := d
    rw [hc] at h
    match rules, h with
    | [r'], h => simpa [Except.toOption] using h

theorem compile_normalize (t : Text) : compile (normalize t) = compile t := by
  unfold compile
  rw [normalize_normal (normal_normalize t)]

/-! ## Normal lines -/

theorem trimRight_prefix (l : Text) : trimRight l <+: l := by
  rw [← List.reverse_suffix, trimRight, List.reverse_reverse]
  exact List.dropWhile_suffix _

theorem tidy_trimRight (hl : '\n' ∉ l) (hne : l ≠ []) (hf : ∀ c ∈ l.head?, isBlank c = false) :
    Tidy (trimRight l) := by
  obtain ⟨c, w, rfl⟩ := List.exists_cons_of_ne_nil hne
  have hc : isBlank c = false := hf c rfl
  have hmem : c ∈ trimRight (c :: w) := mem_trimRight List.mem_cons_self hc
  have hsolid : Solid (trimRight (c :: w)) := by
    apply solidLines_are_solid (t := c :: w)
    have hfull : (trimRight (c :: w)).isEmpty = false := by simp [List.ne_nil_of_mem hmem]
    simp [solidLines, lines_last hl, hfull]
  obtain ⟨x, hx⟩ := trimRight_prefix (c :: w)
  obtain ⟨c', v, hv⟩ := List.exists_cons_of_ne_nil hsolid.ne_nil
  rw [hv] at hx
  obtain ⟨rfl, _⟩ := List.cons_eq_cons.1 hx
  exact ⟨hsolid, c', v, hv, hc⟩

theorem filledLines_inner (hl : l ∈ filledLines t) : '\n' ∉ l ∧ l ≠ [] := by
  obtain ⟨hmem, hne⟩ := List.mem_filter.1 hl
  exact ⟨lines_inner l hmem, by simpa using hne⟩

theorem normalize_flush (h : ∀ l ∈ filledLines t, ∀ c ∈ l.head?, isBlank c = false) :
    normalize t = (filledLines t).flatMap (trimRight · ++ ['\n']) := by
  have htidy : ∀ l ∈ (filledLines t).map trimRight, Tidy l := by
    intro l hl
    obtain ⟨l₀, hl₀, rfl⟩ := List.mem_map.1 hl
    obtain ⟨hin, hne⟩ := filledLines_inner hl₀
    exact tidy_trimRight hin hne (h l₀ hl₀)
  have hlines : solidLines t = (filledLines t).map trimRight := by
    unfold solidLines filledLines
    rw [List.filter_map]
    congr 1
    apply List.filter_congr
    intro l hl
    by_cases hne : l = []
    · simp [hne, trimRight]
    · have hmem : l ∈ filledLines t := List.mem_filter.2 ⟨hl, by simpa using hne⟩
      have htrim : (trimRight l).isEmpty = false :=
        List.isEmpty_eq_false_iff.2 (htidy _ (List.mem_map_of_mem hmem)).ne_nil
      have hline : l.isEmpty = false := List.isEmpty_eq_false_iff.2 hne
      rw [Function.comp_apply, htrim, hline]
  have hshared : sharedIndent (solidLines t) = 0 := by
    rw [hlines]
    cases hls : (filledLines t).map trimRight with
    | nil => rfl
    | cons l ls =>
      rw [hls] at htidy
      exact sharedIndent_eq_zero List.mem_cons_self (htidy l List.mem_cons_self).indentOf
  unfold normalize
  simp only [hshared, List.drop_zero]
  rw [hlines, List.flatMap_map]

theorem normalize_line (hl : '\n' ∉ l) (hne : l ≠ []) (hf : ∀ c ∈ l.head?, isBlank c = false) :
    normalize l = trimRight l ++ ['\n'] := by
  have hlines : filledLines l = [l] := by simp [filledLines, lines_last hl, hne]
  rw [normalize_flush (by simpa [hlines] using hf), hlines]
  simp

/-! ## Lines that define -/

theorem compile_blocks (h : ∀ l ∈ ls, '\n' ∉ l ∧ l ≠ [] ∧ DefiningLine l)
    (hn : ((ls.filterMap soleDefinition?).map (·.1)).Nodup) :
    compile (ls.flatMap (trimRight · ++ ['\n'])) = .ok ⟨ls.filterMap soleDefinition?⟩ := by
  -- a line is a block that joins the block of the lines after it
  induction ls with
  | nil => decide +kernel
  | cons l ls ih =>
    obtain ⟨⟨hl, hne, hdef⟩, hls⟩ := List.forall_mem_cons.1 h
    obtain ⟨r, hr⟩ := Option.isSome_iff_exists.1 hdef.sole
    rw [List.filterMap_cons_some hr] at hn ⊢
    obtain ⟨hfresh, hn⟩ := List.nodup_cons.1 hn
    have htidy : ∀ l ∈ ls.map trimRight, Tidy l := by
      intro l' hl'
      obtain ⟨l₀, hl₀, rfl⟩ := List.mem_map.1 hl'
      obtain ⟨hin, hne, hdef⟩ := hls l₀ hl₀
      exact tidy_trimRight hin hne hdef.flush
    have hnormal : normalize (ls.flatMap (trimRight · ++ ['\n'])) = ls.flatMap (trimRight · ++ ['\n']) := by
      rw [← List.flatMap_map trimRight (· ++ ['\n'])]
      exact normalize_tidy htidy
    have hhead : ∀ c ∈ (ls.flatMap (trimRight · ++ ['\n'])).head?, isBlank c = false := by
      cases ls with
      | nil => simp
      | cons l' ls =>
        obtain ⟨c, v, hv, hc⟩ := (htidy (trimRight l') List.mem_cons_self).first
        simp [hv, hc]
    have hsame : normalize (trimRight l ++ ['\n']) = trimRight l ++ ['\n'] := by
      rw [← normalize_line hl hne hdef.flush]
      exact normalize_normal (normal_normalize l)
    have hfirst : compile (trimRight l ++ ['\n']) = .ok ⟨[r]⟩ := by
      rw [← normalize_line hl hne hdef.flush, compile_normalize]
      exact soleDefinition?_eq_some hr
    rw [List.flatMap_cons, compile_joined hsame hnormal hfirst (ih hls hn) hhead]
    apply joined_fresh
    intro name hname hmem
    rw [List.mem_singleton.1 hmem] at hname
    exact hfresh hname

/-- A text of lines that define one rule each, under different names, defines the rules of its lines. -/
theorem compile_lines (h : ∀ l ∈ filledLines t, DefiningLine l)
    (hn : (((filledLines t).filterMap soleDefinition?).map (·.1)).Nodup) :
    compile t = .ok ⟨(filledLines t).filterMap soleDefinition?⟩ := by
  rw [← compile_normalize, normalize_flush fun l hl => (h l hl).flush]
  apply compile_blocks _ hn
  intro l hl
  obtain ⟨hin, hne⟩ := filledLines_inner hl
  exact ⟨hin, hne, h l hl⟩

end

end PegTree.Abnf
