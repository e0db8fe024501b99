import PegTree.Proofs.Abnf.Syntax

/-!
# Definitions one after another

Defining rules in the order in which they are written gives what the definitions mean together.
-/

namespace PegTree.Abnf

/-! ## Looking names up -/

theorem lookup_graph {α β : Type} [BEq α] [LawfulBEq α] (f : α → β) (x : α) (xs : List α) :
    (xs.map fun a => (a, f a)).lookup x = if x ∈ xs then some (f x) else none := by
  induction xs with
  | nil => simp
  | cons a xs ih =>
    rw [List.map_cons, List.lookup_cons, ih]
    by_cases hx : x = a
    · subst hx
      simp
    · have hb : (x == a) = false := by simp [hx]
      simp [hb, hx]

theorem eraseDups_concat {α : Type} [BEq α] [LawfulBEq α] (xs : List α) (x : α) :
    (xs ++ [x]).eraseDups = if x ∈ xs then xs.eraseDups else xs.eraseDups ++ [x] := by
  rw [List.eraseDups_append]
  by_cases hx : x ∈ xs
  · simp [List.removeAll, hx]
  · simp [List.removeAll, hx, List.eraseDups_cons]

/-! ## Meanings -/

theorem united_concat {es : List Expr} (e : Expr) (hes : es ≠ []) : united (es ++ [e]) = (united es).orElse e := by
  cases es with
  | nil => exact absurd rfl hes
  | cons a es =>
    cases es with
    | nil => simp [united, Expr.orElse]
    | cons b es => simp [united, Expr.orElse, Expr.alternatives]

def sharedExpr (ds : List Definition) (name : String) : Expr :=
  united ((ds.filter (·.label == name)).map (·.rhs.expr))

theorem meaning_eq (ds : List Definition) :
    meaning ds = ⟨(ds.map (·.label)).eraseDups.map fun n => (n, sharedExpr ds n)⟩ := rfl

theorem meaning_get? (ds : List Definition) (name : String) :
    (meaning ds).get? name = if name ∈ ds.map (·.label) then some (sharedExpr ds name) else none := by
  unfold Definitions.get?
  rw [meaning_eq, lookup_graph (sharedExpr ds)]
  simp only [List.mem_eraseDups]

section
variable {ds : List Definition} {d : Definition} {name : String}

theorem sharedExpr_other (h : name ≠ d.label) : sharedExpr (ds ++ [d]) name = sharedExpr ds name := by
  have hb : (d.label == name) = false := by simp [Ne.symm h]
  simp [sharedExpr, List.filter_append, hb]

theorem sharedExpr_first (h : d.label ∉ ds.map (·.label)) : sharedExpr (ds ++ [d]) d.label = d.rhs.expr := by
  have hf : ds.filter (·.label == d.label) = [] := by
    rw [List.filter_eq_nil_iff]
    intro a ha hl
    exact h (List.mem_map.2 ⟨a, ha, by simpa using hl⟩)
  simp [sharedExpr, List.filter_append, hf, united]

theorem sharedExpr_later (h : d.label ∈ ds.map (·.label)) :
    sharedExpr (ds ++ [d]) d.label = (sharedExpr ds d.label).orElse d.rhs.expr := by
  have hf : (ds.filter (·.label == d.label)).map (·.rhs.expr) ≠ [] := by
    obtain ⟨a, ha, hl⟩ := List.mem_map.1 h
    simp only [ne_eq, List.map_eq_nil_iff, List.filter_eq_nil_iff, not_forall]
    exact ⟨a, ha, by simp [hl]⟩
  simp [sharedExpr, List.filter_append, united_concat _ hf]

theorem meaning_first (h : d.label ∉ ds.map (·.label)) :
    meaning (ds ++ [d]) = ⟨(meaning ds).rules ++ [(d.label, d.rhs.expr)]⟩ := by
  have hmap : ∀ n ∈ (ds.map (·.label)).eraseDups, (n, sharedExpr (ds ++ [d]) n) = (n, sharedExpr ds n) := by
    intro n hn
    rw [sharedExpr_other fun he => h (he ▸ List.mem_eraseDups.1 hn)]
  rw [meaning_eq, meaning_eq, List.map_append, List.map_singleton, eraseDups_concat, if_neg h, List.map_append,
    List.map_congr_left hmap, List.map_singleton, sharedExpr_first h]

theorem meaning_later (h : d.label ∈ ds.map (·.label)) :
    meaning (ds ++ [d]) = (meaning ds).extend d.label d.rhs.expr := by
  have hmap : ∀ n ∈ (ds.map (·.label)).eraseDups, (n, sharedExpr (ds ++ [d]) n) =
      if n == d.label then (n, (sharedExpr ds n).orElse d.rhs.expr) else (n, sharedExpr ds n) := by
    intro n hn
    by_cases hd : n = d.label
    · subst hd
      rw [sharedExpr_later h]
      simp
    · rw [sharedExpr_other hd]
      simp [hd]
  unfold Definitions.extend
  rw [meaning_eq, meaning_eq, List.map_append, List.map_singleton, eraseDups_concat, if_pos h,
    List.map_congr_left hmap, List.map_map]
  rfl

end

/-! ## Definitions in a row -/

/-- Defines rules by the operators that they are written with. -/
def bindAll (seen : List String) : List Definition → Definitions → Except Error Definitions
  | [], m => .ok m
  | d :: ds, m => do bindAll (d.label :: seen) ds (← m.define d.label (String.ofList (d.operator seen)) d.rhs.expr)

theorem define_meaning {seen : List String} {ds : List Definition} (d : Definition)
    (h : d.label ∈ seen ↔ d.label ∈ ds.map (·.label)) :
    (meaning ds).define d.label (String.ofList (d.operator seen)) d.rhs.expr = .ok (meaning (ds ++ [d])) := by
  unfold Definitions.define Definition.operator
  rw [meaning_get?]
  by_cases hd : d.label ∈ ds.map (·.label)
  · have hop : String.ofList ['=', '/'] ≠ "=" := by decide
    have hop' : String.ofList ['=', '/'] = "=/" := by decide
    rw [if_pos (h.2 hd), if_neg hop, if_pos hop', if_pos hd, Option.isSome_some, if_pos rfl, meaning_later hd]
  · have hop : String.ofList ['='] = "=" := by decide
    rw [if_neg fun hs => hd (h.1 hs), if_pos hop, if_neg hd, meaning_first hd]
    rfl

theorem bindAll_meaning (seen : List String) (ds es : List Definition) (h : ∀ n, n ∈ seen ↔ n ∈ ds.map (·.label)) :
    bindAll seen es (meaning ds) = .ok (meaning (ds ++ es)) := by
  induction es generalizing seen ds with
  | nil => rw [List.append_nil, bindAll]
  | cons d es ih =>
    have hseen : ∀ n, n ∈ d.label :: seen ↔ n ∈ (ds ++ [d]).map (·.label) := by
      intro n
      simp [h n, or_comm]
    have hrest := ih (d.label :: seen) (ds ++ [d]) hseen
    rw [List.append_assoc, List.singleton_append] at hrest
    rw [bindAll, define_meaning d (h d.label)]
    exact hrest

theorem bindAll_start (ds : List Definition) : bindAll [] ds {} = .ok (meaning ds) :=
  bindAll_meaning [] [] ds fun n => by simp

end PegTree.Abnf
