import PegTree.Proofs.Obtainable
import PegTree.Session

/-!
# The rules in progress

Inwards the offsets of the rules in progress do not decrease, so a look at the frames of one offset
finds any frame in progress. No frame is in progress twice, and there are only so many frames.
-/

namespace PegTree

/-- Rules in progress over an input, from the options `o` on, the innermost first. -/
structure Orderly (g : Grammar) (i : Input) (o : Options) (st : List Frame) : Prop where
  nodup : st.Nodup
  sorted : st.Pairwise fun inner outer => outer.offset ≤ inner.offset
  known : ∀ f ∈ st, f.rule ∈ g.ruleNames ∧ f.offset ≤ i.size ∧ g.Obtainable o f.options

variable {g : Grammar} {i : Input} {o : Options} {st : List Frame} {f : Frame}

theorem mem_of_inProgress (h : inProgress st f = true) : f ∈ st := by
  unfold inProgress at h
  exact (List.takeWhile_sublist _).subset (List.contains_iff_mem.1 h)

theorem inProgress_iff (hs : st.Pairwise fun inner outer => outer.offset ≤ inner.offset)
    (hf : ∀ f' ∈ st, f'.offset ≤ f.offset) : inProgress st f = true ↔ f ∈ st := by
  refine ⟨mem_of_inProgress, fun hm => ?_⟩
  induction st with
  | nil => cases hm
  | cons top st ih =>
    obtain ⟨htop, hrest⟩ := List.pairwise_cons.1 hs
    have hlow : top.offset = f.offset := by
      rcases List.mem_cons.1 hm with rfl | hm
      · rfl
      · have := htop f hm
        have := hf top (List.mem_cons_self ..)
        omega
    unfold inProgress
    rw [List.takeWhile_cons_of_pos (by simp [hlow]), List.contains_cons]
    rcases List.mem_cons.1 hm with rfl | hm
    · simp
    · have := ih hrest (fun f' h => hf f' (List.mem_cons_of_mem _ h)) hm
      unfold inProgress at this
      rw [this, Bool.or_true]

/-- A frame is in progress if its image is, among images that no other frame has. -/
theorem inProgress_map {φ : Frame → Frame} (hplace : ∀ f', (φ f').offset = (φ f).offset ↔ f'.offset = f.offset)
    (hinj : ∀ f' ∈ st, φ f' = φ f → f' = f) : inProgress (st.map φ) (φ f) = inProgress st f := by
  have hcomp : ((·.offset == (φ f).offset) ∘ φ) = (·.offset == f.offset) := by
    funext f'
    rw [Bool.eq_iff_iff]
    simp only [Function.comp_apply, beq_iff_eq]
    exact hplace f'
  unfold inProgress
  rw [List.takeWhile_map, hcomp, Bool.eq_iff_iff, List.contains_iff_mem, List.contains_iff_mem, List.mem_map]
  constructor
  · intro ⟨f', hm, he⟩
    have hsame := hinj f' ((List.takeWhile_sublist _).subset hm) he
    exact hsame ▸ hm
  · exact fun hm => ⟨f, hm, rfl⟩

namespace Orderly

theorem nil : Orderly g i o [] := ⟨List.nodup_nil, .nil, fun _ h => by cases h⟩

theorem push (h : Orderly g i o st) (hle : ∀ f' ∈ st, f'.offset ≤ f.offset) (hf : inProgress st f = false)
    (hr : f.rule ∈ g.ruleNames) (hp : f.offset ≤ i.size) (ho : g.Obtainable o f.options) :
    Orderly g i o (f :: st) where
  nodup := by
    refine List.nodup_cons.2 ⟨fun hm => ?_, h.nodup⟩
    have := (inProgress_iff h.sorted hle).2 hm
    rw [hf] at this
    cases this
  sorted := List.pairwise_cons.2 ⟨hle, h.sorted⟩
  known f' hm := by
    rcases List.mem_cons.1 hm with rfl | hm
    · exact ⟨hr, hp, ho⟩
    · exact h.known f' hm

theorem pop (h : Orderly g i o (f :: st)) : Orderly g i o st :=
  ⟨(List.nodup_cons.1 h.nodup).2, (List.pairwise_cons.1 h.sorted).2, fun f' hm =>
    h.known f' (List.mem_cons_of_mem _ hm)⟩

theorem length_le (h : Orderly g i o st) : st.length ≤ g.rules.length * (i.size + 1) * g.optionsCount o := by
  -- the frames differ from one another as triples of a finite product
  let key : Frame → String × Nat × Options := fun f => (f.rule, f.offset, f.options)
  have hkey : Function.Injective key := by
    rintro ⟨⟩ ⟨⟩ e
    cases e
    rfl
  let all := g.ruleNames.toFinset ×ˢ Finset.range (i.size + 1) ×ˢ (g.finite_obtainable o).toFinset
  have hsub : (st.map key).toFinset ⊆ all := by
    intro x hx
    obtain ⟨f, hf, rfl⟩ := List.mem_map.1 (List.mem_toFinset.1 hx)
    obtain ⟨hr, hp, ho⟩ := h.known f hf
    simp only [all, key, Finset.mem_product, List.mem_toFinset, Finset.mem_range, Set.Finite.mem_toFinset]
    exact ⟨hr, by omega, ho⟩
  have hcard : all.card ≤ g.rules.length * ((i.size + 1) * g.optionsCount o) := by
    have hopts := Set.ncard_eq_toFinset_card _ (g.finite_obtainable o)
    simp only [all, Finset.card_product, Finset.card_range, Grammar.optionsCount, hopts]
    refine Nat.mul_le_mul_right _ (Nat.le_trans (List.toFinset_card_le _) ?_)
    simp [Grammar.ruleNames]
  calc st.length = (st.map key).toFinset.card := by
        rw [List.toFinset_card_of_nodup (h.nodup.map hkey), List.length_map]
    _ ≤ all.card := Finset.card_le_card hsub
    _ ≤ g.rules.length * (i.size + 1) * g.optionsCount o := by rw [Nat.mul_assoc]; exact hcard

end Orderly

end PegTree
