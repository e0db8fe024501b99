import PegTree.Proofs.Matching

/-!
# What expressions read

An expression reads a text before another if it matches just the first of them wherever both stand
together, and it stalls before a text if it is refused wherever that text stands. Neither mentions a
place, so readings of parts can be put together as their texts are.
-/

namespace PegTree

/-- Nodes of one kind, then nodes of another. -/
def Before (P Q : List Node → Prop) (ns : List Node) : Prop := ∃ as bs, P as ∧ Q bs ∧ ns = as ++ bs

def Silent (ns : List Node) : Prop := ∀ n ∈ ns, n.name? = none

theorem Silent.nil : Silent [] := List.forall_mem_nil _

theorem Silent.append {ns ms : List Node} (h : Silent ns) (h' : Silent ms) : Silent (ns ++ ms) :=
  List.forall_mem_append.2 ⟨h, h'⟩

theorem Before.silent {ns : List Node} (h : Before Silent Silent ns) : Silent ns := by
  obtain ⟨as, bs, ha, hb, rfl⟩ := h
  exact ha.append hb

namespace Reading

variable (r : Reading)

/-- The expression matches `u` wherever `u` stands before `y`, and leaves nodes of `P`. -/
def Reads (e : Expr) (u y : Text) (P : List Node → Prop) : Prop :=
  ∀ p, r.input.suffix? p = some (u ++ y) → ∃ ns, r.Matches e p (p + byteSize u) ns ∧ P ns

def RowReads (es : List Expr) (u y : Text) (P : List Node → Prop) : Prop :=
  ∀ p, r.input.suffix? p = some (u ++ y) → ∃ ns, r.RowMatches es p (p + byteSize u) ns ∧ P ns

/-- So many matches in a row make up `u` wherever it stands before `y`. -/
def Runs (e : Expr) (u y : Text) (k : Nat) (P : List Node → Prop) : Prop :=
  ∀ p, r.input.suffix? p = some (u ++ y) → ∃ ns, r.Repeats e p (p + byteSize u) k ns ∧ P ns

def Stalls (e : Expr) (y : Text) : Prop := ∀ p, r.input.suffix? p = some y → r.Refuses e p

variable {r} {e : Expr} {es : List Expr} {u v y : Text} {k : Nat} {P Q : List Node → Prop}

theorem Reads.imp (h : r.Reads e u y P) (hpq : ∀ ns, P ns → Q ns) : r.Reads e u y Q := by
  intro p hp
  obtain ⟨ns, hm, hns⟩ := h p hp
  exact ⟨ns, hm, hpq ns hns⟩

theorem Runs.imp (h : r.Runs e u y k P) (hpq : ∀ ns, P ns → Q ns) : r.Runs e u y k Q := by
  intro p hp
  obtain ⟨ns, hm, hns⟩ := h p hp
  exact ⟨ns, hm, hpq ns hns⟩

theorem Refuses.stalls {p : Nat} (h : r.Refuses e p) (hp : r.input.suffix? p = some y) : r.Stalls e y := by
  intro p' hp'
  obtain ⟨u, hu, rfl⟩ := Input.suffix?_eq_some_iff.1 hp
  obtain ⟨u', hu', rfl⟩ := Input.suffix?_eq_some_iff.1 hp'
  -- what stands at a place stands at no other
  rwa [← List.append_cancel_right (hu.symm.trans hu')]

/-! ## Literals -/

theorem reads_literal {ms : List Matcher} {c : Option Bool}
    (h : firstLeading? ms (c.getD r.options.caseSensitive) (u ++ y) = some u) :
    r.Reads (.literal false ms c) u y Silent := by
  intro p hp
  exact ⟨_, (matches_literal hp).2 ⟨u, h, rfl, rfl⟩, List.forall_mem_singleton.2 rfl⟩

theorem stalls_literal {ms : List Matcher} {c : Option Bool}
    (h : firstLeading? ms (c.getD r.options.caseSensitive) y = none) : r.Stalls (.literal false ms c) y :=
  fun _ hp => (refuses_literal hp).2 h

theorem reads_endOfLine (h : lineEnd? (u ++ y) = some u) : r.Reads (.endOfLine false) u y Silent := by
  intro p hp
  exact ⟨_, (matches_endOfLine hp).2 ⟨u, h, rfl, rfl⟩, List.forall_mem_singleton.2 rfl⟩

theorem stalls_endOfLine (h : lineEnd? y = none) : r.Stalls (.endOfLine false) y :=
  fun _ hp => (refuses_endOfLine hp).2 h

/-! ## Rows -/

theorem Reads.row (h : r.Reads e u (v ++ y) P) (hs : r.RowReads es v y Q) :
    r.RowReads (e :: es) (u ++ v) y (Before P Q) := by
  intro p hp
  rw [List.append_assoc] at hp
  obtain ⟨ns, hm, hns⟩ := h p hp
  obtain ⟨ms, hrow, hms⟩ := hs _ (Input.suffix?_add hp)
  rw [Nat.add_assoc, ← byteSize_append] at hrow
  exact ⟨ns ++ ms, ⟨_, ns, ms, hm, hrow, rfl⟩, ns, ms, hns, hms, rfl⟩

theorem Reads.last (h : r.Reads e u y P) : r.RowReads [e] u y P := by
  intro p hp
  obtain ⟨ns, hm, hns⟩ := h p hp
  exact ⟨ns, ⟨_, ns, [], hm, ⟨hm.boundary, rfl, rfl⟩, (List.append_nil ns).symm⟩, hns⟩

/-- What reads nothing can follow. -/
theorem Reads.alone (h : r.Reads e u y P) (hs : r.RowReads es [] y (· = [])) : r.RowReads (e :: es) u y P := by
  intro p hp
  obtain ⟨ns, hm, hns⟩ := h p hp
  obtain ⟨_, hrow, rfl⟩ := hs _ (Input.suffix?_add hp)
  exact ⟨ns, ⟨_, ns, [], hm, hrow, (List.append_nil ns).symm⟩, hns⟩

theorem RowReads.sequence (h : r.RowReads es u y P) : r.Reads (.sequence false es) u y P := by
  intro p hp
  obtain ⟨ns, hm, hns⟩ := h p hp
  exact ⟨ns, matches_sequence.2 hm, hns⟩

theorem Stalls.sequence (h : r.Stalls e y) : r.Stalls (.sequence false (e :: es)) y :=
  fun p hp => refuses_sequence.2 (.inl (h p hp))

theorem Reads.stalls (h : r.Reads e u y P) (hs : r.Stalls (.sequence false es) y) :
    r.Stalls (.sequence false (e :: es)) (u ++ y) := by
  intro p hp
  obtain ⟨ns, hm, _⟩ := h p hp
  exact refuses_sequence.2 (.inr ⟨_, ns, hm, refuses_sequence.1 (hs _ (Input.suffix?_add hp))⟩)

/-! ## Alternatives -/

theorem Reads.choice (h : r.Reads e u y P) : r.Reads (.choice false (e :: es)) u y P := by
  intro p hp
  obtain ⟨ns, hm, hns⟩ := h p hp
  exact ⟨ns, matches_choice.2 (.inl hm), hns⟩

theorem Stalls.choice (hs : r.Stalls e (u ++ y)) (h : r.Reads (.choice false es) u y P) :
    r.Reads (.choice false (e :: es)) u y P := by
  intro p hp
  obtain ⟨ns, hm, hns⟩ := h p hp
  exact ⟨ns, matches_choice.2 (.inr ⟨hs p hp, matches_choice.1 hm⟩), hns⟩

theorem stalls_choice (h : ∀ e ∈ es, r.Stalls e y) : r.Stalls (.choice false es) y := by
  intro p hp
  refine refuses_choice.2 ?_
  induction es with
  | nil => exact Input.isBoundary_of_suffix? hp
  | cons e es ih =>
    obtain ⟨he, hes⟩ := List.forall_mem_cons.1 h
    exact ⟨he p hp, ih hes⟩

theorem Reads.maybe (h : r.Reads e u y P) : r.Reads e.maybe u y P := by
  intro p hp
  obtain ⟨ns, hm, hns⟩ := h p hp
  exact ⟨ns, matches_optional.2 (.inl hm), hns⟩

theorem Stalls.maybe (h : r.Stalls e y) : r.Reads e.maybe [] y (· = []) :=
  fun p hp => ⟨[], matches_optional.2 (.inr ⟨h p hp, rfl, rfl⟩), rfl⟩

/-! ## Repetitions -/

theorem Stalls.runs (h : r.Stalls e y) : r.Runs e [] y 0 (· = []) :=
  fun p hp => ⟨[], .refused (h p hp), rfl⟩

theorem Reads.still (h : r.Reads e [] y P) : r.Runs e [] y 1 P := by
  intro p hp
  obtain ⟨ns, hm, hns⟩ := h p hp
  exact ⟨ns, .still hm, hns⟩

theorem Reads.runs (h : r.Reads e u (v ++ y) P) (hu : u ≠ []) (hs : r.Runs e v y k Q) :
    r.Runs e (u ++ v) y (k + 1) (Before P Q) := by
  intro p hp
  rw [List.append_assoc] at hp
  obtain ⟨ns, hm, hns⟩ := h p hp
  obtain ⟨ms, hrep, hms⟩ := hs _ (Input.suffix?_add hp)
  have hne : p + byteSize u ≠ p := by
    cases u with
    | nil => exact absurd rfl hu
    | cons c u =>
      have := c.utf8Size_pos
      rw [byteSize_cons]
      omega
  rw [Nat.add_assoc, ← byteSize_append] at hrep
  exact ⟨ns ++ ms, .cons hm hne hrep, ns, ms, hns, hms, rfl⟩

theorem Reads.once (h : r.Reads e u y P) (hu : u ≠ []) (hs : r.Stalls e y) : r.Runs e u y 1 P := by
  have hruns := Reads.runs (v := []) h hu hs.runs
  rw [List.append_nil] at hruns
  refine hruns.imp fun _ hn => ?_
  obtain ⟨as, _, ha, rfl, rfl⟩ := hn
  rwa [List.append_nil]

theorem Runs.repetition {low : Nat} {high : Option Nat} (h : r.Runs e u y k P) (hb : InBounds low high k) :
    r.Reads (.repetition false low high e) u y P := by
  intro p hp
  obtain ⟨ns, hrep, hns⟩ := h p hp
  exact ⟨ns, matches_repetition.2 ⟨k, hrep, hb⟩, hns⟩

theorem Runs.many (h : r.Runs e u y k P) : r.Reads e.many u y P :=
  h.repetition ⟨Nat.zero_le k, fun _ hh => by cases hh⟩

theorem Runs.many1 (h : r.Runs e u y (k + 1) P) : r.Reads e.many1 u y P :=
  h.repetition ⟨Nat.succ_pos k, fun _ hh => by cases hh⟩

theorem Stalls.many1 (h : r.Stalls e y) : r.Stalls e.many1 y := by
  intro p hp
  exact refuses_repetition.2 ⟨p, 0, [], .refused (h p hp), fun hb => absurd hb.1 (Nat.not_succ_le_zero 0)⟩

/-- A repetition of one character after another takes a run of them. -/
theorem runs_chars {f : Char → Prop} (h : ∀ c y, f c → r.Reads e [c] y Silent) (hs : r.Stalls e y)
    (hu : ∀ c ∈ u, f c) : r.Runs e u y u.length Silent := by
  induction u with
  | nil => exact hs.runs.imp fun _ hns => hns ▸ Silent.nil
  | cons c u ih =>
    obtain ⟨hc, hu⟩ := List.forall_mem_cons.1 hu
    exact ((h c (u ++ y) hc).runs (List.cons_ne_nil c []) (ih hu)).imp fun _ hns => hns.silent

end Reading

end PegTree
