import PegTree.Proofs.Closing
import PegTree.Proofs.Obtainable
import PegTree.Proofs.Thinned

/-!
# Derivations

The nodes that expressions of a grammar can give, without fuel, cache or rules in progress. Every
node of a derived tree is derived itself, so what holds of derived nodes holds all over a tree.
-/

namespace PegTree

def Grammar.Declares (g : Grammar) (name : String) (rule : Rule) : Prop :=
  ∃ decl, g.rule? name = some decl ∧ g.build decl = .ok rule

def Scope.plain (i : Input) (o : Options) : Scope Unit := ⟨i, o, fun _ _ _ => throw .exhausted⟩

mutual
inductive Derives (g : Grammar) (i : Input) : Options → Expr → Nat → Node → Prop
  | literal {o a ms c p n} : (Scope.plain i o).literal a ms c p = .ok n → Derives g i o (.literal a ms c) p n
  | sequence {o a items p run n} : DerivesRow g i o items p run →
    (Scope.plain i o).closeSequence a items p run = .ok n → Derives g i o (.sequence a items) p n
  | choice {o a items p trial n} : DerivesAny g i o items (i.skip o p) trial →
    (Scope.plain i o).closeChoice a p (i.skip o p) trial = .ok n → Derives g i o (.choice a items) p n
  | repetition {o a low high item p run n} : DerivesLoop g i o item p run →
    (Scope.plain i o).closeRepetition a low high p run = .ok n →
    Derives g i o (.repetition a low high item) p n
  | optional {o a item p n} : Derives g i o item p n →
    Derives g i o (.optional a item) p ((Scope.plain i o).closeOptional p n)
  | endOfLine {o a p n} : (Scope.plain i o).endOfLine a p = .ok n → Derives g i o (.endOfLine a) p n
  | endOfInput {o a p n} : (Scope.plain i o).endOfInput a p = .ok n → Derives g i o (.endOfInput a) p n
  | rule {o a name rule p tree n} : g.Declares name rule →
    Derives g i (rule.overrides.apply o) rule.body p tree →
    closeRule i o a rule.name p tree = .ok n → Derives g i o (.rule a name) p n
inductive DerivesRow (g : Grammar) (i : Input) : Options → List Expr → Nat → Run → Prop
  | nil {o p} : DerivesRow g i o [] p ⟨[], p, none⟩
  | refused {o e es p n} : Derives g i o e (i.skip o p) n → n.stop = none →
    DerivesRow g i o (e :: es) p ⟨[], p, some n⟩
  | cons {o e es p n stop run} : Derives g i o e (i.skip o p) n → n.stop = some stop →
    DerivesRow g i o es stop run → DerivesRow g i o (e :: es) p { run with matched := n :: run.matched }
inductive DerivesAny (g : Grammar) (i : Input) : Options → List Expr → Nat → Trial → Prop
  | nil {o p} : DerivesAny g i o [] p ⟨[], none⟩
  | failed {o e es p n trial} : Derives g i o e p n → n.stop = none → DerivesAny g i o es p trial →
    DerivesAny g i o (e :: es) p { trial with failed := n :: trial.failed }
  | chosen {o e es p n stop} : Derives g i o e p n → n.stop = some stop →
    DerivesAny g i o (e :: es) p ⟨[], some n⟩
/-- An item matches again and again until it is refused or does not move on. -/
inductive DerivesLoop (g : Grammar) (i : Input) : Options → Expr → Nat → Run → Prop
  | refused {o e p n} : Derives g i o e (i.skip o p) n → n.stop = none →
    DerivesLoop g i o e p ⟨[], p, some n⟩
  | still {o e p n} : Derives g i o e (i.skip o p) n → n.stop = some (i.skip o p) →
    DerivesLoop g i o e p ⟨[n], i.skip o p, none⟩
  | cons {o e p n stop run} : Derives g i o e (i.skip o p) n → n.stop = some stop → stop ≠ i.skip o p →
    DerivesLoop g i o e stop run → DerivesLoop g i o e p { run with matched := n :: run.matched }
end

variable {g : Grammar} {i : Input}

theorem Grammar.build_eq_ok {decl : RuleDecl} {rule : Rule} : g.build decl = .ok rule ↔
    ∃ body, decl.body g.token? = .ok body ∧ rule = ⟨decl.name, decl.overrides, body⟩ := by
  unfold Grammar.build
  cases decl.body g.token? with
  | error e => simp [Except.map]
  | ok body => simp [Except.map, eq_comm]

theorem Grammar.build_eq_error {decl : RuleDecl} {e : Error} :
    g.build decl = .error e ↔ decl.body g.token? = .error e := by
  unfold Grammar.build
  cases decl.body g.token? <;> simp [Except.map]

theorem Grammar.Declares.decl {name : String} {rule : Rule} (h : g.Declares name rule) :
    rule.name = name ∧ ∃ decl ∈ g.rules, rule.name = decl.name ∧ rule.overrides = decl.overrides := by
  obtain ⟨decl, hd, hb⟩ := h
  unfold Grammar.rule? at hd
  have hn : decl.name = name := by simpa using List.find?_some hd
  obtain ⟨_, _, rfl⟩ := Grammar.build_eq_ok.1 hb
  exact ⟨hn, decl, List.mem_of_find?_eq_some hd, rfl, rfl⟩

theorem Grammar.Declares.obtainable {name : String} {rule : Rule} (h : g.Declares name rule) (o : Options) :
    g.Obtainable o (rule.overrides.apply o) := by
  obtain ⟨_, decl, hd, _, he⟩ := h.decl
  rw [he]
  exact .under .start hd

/-! ## Nodes fit their spans -/

section
variable {W : Char → Prop}

/-- Skipped characters count as whitespace, whatever options a grammar makes. -/
def Grammar.Blanks (g : Grammar) (W : Char → Prop) (o : Options) : Prop :=
  ∀ o', g.Obtainable o o' → o'.stripWhitespace = true → ∀ c ∈ o'.whitespaceChars, W c

theorem Grammar.Blanks.under {o o' : Options} (h : g.Blanks W o) (ho : g.Obtainable o o') : g.Blanks W o' := by
  intro o'' h'
  exact h o'' (ho.trans h')

theorem Grammar.Blanks.skip {o : Options} {p : Nat} (h : g.Blanks W o) (hp : i.isBoundary p = true) :
    ∃ w, i.Span p (i.skip o p) w ∧ ∀ c ∈ w, W c := by
  refine ⟨_, Input.span_skip o hp, ?_⟩
  intro c hc
  obtain ⟨hs, hw⟩ := Input.mem_skippable hc
  exact h _ .start hs c hw

mutual
/-- A derived node begins where it was tried, up to whitespace, and its text thins its span. -/
theorem Derives.fits {o e p n} (h : Derives g i o e p n) (hW : g.Blanks W o) (hp : i.isBoundary p = true) :
    n.Fits i W p := by
  match h with
  | .literal h =>
    obtain ⟨w, hw, hb⟩ := hW.skip hp
    refine Node.Fits.widen hw hb ?_
    rcases Scope.literal_ok hp h with ⟨t, stop, rfl, ht⟩ | rfl
    · exact .matched ht (.refl t)
    · exact .failed hw.boundary.2
  | .sequence hr hc =>
    have hl := DerivesRow.laid hr hW hp
    rcases Scope.closeSequence_ok hc with ⟨_, rfl⟩ | ⟨m, _, rfl⟩
    · obtain ⟨t, ht, hT⟩ := hl.joined
      exact .matched ht hT
    · exact .failed hp
  | .choice ht hc =>
    obtain ⟨w, hw, hb⟩ := hW.skip hp
    rcases Scope.closeChoice_ok hc with ⟨m, stop, hm, hs, rfl⟩ | rfl
    · obtain ⟨t, ht, hT⟩ := ((DerivesAny.fits ht hW hw.boundary.2 hm).widen hw hb).whole hs
      exact .matched ht hT
    · exact .failed hp
  | .repetition hr hc =>
    have hl := DerivesLoop.laid hr hW hp
    rcases Scope.closeRepetition_ok hc with rfl | rfl
    · obtain ⟨t, ht, hT⟩ := hl.joined
      exact .matched ht hT
    · exact .failed hp
  | .optional (n := m) h =>
    have hf := Derives.fits h hW hp
    rcases (Scope.plain i o).closeOptional_eq m with ⟨stop, hs, e⟩ | ⟨_, e⟩
    · obtain ⟨t, ht, hT⟩ := hf.whole hs
      rw [e]
      exact .matched ht hT
    · rw [e]
      exact .matched (.of_boundary hp) .nil
  | .endOfLine h =>
    rcases Scope.endOfLine_ok hp h with ⟨t, stop, rfl, ht⟩ | rfl | rfl
    · exact .matched ht (.refl t)
    · obtain ⟨w, hw, hb⟩ := hW.skip hp
      exact .matched hw (.of_blank hb)
    · exact .failed hp
  | .endOfInput h =>
    rcases Scope.endOfInput_ok h with rfl | rfl
    · obtain ⟨w, hw, hb⟩ := hW.skip hp
      exact .matched hw (.of_blank hb)
    · exact .failed hp
  | .rule hd h hc =>
    have hf := Derives.fits h (hW.under (hd.obtainable o)) hp
    rcases closeRule_ok hc with ⟨stop, hs, rfl⟩ | ⟨_, rfl⟩
    · obtain ⟨t, ht, hT⟩ := hf.whole hs
      exact .matched ht hT
    · exact .failed hp
theorem DerivesRow.laid {o es p run} (h : DerivesRow g i o es p run) (hW : g.Blanks W o)
    (hp : i.isBoundary p = true) : Laid i W p run.matched run.stop := by
  match h with
  | .nil => exact .nil hp
  | .refused _ _ => exact .nil hp
  | .cons hn hs hr =>
    obtain ⟨w, hw, hb⟩ := hW.skip hp
    have hf := Derives.fits hn hW hw.boundary.2
    exact .cons (hf.widen hw hb) hs (DerivesRow.laid hr hW (hf.stop_boundary hs))
theorem DerivesAny.fits {o es p trial n} (h : DerivesAny g i o es p trial) (hW : g.Blanks W o)
    (hp : i.isBoundary p = true) (hn : trial.chosen = some n) : n.Fits i W p := by
  match h with
  | .nil => cases hn
  | .failed _ _ ht => exact DerivesAny.fits ht hW hp hn
  | .chosen h _ =>
    have hf := Derives.fits h hW hp
    cases hn
    exact hf
theorem DerivesLoop.laid {o e p run} (h : DerivesLoop g i o e p run) (hW : g.Blanks W o)
    (hp : i.isBoundary p = true) : Laid i W p run.matched run.stop := by
  match h with
  | .refused _ _ => exact .nil hp
  | .still hn hs =>
    obtain ⟨w, hw, hb⟩ := hW.skip hp
    have hf := Derives.fits hn hW hw.boundary.2
    exact .cons (hf.widen hw hb) hs (.nil (hf.stop_boundary hs))
  | .cons hn hs _ hr =>
    obtain ⟨w, hw, hb⟩ := hW.skip hp
    have hf := Derives.fits hn hW hw.boundary.2
    exact .cons (hf.widen hw hb) hs (DerivesLoop.laid hr hW (hf.stop_boundary hs))
end

end

/-! ## The nodes of a derived tree -/

theorem Grammar.blanks_all (g : Grammar) (o : Options) : g.Blanks (fun _ => True) o :=
  fun _ _ _ _ _ => trivial

def Derivable (g : Grammar) (i : Input) (o : Options) (n : Node) : Prop :=
  ∃ o' e p, g.Obtainable o o' ∧ i.isBoundary p = true ∧ Derives g i o' e p n

section
variable {o : Options} {n c : Node}

theorem Derives.derivable {e : Expr} {p : Nat} (h : Derives g i o e p n) (hp : i.isBoundary p = true) :
    Derivable g i o n :=
  ⟨o, e, p, .start, hp, h⟩

theorem Derivable.under {o' : Options} (h : Derivable g i o' n) (ho : g.Obtainable o o') : Derivable g i o n := by
  obtain ⟨o'', e, p, ho', hp, hn⟩ := h
  exact ⟨o'', e, p, ho.trans ho', hp, hn⟩

theorem Derives.stop_boundary {e : Expr} {p stop : Nat} (h : Derives g i o e p n) (hp : i.isBoundary p = true)
    (hs : n.stop = some stop) : p ≤ stop ∧ i.isBoundary stop = true := by
  have hf := h.fits (g.blanks_all o) hp
  exact ⟨Nat.le_trans hf.le_offset (hf.offset_le hs), hf.stop_boundary hs⟩

theorem DerivesRow.nodes {es p run} (h : DerivesRow g i o es p run) (hp : i.isBoundary p = true) :
    (∀ c ∈ run.matched, Derivable g i o c) ∧ ∀ c ∈ run.refused.toList, c.stop = none ∧ Derivable g i o c := by
  have hq := Input.skip_boundary o hp
  match h with
  | .nil => exact ⟨List.forall_mem_nil _, List.forall_mem_nil _⟩
  | .refused hn hs => exact ⟨List.forall_mem_nil _, List.forall_mem_singleton.2 ⟨hs, hn.derivable hq⟩⟩
  | .cons hn hs hr =>
    obtain ⟨hm, href⟩ := DerivesRow.nodes hr (hn.stop_boundary hq hs).2
    exact ⟨List.forall_mem_cons.2 ⟨hn.derivable hq, hm⟩, href⟩

theorem DerivesAny.nodes {es p trial} (h : DerivesAny g i o es p trial) (hp : i.isBoundary p = true) :
    (∀ c ∈ trial.failed, c.stop = none ∧ Derivable g i o c) ∧ ∀ c ∈ trial.chosen.toList, Derivable g i o c := by
  match h with
  | .nil => exact ⟨List.forall_mem_nil _, List.forall_mem_nil _⟩
  | .failed hn hs ht =>
    obtain ⟨hf, hc⟩ := DerivesAny.nodes ht hp
    exact ⟨List.forall_mem_cons.2 ⟨⟨hs, hn.derivable hp⟩, hf⟩, hc⟩
  | .chosen hn _ => exact ⟨List.forall_mem_nil _, List.forall_mem_singleton.2 (hn.derivable hp)⟩

theorem DerivesLoop.nodes {e p run} (h : DerivesLoop g i o e p run) (hp : i.isBoundary p = true) :
    (∀ c ∈ run.matched, Derivable g i o c) ∧ ∀ c ∈ run.refused.toList, c.stop = none ∧ Derivable g i o c := by
  have hq := Input.skip_boundary o hp
  match h with
  | .refused hn hs => exact ⟨List.forall_mem_nil _, List.forall_mem_singleton.2 ⟨hs, hn.derivable hq⟩⟩
  | .still hn _ => exact ⟨List.forall_mem_singleton.2 (hn.derivable hq), List.forall_mem_nil _⟩
  | .cons hn hs _ hr =>
    obtain ⟨hm, href⟩ := DerivesLoop.nodes hr (hn.stop_boundary hq hs).2
    exact ⟨List.forall_mem_cons.2 ⟨hn.derivable hq, hm⟩, href⟩

end

/-- What a node that was tried at `p` is made of. -/
inductive Made (g : Grammar) (i : Input) (o : Options) (p : Nat) : Node → Prop
  | literal {t : Text} {q stop : Nat} : i.Span q stop t → Made g i o p (.matched .literal t q stop [])
  | ending {tag : Tag} {t : Text} {stop : Nat} : tag = .endOfLine ∨ tag = .endOfInput →
    Made g i o p (.matched tag t p stop [])
  | row {tag : Tag} {stop : Nat} {ns fs : List Node} : tag = .sequence ∨ tag = .repetition →
    Laid i (fun _ => True) p ns stop → (∀ c ∈ ns, Derivable g i o c) →
    (∀ c ∈ fs, c.stop = none ∧ Derivable g i o c) →
    Made g i o p (.matched tag (joinText i p stop ns) p stop (ns ++ o.kept fs))
  | one {tag : Tag} {stop : Nat} {c : Node} {fs : List Node} :
    tag = .choice ∨ tag = .optional ∨ (∃ name, tag = .rule name) → c.stop = some stop → Derivable g i o c →
    (∀ c ∈ fs, c.stop = none ∧ Derivable g i o c) →
    Made g i o p (.matched tag c.text p stop (o.kept fs ++ [c]))
  | nothing {fs : List Node} : (∀ c ∈ fs, c.stop = none ∧ Derivable g i o c) →
    Made g i o p (.matched .optional [] p p (o.kept fs))
  | failed {tag : Tag} {q : Nat} {cs : List Node} : (∀ c ∈ cs, Derivable g i o c) →
    Made g i o p (.failed tag q (o.kept cs))

section
variable {o : Options} {n c m : Node}

theorem Made.of_failed {tag : Tag} {p q : Nat} : Made g i o p (.failed tag q []) := by
  have hm : Made g i o p (.failed tag q (o.kept [])) := .failed (List.forall_mem_nil _)
  rwa [Options.kept_nil] at hm

theorem Made.of_row {tag : Tag} {p stop : Nat} {ns : List Node} (ht : tag = .sequence ∨ tag = .repetition)
    (hl : Laid i (fun _ => True) p ns stop) (hns : ∀ c ∈ ns, Derivable g i o c) :
    Made g i o p (.matched tag (joinText i p stop ns) p stop ns) := by
  have hm : Made g i o p (.matched tag (joinText i p stop ns) p stop (ns ++ o.kept [])) :=
    .row ht hl hns (List.forall_mem_nil _)
  rwa [Options.kept_nil, List.append_nil] at hm

theorem Made.of_sole {tag : Tag} {p stop : Nat} (ht : tag = .choice ∨ tag = .optional ∨ ∃ name, tag = .rule name)
    (hs : c.stop = some stop) (hc : Derivable g i o c) : Made g i o p (.matched tag c.text p stop [c]) := by
  have hm : Made g i o p (.matched tag c.text p stop (o.kept [] ++ [c])) := .one ht hs hc (List.forall_mem_nil _)
  rwa [Options.kept_nil, List.nil_append] at hm

theorem Derives.made {e : Expr} {p : Nat} (h : Derives g i o e p n) (hp : i.isBoundary p = true) :
    Made g i o p n := by
  match h with
  | .literal h =>
    rcases Scope.literal_ok hp h with ⟨t, stop, rfl, ht⟩ | rfl
    · exact .literal ht
    · exact .of_failed
  | .sequence hr hc =>
    obtain ⟨hm, href⟩ := hr.nodes hp
    rcases Scope.closeSequence_ok hc with ⟨_, rfl⟩ | ⟨m, hr', rfl⟩
    · exact .of_row (.inl rfl) (hr.laid (g.blanks_all o) hp) hm
    · refine .failed (List.forall_mem_append.2 ⟨hm, ?_⟩)
      rw [hr'] at href
      intro c hc
      exact (href c hc).2
  | .choice ht hc =>
    obtain ⟨hf, hch⟩ := ht.nodes (Input.skip_boundary o hp)
    rcases Scope.closeChoice_ok hc with ⟨m, stop, hm, hs, rfl⟩ | rfl
    · exact .one (.inl rfl) hs (hch m (by simp [hm])) hf
    · refine .failed ?_
      intro c hc
      exact (hf c hc).2
  | .repetition hr hc =>
    obtain ⟨hm, href⟩ := hr.nodes hp
    rcases Scope.closeRepetition_ok hc with rfl | rfl
    · exact .row (.inr rfl) (hr.laid (g.blanks_all o) hp) hm href
    · refine .failed (List.forall_mem_append.2 ⟨hm, ?_⟩)
      intro c hc
      exact (href c (Options.mem_of_mem_kept hc)).2
  | .optional (n := m) h =>
    have hm := h.derivable hp
    rcases (Scope.plain i o).closeOptional_eq m with ⟨stop, hs, e⟩ | ⟨hs, e⟩
    · rw [e]
      exact .of_sole (.inr (.inl rfl)) hs hm
    · rw [e]
      exact .nothing (List.forall_mem_singleton.2 ⟨hs, hm⟩)
  | .endOfLine h =>
    rcases Scope.endOfLine_ok hp h with ⟨t, stop, rfl, _⟩ | rfl | rfl
    · exact .ending (.inl rfl)
    · exact .ending (.inl rfl)
    · exact .of_failed
  | .endOfInput h =>
    rcases Scope.endOfInput_ok h with rfl | rfl
    · exact .ending (.inr rfl)
    · exact .of_failed
  | .rule hd h hc =>
    have ht := (h.derivable hp).under (hd.obtainable o)
    rcases closeRule_ok hc with ⟨stop, hs, rfl⟩ | ⟨_, rfl⟩
    · exact .of_sole (.inr (.inr ⟨_, rfl⟩)) hs ht
    · exact .failed (List.forall_mem_singleton.2 ht)

theorem Made.child {p : Nat} (h : Made g i o p n) (hc : c ∈ n.children) : Derivable g i o c := by
  cases h with
  | literal _ => cases hc
  | ending _ => cases hc
  | row _ _ hns hfs =>
    rcases List.mem_append.1 hc with hc | hc
    · exact hns c hc
    · exact (hfs c (Options.mem_of_mem_kept hc)).2
  | one _ _ hd hfs =>
    rcases List.mem_append.1 hc with hc | hc
    · exact (hfs c (Options.mem_of_mem_kept hc)).2
    · rw [List.mem_singleton.1 hc]
      exact hd
  | nothing hfs => exact (hfs c (Options.mem_of_mem_kept hc)).2
  | failed hcs => exact hcs c (Options.mem_of_mem_kept hc)

inductive Node.Part : Node → Node → Prop
  | self (n : Node) : Part n n
  | child {m c n : Node} : c ∈ n.children → Part m c → Part m n

theorem Derivable.part (hm : m.Part n) (h : Derivable g i o n) : Derivable g i o m := by
  induction hm with
  | self => exact h
  | child hc _ ih =>
    obtain ⟨o', e, p, ho, hp, hn⟩ := h
    exact ih (((hn.made hp).child hc).under ho)

end

end PegTree
