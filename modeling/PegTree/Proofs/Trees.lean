import PegTree.Proofs.History

/-!
# What trees look like

Every node of a tree that comes out of an evaluation has the shape that its tag asks for, and its
text is that of its span but for whitespace.
-/

namespace PegTree

variable {g : Grammar} {i : Input} {o : Options} {n m : Node}

/-! ## Shapes -/

namespace Node

def successes (n : Node) : List Node := n.children.filter (!·.isFailed)

/-- Matches one after the other from `p` on, the last of which stops at `stop`. -/
def Chained : Nat → List Node → Nat → Prop
  | p, [], stop => stop = p
  | p, n :: ns, stop => ∃ q, n.stop = some q ∧ p ≤ n.offset ∧ n.offset ≤ q ∧ Chained q ns stop

structure Joined (n : Node) (stop : Nat) : Prop where
  text : n.text = n.successes.flatMap (·.text)
  chained : Chained n.offset n.successes stop

/-- `c` is the only child that matched, and the match of `n` up to `stop` is its match. -/
structure Chosen (n : Node) (stop : Nat) (c : Node) : Prop where
  only : n.successes = [c]
  last : n.children.getLast? = some c
  text : c.text = n.text
  stop : c.stop = some stop

def Shape (i : Input) (n : Node) (stop : Nat) : Prop :=
  match n.tag with
  | .sequence | .repetition => n.Joined stop
  | .choice | .rule _ => ∃ c, n.Chosen stop c
  | .optional => (∃ c, n.Chosen stop c) ∨ n.successes = [] ∧ n.text = [] ∧ stop = n.offset
  | .literal => n.children = [] ∧ i.slice? n.offset stop = some n.text
  | .endOfLine | .endOfInput => n.children = []

structure WellFormed (i : Input) (n : Node) : Prop where
  failed : n.stop = none → n.text = []
  range : ∀ stop, n.stop = some stop → n.offset ≤ stop ∧ stop ≤ i.size
  shape : ∀ stop, n.stop = some stop → n.Shape i stop

theorem Shape.text {n : Node} {stop : Nat} (h : n.Shape i stop)
    (hc : n.children ≠ [] ∨ n.tag.isStructural = true) : n.text = n.successes.flatMap (·.text) := by
  have hchosen : ∀ {c : Node}, n.Chosen stop c → n.text = n.successes.flatMap (·.text) := by
    intro c hc
    rw [hc.only, ← hc.text]
    simp
  unfold Shape at h
  cases ht : n.tag with
  | sequence | repetition =>
    rw [ht] at h
    exact h.text
  | choice | rule name =>
    rw [ht] at h
    obtain ⟨c, h⟩ := h
    exact hchosen h
  | optional =>
    rw [ht] at h
    rcases h with ⟨c, h⟩ | ⟨hnone, htext, _⟩
    · exact hchosen h
    · rw [hnone, htext]
      rfl
  | literal =>
    rw [ht] at h hc
    exact hc.elim (absurd h.1) fun h => (by cases h)
  | endOfLine | endOfInput =>
    rw [ht] at h hc
    exact hc.elim (absurd h) fun h => (by cases h)

structure Pruned (n : Node) : Prop where
  failed : n.stop = none → n.children = []
  matched : n.stop ≠ none → ∀ c ∈ n.children, c.stop ≠ none

end Node

section
variable {W : Char → Prop} {p stop : Nat} {ns cs : List Node}

theorem Laid.chained (h : Laid i W p ns stop) : Node.Chained p ns stop := by
  induction h with
  | nil _ => rfl
  | cons hn hs _ ih => exact ⟨_, hs, hn.le_offset, hn.offset_le hs, ih⟩

theorem Laid.stop_ne (h : Laid i W p ns stop) : ∀ c ∈ ns, c.stop ≠ none := by
  induction h with
  | nil _ => exact List.forall_mem_nil _
  | cons _ hs _ ih =>
    refine List.forall_mem_cons.2 ⟨?_, ih⟩
    rw [hs]
    exact Option.some_ne_none _

theorem filter_matched (h : ∀ c ∈ ns, c.stop ≠ none) : ns.filter (!·.isFailed) = ns := by
  rw [List.filter_eq_self]
  intro c hc
  simpa [Node.isFailed, Option.isSome_iff_ne_none] using h c hc

theorem filter_failed (h : ∀ c ∈ cs, c.stop = none) : cs.filter (!·.isFailed) = [] := by
  rw [List.filter_eq_nil_iff]
  intro c hc
  simp [Node.isFailed, h c hc]

theorem Node.successes_matched {tag : Tag} {text : Text} (hns : ∀ c ∈ ns, c.stop ≠ none)
    (hcs : ∀ c ∈ cs, c.stop = none) : (Node.matched tag text p stop (ns ++ cs)).successes = ns := by
  show (ns ++ cs).filter (!·.isFailed) = ns
  rw [List.filter_append, filter_matched hns, filter_failed hcs, List.append_nil]

theorem Laid.join (h : Laid i W p ns stop) (hcs : ∀ c ∈ cs, c.stop = none) (tag : Tag) :
    (Node.matched tag (joinText i p stop ns) p stop (ns ++ cs)).Joined stop := by
  have hs : (Node.matched tag (joinText i p stop ns) p stop (ns ++ cs)).successes = ns :=
    Node.successes_matched h.stop_ne hcs
  refine ⟨?_, ?_⟩
  · rw [hs]
    exact joinText_eq h
  · rw [hs]
    exact h.chained

theorem Node.choose {c : Node} (hc : c.stop = some stop) (hcs : ∀ c ∈ cs, c.stop = none) (tag : Tag) :
    (Node.matched tag c.text p stop (cs ++ [c])).Chosen stop c where
  only := by
    show (cs ++ [c]).filter (!·.isFailed) = [c]
    rw [List.filter_append, filter_failed hcs]
    simp [Node.isFailed, hc]
  last := List.getLast?_concat
  text := rfl
  stop := hc

end

/-! ## Derived nodes -/

section
variable {p : Nat} (h : Made g i o p n)
include h

theorem Made.shape {stop : Nat} (hs : n.stop = some stop) : n.Shape i stop := by
  have hk : ∀ {fs : List Node}, (∀ c ∈ fs, c.stop = none ∧ Derivable g i o c) →
      ∀ c ∈ o.kept fs, c.stop = none := by
    intro fs hfs c hc
    exact (hfs c (Options.mem_of_mem_kept hc)).1
  cases h with
  | literal ht =>
    cases hs
    exact ⟨rfl, ht.slice?⟩
  | ending ht =>
    rcases ht with rfl | rfl
    · show ([] : List Node) = []
      rfl
    · show ([] : List Node) = []
      rfl
  | row ht hl _ hfs =>
    cases hs
    have hj := hl.join (hk hfs)
    rcases ht with rfl | rfl
    · exact hj .sequence
    · exact hj .repetition
  | @one tag q c fs ht hc _ hfs =>
    cases hs
    have hch := Node.choose (p := p) hc (hk hfs) tag
    rcases ht with rfl | rfl | ⟨name, rfl⟩
    · exact ⟨c, hch⟩
    · exact .inl ⟨c, hch⟩
    · exact ⟨c, hch⟩
  | nothing hfs =>
    cases hs
    exact .inr ⟨filter_failed (hk hfs), rfl, rfl⟩
  | failed _ => cases hs

theorem Made.pruned (ho : o.includeFailed = false) : n.Pruned := by
  have hk := Options.kept_of_not_includeFailed ho
  cases h with
  | literal _ => exact ⟨fun h => (by cases h), fun _ => List.forall_mem_nil _⟩
  | ending _ => exact ⟨fun h => (by cases h), fun _ => List.forall_mem_nil _⟩
  | row _ hl _ _ =>
    rw [hk, List.append_nil]
    exact ⟨fun h => (by cases h), fun _ => hl.stop_ne⟩
  | one _ hc _ _ =>
    rw [hk, List.nil_append]
    refine ⟨fun h => (by cases h), fun _ => List.forall_mem_singleton.2 ?_⟩
    rw [hc]
    exact Option.some_ne_none _
  | nothing _ =>
    rw [hk]
    exact ⟨fun h => (by cases h), fun _ => List.forall_mem_nil _⟩
  | failed _ =>
    rw [hk]
    exact ⟨fun _ => rfl, fun h => absurd rfl h⟩

theorem Made.failed_text (hs : n.stop = none) : n.text = [] := by
  cases h with
  | failed _ => rfl
  | _ => cases hs

end

theorem Derives.wellFormed {e : Expr} {p : Nat} (h : Derives g i o e p n) (hp : i.isBoundary p = true) :
    n.WellFormed i where
  failed := (h.made hp).failed_text
  range stop hs := by
    have hf := h.fits (g.blanks_all o) hp
    exact ⟨hf.offset_le hs, Input.le_size_of_isBoundary (hf.stop_boundary hs)⟩
  shape _ := (h.made hp).shape

/-! ## Trees -/

def words : Grammar where
  rules := [⟨"words", {}, fun _ => .ok (.repetition false 1 none (.ref "word"))⟩,
    ⟨"word", { stripWhitespace := some false },
      fun _ => .ok (.sequence false [.literal false [.text ['a']] none, .literal false [.text ['b']] none])⟩]

def twoWords : Input := .ofText ['a', 'b', ' ', 'a', 'b']

theorem words_eval : ∃ n, ((Expr.ref "words").eval (words.scope twoWords {} 0) 0
    { words.after [] with active := [] }).1 = .ok n ∧ n.text = ['a', 'b', 'a', 'b'] ∧ n.stop = some 5 := by
  have h : ((Expr.ref "words").eval (words.scope twoWords {} 0) 0
      { words.after [] with active := [] }).1.toOption.map (fun n => (n.text, n.stop)) =
        some (['a', 'b', 'a', 'b'], some 5) := by decide +kernel
  obtain ⟨n, hn, hshown⟩ := Eval.exists_ok_of_toOption h
  obtain ⟨ht, hs⟩ := Prod.mk.inj hshown
  exact ⟨n, hn, ht, hs⟩

section
variable {calls : List Call} {st : List Frame} {e : Expr} {depth p : Nat}

/-- All nodes of a tree are well-formed, and none but the root is a failed attempt if those are not kept. -/
theorem eval_wellFormed (hp : i.isBoundary p = true)
    (h : (e.eval (g.scope i o depth) p { g.after calls with active := st }).1 = .ok n) :
    (∀ m : Node, m.Part n → m.WellFormed i) ∧
      (o.includeFailed = false → (∀ decl ∈ g.rules, decl.overrides.includeFailed ≠ some true) →
        ∀ m : Node, m.Part n → m.Pruned) := by
  have hn := (g.after_derives calls st hp h).derivable hp
  refine ⟨?_, ?_⟩
  · intro m hm
    obtain ⟨_, _, _, _, hq, hd⟩ := hn.part hm
    exact hd.wellFormed hq
  · intro ho hg m hm
    obtain ⟨_, _, _, ho', hq, hd⟩ := hn.part hm
    exact (hd.made hq).pruned (ho'.not_includeFailed ho hg)

theorem eval_wellFormed_words : ∃ n : Node, n.text = ['a', 'b', 'a', 'b'] ∧
    ∀ m : Node, m.Part n → m.WellFormed twoWords := by
  obtain ⟨n, hn, ht, _⟩ := words_eval
  exact ⟨n, ht, (eval_wellFormed (Input.isBoundary_zero _) hn).1⟩

def Grammar.Whitespace (g : Grammar) (o : Options) (c : Char) : Prop :=
  c ∈ o.whitespaceChars ∨ ∃ decl ∈ g.rules, ∃ ws, decl.overrides.whitespaceChars = some ws ∧ c ∈ ws

theorem Grammar.blanks_whitespace (g : Grammar) (o : Options) : g.Blanks (g.Whitespace o) o := by
  intro o' ho _ c hc
  rcases ho.whitespaceChars with e | ⟨decl, hd, e⟩
  · rw [e] at hc
    exact .inl hc
  · exact .inr ⟨decl, hd, _, e, hc⟩

theorem Grammar.blanks_none (ho : o.stripWhitespace = false)
    (hg : ∀ decl ∈ g.rules, decl.overrides.stripWhitespace ≠ some true) : g.Blanks (fun _ => False) o := by
  intro o' ho' hs
  rw [ho'.not_stripWhitespace ho hg] at hs
  cases hs

theorem Derivable.text {W : Char → Prop} {stop : Nat} (h : Derivable g i o n) (hW : g.Blanks W o)
    (hs : n.stop = some stop) : ∃ t, i.Span n.offset stop t ∧ Thinned W n.text t := by
  obtain ⟨_, _, _, ho, hp, hd⟩ := h
  exact (hd.fits (hW.under ho) hp).body stop hs

/-- The text of a node is its span without some whitespace, and all of its span where none is skipped. -/
theorem eval_text (hp : i.isBoundary p = true)
    (h : (e.eval (g.scope i o depth) p { g.after calls with active := st }).1 = .ok n) {stop : Nat}
    (hm : m.Part n) (hs : m.stop = some stop) :
    ∃ span, i.slice? m.offset stop = some span ∧ Thinned (g.Whitespace o) m.text span ∧
      (o.stripWhitespace = false → (∀ decl ∈ g.rules, decl.overrides.stripWhitespace ≠ some true) →
        m.text = span) := by
  have hn := ((g.after_derives calls st hp h).derivable hp).part hm
  obtain ⟨t, ht, hT⟩ := hn.text (g.blanks_whitespace o) hs
  refine ⟨t, ht.slice?, hT, ?_⟩
  intro ho hg
  obtain ⟨t', ht', hT'⟩ := hn.text (Grammar.blanks_none ho hg) hs
  have he : t' = t := Option.some.inj (ht'.slice?.symm.trans ht.slice?)
  rw [← he]
  exact hT'.eq_of_forall_not fun _ h => h

theorem eval_text_words : ∃ n : Node, n.stop = some 5 ∧ n.text = ['a', 'b', 'a', 'b'] ∧
    ∃ span, twoWords.slice? n.offset 5 = some span ∧ Thinned (words.Whitespace {}) n.text span := by
  obtain ⟨n, hn, ht, hs⟩ := words_eval
  obtain ⟨span, hspan, hT, _⟩ := eval_text (Input.isBoundary_zero _) hn (.self n) hs
  exact ⟨n, hs, ht, span, hspan, hT⟩

end

end PegTree
