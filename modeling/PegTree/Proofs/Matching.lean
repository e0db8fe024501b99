import PegTree.Proofs.Adequacy
import PegTree.Proofs.Trees

/-!
# Matches and refusals

Where nothing is skipped and no rule changes the options, an expression at a place either matches
up to a place or is refused. What a match leaves of its tree are the nodes of rules and of leaves.
Each kind of expression has one lemma that says when it matches and one that says when it is refused.
-/

namespace PegTree

/-! ## What a tree leaves -/

namespace Node

mutual
/-- What a node leaves once structural nodes have given way to their children: neither failed
attempts nor nodes of dropped rules. -/
def parts (drop : String → Bool) : Node → List Node
  | ⟨tag, text, offset, stop, children⟩ =>
    if stop.isNone || tag.ruleName?.any drop then []
    else if tag.isStructural then partsList drop children
    else [⟨tag, text, offset, stop, partsList drop children⟩]
def partsList (drop : String → Bool) : List Node → List Node
  | [] => []
  | n :: ns => n.parts drop ++ partsList drop ns
end

variable {drop : String → Bool} {ns ms : List Node}

theorem partsList_append : partsList drop (ns ++ ms) = partsList drop ns ++ partsList drop ms := by
  induction ns with
  | nil => rfl
  | cons n ns ih => rw [List.cons_append, partsList, partsList, ih, List.append_assoc]

theorem parts_failed {n : Node} (h : n.stop = none) : n.parts drop = [] := by
  obtain ⟨tag, text, offset, stop, children⟩ := n
  cases h
  simp [parts]

theorem partsList_failed (h : ∀ n ∈ ns, n.stop = none) : partsList drop ns = [] := by
  induction ns with
  | nil => rfl
  | cons n ns ih =>
    obtain ⟨hn, hns⟩ := List.forall_mem_cons.1 h
    rw [partsList, parts_failed hn, ih hns, List.append_nil]

theorem partsList_kept (drop : String → Bool) (o : Options) (h : ∀ n ∈ ns, n.stop = none) :
    partsList drop (o.kept ns) = [] :=
  partsList_failed fun n hn => h n (Options.mem_of_mem_kept hn)

theorem parts_structural {tag : Tag} {text : Text} {offset stop : Nat} (h : tag.isStructural = true) :
    (matched tag text offset stop ns).parts drop = partsList drop ns := by
  have hr : tag.ruleName? = none := by cases tag <;> first | rfl | cases h
  simp [matched, parts, h, hr]

theorem parts_leaf {tag : Tag} {text : Text} {offset stop : Nat} (h : tag.isStructural = false)
    (hr : tag.ruleName? = none) :
    (matched tag text offset stop []).parts drop = [matched tag text offset stop []] := by
  simp [matched, parts, partsList, h, hr]

theorem parts_rule {name : String} {text : Text} {offset stop : Nat} :
    (matched (.rule name) text offset stop ns).parts drop =
      if drop name then [] else [matched (.rule name) text offset stop (partsList drop ns)] := by
  simp [matched, parts, Tag.ruleName?, Tag.isStructural]

end Node

/-! ## Closings that are not asserted -/

/-- Whether so many matches are enough and not too many for a repetition. -/
def InBounds (low : Nat) (high : Option Nat) (count : Nat) : Prop :=
  low ≤ count ∧ ∀ h, high = some h → count ≤ h

theorem InBounds.not_exceeded {low count : Nat} {high : Option Nat} (h : ¬ InBounds low high count)
    (hlow : low ≤ count) : high.any (· < count) = true := by
  by_contra hn
  refine h ⟨hlow, fun k hk => ?_⟩
  simpa [hk] using hn

namespace Scope

variable {σ : Type} {s : Scope σ} {p : Nat} {run : Run} {trial : Trial} {m : Node}

theorem closeSequence_done {items : List Expr} (h : run.refused = none) :
    s.closeSequence false items p run =
      .ok (.matched .sequence (joinText s.input p run.stop run.matched) p run.stop run.matched) := by
  unfold closeSequence
  rw [h]

theorem closeSequence_refused {items : List Expr} (h : run.refused = some m) :
    s.closeSequence false items p run = .ok (.failed .sequence p (s.options.kept (run.matched ++ [m]))) := by
  unfold closeSequence
  rw [h]
  rfl

theorem closeChoice_chosen {place stop : Nat} (h : trial.chosen = some m) (hs : m.stop = some stop) :
    s.closeChoice false p place trial =
      .ok (.matched .choice m.text p stop (s.options.kept trial.failed ++ [m])) := by
  unfold closeChoice
  simp only [h, hs, Option.bind_some, Option.map_some]

theorem closeChoice_none {place : Nat} (h : trial.chosen = none) :
    s.closeChoice false p place trial = .ok (.failed .choice p (s.options.kept trial.failed)) := by
  unfold closeChoice
  rw [h]
  rfl

theorem closeRepetition_fits {a : Bool} {low : Nat} {high : Option Nat}
    (h : InBounds low high run.matched.length) :
    s.closeRepetition a low high p run =
      .ok (.matched .repetition (joinText s.input p run.stop run.matched) p run.stop (s.attempts run)) := by
  have hlow : ¬ run.matched.length < low := Nat.not_lt.2 h.1
  have hhigh : ¬ high.any (· < run.matched.length) = true := by
    cases hh : high with
    | none => simp
    | some k => simpa using h.2 k hh
  unfold closeRepetition
  simp only [if_neg hlow, if_neg hhigh]
  rfl

theorem closeRepetition_unfit {low : Nat} {high : Option Nat} (h : ¬ InBounds low high run.matched.length) :
    s.closeRepetition false low high p run =
      .ok (.failed .repetition p (s.options.kept (s.attempts run))) := by
  unfold closeRepetition
  dsimp only
  split
  · rfl
  · rename_i hlow
    rw [if_pos (InBounds.not_exceeded h (Nat.not_lt.1 hlow))]
    rfl

theorem closeOptional_matched {stop : Nat} (h : m.stop = some stop) :
    s.closeOptional p m = .matched .optional m.text p stop [m] := by
  unfold closeOptional
  rw [h]

theorem closeOptional_failed (h : m.stop = none) :
    s.closeOptional p m = .matched .optional [] p p (s.options.kept [m]) := by
  unfold closeOptional
  rw [h]

end Scope

theorem DerivesAny.chosen_stop {g : Grammar} {i : Input} {o : Options} {es : List Expr} {p : Nat} {trial : Trial}
    {m : Node} (h : DerivesAny g i o es p trial) (hm : trial.chosen = some m) : ∃ q, m.stop = some q := by
  match h with
  | .failed _ _ ht => exact ht.chosen_stop hm
  | .chosen _ hs =>
    cases hm
    exact ⟨_, hs⟩

/-! ## Leaves where nothing is skipped -/

/-- What the first of the matchers finds at the start of a text; nothing at all if there are none. -/
def firstLeading? (ms : List Matcher) (caseSensitive : Bool) (t : Text) : Option Text :=
  if ms.isEmpty then some [] else ms.findSome? (·.leading? caseSensitive t)

theorem firstLeading?_append {ms : List Matcher} {c : Bool} {t u : Text} (h : firstLeading? ms c t = some u) :
    ∃ rest, t = u ++ rest := by
  unfold firstLeading? at h
  split at h
  · cases h
    exact ⟨t, rfl⟩
  · obtain ⟨m, _, hm⟩ := List.exists_of_findSome?_eq_some h
    exact m.leading?_append hm

theorem firstLeading?_single {m : Matcher} {c : Bool} {t : Text} : firstLeading? [m] c t = m.leading? c t := by
  show List.findSome? (·.leading? c t) [m] = _
  rw [List.findSome?_cons]
  cases m.leading? c t <;> rfl

theorem leadingText?_self (needle z : Text) : leadingText? needle true (needle ++ z) = some needle := by
  show leading? (fun a b : Char => a == b) needle (needle ++ z) = some needle
  induction needle with
  | nil => rfl
  | cons c needle ih => simp [leading?, ih]

theorem firstLeading?_pattern {p : Pattern} {t : Text} : firstLeading? [.pattern p] true t = p.exact.leading? t :=
  firstLeading?_single

/-- The end of a line at the start of a text, which the end of the text is as well. -/
def lineEnd? (t : Text) : Option Text :=
  Scope.leadingNewline? t <|> if t.isEmpty then some [] else none

theorem lineEnd?_append {t u : Text} (h : lineEnd? t = some u) : ∃ rest, t = u ++ rest := by
  unfold lineEnd? at h
  cases hn : Scope.leadingNewline? t with
  | some v =>
    rw [hn] at h
    cases h
    exact Scope.leadingNewline?_append t u hn
  | none =>
    rw [hn] at h
    cases t with
    | nil => exact ⟨[], by simpa using h⟩
    | cons c t => cases h

namespace Input

variable {i : Input} {p : Nat} {x : Text}

theorem isBoundary_of_suffix? (h : i.suffix? p = some x) : i.isBoundary p = true := by
  unfold isBoundary
  rw [h]
  rfl

theorem size_le_iff (h : i.suffix? p = some x) : i.size ≤ p ↔ x = [] := by
  obtain ⟨u, ht, rfl⟩ := suffix?_eq_some_iff.1 h
  rw [i.size_eq, ht, byteSize_append]
  cases x with
  | nil => simp
  | cons c x =>
    have := c.utf8Size_pos
    simp only [byteSize_cons, reduceCtorEq, iff_false]
    omega

theorem suffix?_add {t : Text} (h : i.suffix? p = some (t ++ x)) : i.suffix? (p + byteSize t) = some x := by
  obtain ⟨u, ht, rfl⟩ := suffix?_eq_some_iff.1 h
  exact suffix?_eq_some_iff.2 ⟨u ++ t, by rw [ht, List.append_assoc], (byteSize_append u t).symm⟩

theorem rest_of_suffix? (h : i.suffix? p = some x) : i.rest p = x := by
  unfold rest
  rw [h]
  rfl

end Input

namespace Scope

variable {σ : Type} {s : Scope σ} {p : Nat} {x : Text} (hs : s.options.stripWhitespace = false)
  (hx : s.input.suffix? p = some x)
include hs hx

theorem cursor_skip : (Cursor.ofOffset s.input p).skip s.options = ⟨s.input, p⟩ := by
  have hp := Input.le_size_of_isBoundary (Input.isBoundary_of_suffix? hx)
  have hmin : min p s.input.size = p := Nat.min_eq_left hp
  simp [Cursor.ofOffset, Cursor.skip, Options.skippable, hs, hmin]

theorem literal_apply (ms : List Matcher) (c : Option Bool) :
    s.literal false ms c p = .ok (match firstLeading? ms (c.getD s.options.caseSensitive) x with
      | some t => .matched .literal t p (p + byteSize t) []
      | none => .failed .literal p []) := by
  unfold literal firstLeading?
  rw [cursor_skip hs hx]
  by_cases hm : ms.isEmpty = true
  · rw [if_pos hm, if_pos hm]
    rfl
  · rw [if_neg hm, if_neg hm]
    have hb := Input.isBoundary_of_suffix? hx
    unfold Cursor.accept? Cursor.rest
    simp only [Input.rest_of_suffix? hx]
    cases ms.findSome? (·.leading? (c.getD s.options.caseSensitive) x) with
    | none => rfl
    | some t =>
      simp only [Cursor.advance, hb, if_true]
      rfl

theorem endOfLine_apply : s.endOfLine false p = .ok (match lineEnd? x with
    | some t => .matched .endOfLine t p (p + byteSize t) []
    | none => .failed .endOfLine p []) := by
  have hb := Input.isBoundary_of_suffix? hx
  have hmin : min p s.input.size = p := Nat.min_eq_left (Input.le_size_of_isBoundary hb)
  have hstart : Cursor.ofOffset s.input p = ⟨s.input, p⟩ := by rw [Cursor.ofOffset, hmin]
  unfold endOfLine lineEnd?
  dsimp only
  rw [cursor_skip hs hx, hstart]
  unfold Cursor.accept? Cursor.rest Cursor.atEnd
  simp only [Input.rest_of_suffix? hx, Input.size_le_iff hx]
  cases leadingNewline? x with
  | some t =>
    simp only [Cursor.advance, hb, if_true]
    rfl
  | none =>
    cases x with
    | nil => rfl
    | cons c x => rfl

theorem endOfInput_apply (a : Bool) : s.endOfInput a p =
    if x = [] then .ok (.matched .endOfInput [] p p [])
    else refuse s.input a p ("Expected end of input but encountered " ++ s.input.describeAt p)
      (.failed .endOfInput p []) := by
  have hp : s.skip p = p := by
    have := cursor_skip hs hx
    exact congrArg Cursor.offset this
  unfold endOfInput
  simp only [hp, Input.size_le_iff hx]

end Scope

/-! ## Readings -/

/-- A grammar over an input, under options that skip nothing and that no rule changes, and the rules
whose nodes do not count. -/
structure Reading where
  grammar : Grammar
  input : Input
  options : Options
  drop : String → Bool
  strip : options.stripWhitespace = false
  steady : ∀ decl ∈ grammar.rules, decl.overrides = {}

namespace Reading

variable (r : Reading)

/-- The expression matches from `p` up to `q` and leaves `ns`. -/
def Matches (e : Expr) (p q : Nat) (ns : List Node) : Prop :=
  r.input.isBoundary p = true ∧
    ∃ n, Derives r.grammar r.input r.options e p n ∧ n.stop = some q ∧ n.parts r.drop = ns

def Refuses (e : Expr) (p : Nat) : Prop :=
  r.input.isBoundary p = true ∧ ∃ n, Derives r.grammar r.input r.options e p n ∧ n.stop = none

def RowMatches : List Expr → Nat → Nat → List Node → Prop
  | [], p, q, ns => r.input.isBoundary p = true ∧ q = p ∧ ns = []
  | e :: es, p, q, ns => ∃ m ns₁ ns₂, r.Matches e p m ns₁ ∧ RowMatches es m q ns₂ ∧ ns = ns₁ ++ ns₂

def RowRefuses : List Expr → Nat → Prop
  | [], _ => False
  | e :: es, p => r.Refuses e p ∨ ∃ m ns, r.Matches e p m ns ∧ RowRefuses es m

def AnyMatches : List Expr → Nat → Nat → List Node → Prop
  | [], _, _, _ => False
  | e :: es, p, q, ns => r.Matches e p q ns ∨ r.Refuses e p ∧ AnyMatches es p q ns

def AnyRefuses : List Expr → Nat → Prop
  | [], p => r.input.isBoundary p = true
  | e :: es, p => r.Refuses e p ∧ AnyRefuses es p

/-- So many matches in a row, up to a refusal or a match that does not move on. -/
inductive Repeats (e : Expr) : Nat → Nat → Nat → List Node → Prop
  | refused {p : Nat} : r.Refuses e p → Repeats e p p 0 []
  | still {p : Nat} {ns : List Node} : r.Matches e p p ns → Repeats e p p 1 ns
  | cons {p m q k : Nat} {ns ns' : List Node} : r.Matches e p m ns → m ≠ p → Repeats e m q k ns' →
    Repeats e p q (k + 1) (ns ++ ns')

variable {r} {e : Expr} {es : List Expr} {p q : Nat} {ns : List Node}

theorem skip_eq (hp : r.input.isBoundary p = true) : r.input.skip r.options p = p := by
  have hs := Input.span_skip r.options hp
  have ht : r.options.skippable (r.input.rest p) = [] := by simp [Options.skippable, r.strip]
  rw [ht] at hs
  exact hs.byteSize_eq

theorem blanks (r : Reading) : r.grammar.Blanks (fun _ => False) r.options :=
  Grammar.blanks_none r.strip fun decl hd => by
    rw [r.steady decl hd]
    exact fun h => by cases h

theorem apply_overrides {name : String} {rule : Rule} (hd : r.grammar.Declares name rule) :
    rule.overrides.apply r.options = r.options := by
  obtain ⟨_, decl, hd, _, he⟩ := hd.decl
  rw [he, r.steady decl hd]
  rfl

theorem Matches.le (h : r.Matches e p q ns) : p ≤ q := by
  obtain ⟨hp, n, hn, hs, _⟩ := h
  exact (hn.stop_boundary hp hs).1

theorem Matches.boundary (h : r.Matches e p q ns) : r.input.isBoundary q = true := by
  obtain ⟨hp, n, hn, hs, _⟩ := h
  exact (hn.stop_boundary hp hs).2

theorem Matches.span (h : r.Matches e p q ns) : ∃ t, r.input.Span p q t := by
  obtain ⟨hp, n, hn, hs, _⟩ := h
  obtain ⟨t, ht, _⟩ := (hn.fits r.blanks hp).whole hs
  exact ⟨t, ht⟩

section
variable {q' : Nat} {ns' : List Node} (ho : r.options.maxDepth = none)
include ho

theorem Matches.unique (h : r.Matches e p q ns) (h' : r.Matches e p q' ns') : q = q' ∧ ns = ns' := by
  obtain ⟨hp, n, hn, hs, rfl⟩ := h
  obtain ⟨_, n', hn', hs', rfl⟩ := h'
  cases hn.unique hn' ho hp
  exact ⟨Option.some.inj (hs.symm.trans hs'), rfl⟩

theorem Matches.not_refuses (h : r.Matches e p q ns) : ¬ r.Refuses e p := by
  rintro ⟨_, n', hn', hs'⟩
  obtain ⟨hp, n, hn, hs, rfl⟩ := h
  cases hn.unique hn' ho hp
  cases hs.symm.trans hs'

end

/-! ## Rows, alternatives and repetitions -/

theorem rowMatches_iff : r.RowMatches es p q ns ↔ r.input.isBoundary p = true ∧
    ∃ run, DerivesRow r.grammar r.input r.options es p run ∧ run.refused = none ∧ run.stop = q ∧
      Node.partsList r.drop run.matched = ns := by
  induction es generalizing p ns with
  | nil =>
    constructor
    · rintro ⟨hp, rfl, rfl⟩
      exact ⟨hp, _, .nil, rfl, rfl, rfl⟩
    · rintro ⟨hp, run, hr, _, rfl, rfl⟩
      cases hr
      exact ⟨hp, rfl, rfl⟩
  | cons e es ih =>
    constructor
    · rintro ⟨m, ns₁, ns₂, ⟨hp, n, hn, hs, rfl⟩, hrow, rfl⟩
      obtain ⟨_, run, hr, href, rfl, rfl⟩ := ih.1 hrow
      rw [← skip_eq hp] at hn
      exact ⟨hp, _, .cons hn hs hr, href, rfl, rfl⟩
    · rintro ⟨hp, run, hr, href, rfl, rfl⟩
      cases hr with
      | refused _ _ => cases href
      | @cons _ _ _ _ n m run hn hs hr =>
        rw [skip_eq hp] at hn
        have hm : r.Matches e p m (n.parts r.drop) := ⟨hp, n, hn, hs, rfl⟩
        exact ⟨m, _, _, hm, ih.2 ⟨hm.boundary, run, hr, href, rfl, rfl⟩, rfl⟩

theorem rowRefuses_iff : r.RowRefuses es p ↔ r.input.isBoundary p = true ∧
    ∃ run m, DerivesRow r.grammar r.input r.options es p run ∧ run.refused = some m := by
  induction es generalizing p with
  | nil =>
    constructor
    · exact False.elim
    · rintro ⟨_, run, m, hr, href⟩
      cases hr
      cases href
  | cons e es ih =>
    constructor
    · rintro (⟨hp, n, hn, hs⟩ | ⟨m, ns, ⟨hp, n, hn, hs, rfl⟩, hrow⟩)
      · rw [← skip_eq hp] at hn
        exact ⟨hp, _, n, .refused hn hs, rfl⟩
      · obtain ⟨_, run, m', hr, href⟩ := ih.1 hrow
        rw [← skip_eq hp] at hn
        exact ⟨hp, _, m', .cons hn hs hr, href⟩
    · rintro ⟨hp, run, m', hr, href⟩
      cases hr with
      | refused hn hs =>
        rw [skip_eq hp] at hn
        exact .inl ⟨hp, _, hn, hs⟩
      | @cons _ _ _ _ n m run hn hs hr =>
        rw [skip_eq hp] at hn
        have hm : r.Matches e p m (n.parts r.drop) := ⟨hp, n, hn, hs, rfl⟩
        exact .inr ⟨m, _, hm, ih.2 ⟨hm.boundary, run, m', hr, href⟩⟩

theorem anyMatches_iff : r.AnyMatches es p q ns ↔ r.input.isBoundary p = true ∧
    ∃ trial n, DerivesAny r.grammar r.input r.options es p trial ∧ trial.chosen = some n ∧ n.stop = some q ∧
      n.parts r.drop = ns := by
  induction es with
  | nil =>
    constructor
    · exact False.elim
    · rintro ⟨_, trial, n, ht, hc, _⟩
      cases ht
      cases hc
  | cons e es ih =>
    constructor
    · rintro (⟨hp, n, hn, hs, rfl⟩ | ⟨⟨hp, m, hm, hf⟩, hany⟩)
      · exact ⟨hp, _, n, .chosen hn hs, rfl, hs, rfl⟩
      · obtain ⟨_, trial, n, ht, hc, hs, hns⟩ := ih.1 hany
        exact ⟨hp, _, n, .failed hm hf ht, hc, hs, hns⟩
    · rintro ⟨hp, trial, n, ht, hc, hs, rfl⟩
      cases ht with
      | failed hm hf ht => exact .inr ⟨⟨hp, _, hm, hf⟩, ih.2 ⟨hp, _, n, ht, hc, hs, rfl⟩⟩
      | chosen hn hs' =>
        cases hc
        exact .inl ⟨hp, _, hn, hs, rfl⟩

theorem anyRefuses_iff : r.AnyRefuses es p ↔ r.input.isBoundary p = true ∧
    ∃ trial, DerivesAny r.grammar r.input r.options es p trial ∧ trial.chosen = none := by
  induction es with
  | nil => exact ⟨fun hp => ⟨hp, _, .nil, rfl⟩, fun h => h.1⟩
  | cons e es ih =>
    constructor
    · rintro ⟨⟨hp, m, hm, hf⟩, hany⟩
      obtain ⟨_, trial, ht, hc⟩ := ih.1 hany
      exact ⟨hp, _, .failed hm hf ht, hc⟩
    · rintro ⟨hp, trial, ht, hc⟩
      cases ht with
      | failed hm hf ht => exact ⟨⟨hp, _, hm, hf⟩, ih.2 ⟨hp, _, ht, hc⟩⟩
      | chosen hn hs => cases hc

theorem repeats_of_derives {o : Options} {p : Nat} {run : Run}
    (h : DerivesLoop r.grammar r.input o e p run) (ho : o = r.options) (hp : r.input.isBoundary p = true) :
    r.Repeats e p run.stop run.matched.length (Node.partsList r.drop run.matched) := by
  have hskip : r.input.skip o p = p := by rw [ho, skip_eq hp]
  match h with
  | .refused (n := n) hn hs =>
    rw [hskip, ho] at hn
    exact .refused ⟨hp, n, hn, hs⟩
  | .still (n := n) hn hs =>
    rw [hskip] at hn hs
    rw [ho] at hn
    rw [hskip, Node.partsList, Node.partsList, List.append_nil]
    exact .still ⟨hp, n, hn, hs, rfl⟩
  | @DerivesLoop.cons _ _ _ _ _ n m _ hn hs hne hr =>
    rw [hskip] at hn hne
    rw [ho] at hn
    have hm : r.Matches e p m (n.parts r.drop) := ⟨hp, n, hn, hs, rfl⟩
    exact .cons hm hne (repeats_of_derives hr ho hm.boundary)

theorem repeats_iff {k : Nat} : r.Repeats e p q k ns ↔ r.input.isBoundary p = true ∧
    ∃ run, DerivesLoop r.grammar r.input r.options e p run ∧ run.matched.length = k ∧ run.stop = q ∧
      Node.partsList r.drop run.matched = ns := by
  constructor
  · intro h
    induction h with
    | refused h =>
      obtain ⟨hp, n, hn, hs⟩ := h
      rw [← skip_eq hp] at hn
      exact ⟨hp, _, .refused hn hs, rfl, rfl, rfl⟩
    | still h =>
      obtain ⟨hp, n, hn, hs, rfl⟩ := h
      rw [← skip_eq hp] at hn hs
      exact ⟨hp, _, .still hn hs, rfl, skip_eq hp, List.append_nil _⟩
    | cons h hne _ ih =>
      obtain ⟨hp, n, hn, hs, rfl⟩ := h
      obtain ⟨_, run, hr, rfl, rfl, rfl⟩ := ih
      rw [← skip_eq hp] at hn hne
      exact ⟨hp, _, .cons hn hs hne hr, rfl, rfl, rfl⟩
  · rintro ⟨hp, run, hr, rfl, rfl, rfl⟩
    exact repeats_of_derives hr rfl hp

theorem Repeats.mem {k : Nat} {c : Node} (h : r.Repeats e p q k ns) (hc : c ∈ ns) :
    ∃ p' q' ms, r.Matches e p' q' ms ∧ c ∈ ms ∧ p ≤ p' := by
  induction h with
  | refused _ => cases hc
  | still hm => exact ⟨_, _, _, hm, hc, Nat.le_refl _⟩
  | cons hm _ _ ih =>
    rcases List.mem_append.1 hc with hc | hc
    · exact ⟨_, _, _, hm, hc, Nat.le_refl _⟩
    · obtain ⟨p', q', ms, hm', hc', hle⟩ := ih hc
      exact ⟨p', q', ms, hm', hc', Nat.le_trans hm.le hle⟩

/-- Rounds that each take a text of a kind take such a text together. -/
theorem Repeats.span_of {L : Text → Prop} {k : Nat} (hnil : L []) (happend : ∀ {u v}, L u → L v → L (u ++ v))
    (he : ∀ {p q ns}, r.Matches e p q ns → ∃ u, r.input.Span p q u ∧ L u) (h : r.Repeats e p q k ns)
    (hp : r.input.isBoundary p = true) : ∃ u, r.input.Span p q u ∧ L u := by
  induction h with
  | refused _ => exact ⟨[], .of_boundary hp, hnil⟩
  | still hm => exact he hm
  | cons hm _ _ ih =>
    obtain ⟨u, hu, hl⟩ := he hm
    obtain ⟨v, hv, hl'⟩ := ih hm.boundary
    exact ⟨u ++ v, hu.append hv, happend hl hl'⟩

/-! ## Expressions -/

theorem matches_sequence : r.Matches (.sequence false es) p q ns ↔ r.RowMatches es p q ns := by
  rw [rowMatches_iff]
  constructor
  · rintro ⟨hp, n, hn, hs, rfl⟩
    cases hn with
    | sequence hr hc =>
      rcases Scope.closeSequence_ok hc with ⟨href, rfl⟩ | ⟨m, _, rfl⟩
      · cases hs
        exact ⟨hp, _, hr, href, rfl, (Node.parts_structural rfl).symm⟩
      · cases hs
  · rintro ⟨hp, run, hr, href, rfl, rfl⟩
    exact ⟨hp, _, .sequence hr (Scope.closeSequence_done href), rfl, Node.parts_structural rfl⟩

theorem refuses_sequence : r.Refuses (.sequence false es) p ↔ r.RowRefuses es p := by
  rw [rowRefuses_iff]
  constructor
  · rintro ⟨hp, n, hn, hs⟩
    cases hn with
    | sequence hr hc =>
      rcases Scope.closeSequence_ok hc with ⟨_, rfl⟩ | ⟨m, href, _⟩
      · cases hs
      · exact ⟨hp, _, m, hr, href⟩
  · rintro ⟨hp, run, m, hr, href⟩
    exact ⟨hp, _, .sequence hr (Scope.closeSequence_refused href), rfl⟩

theorem parts_choice {trial : Trial} {n : Node} {text : Text} (hp : r.input.isBoundary p = true)
    (ht : DerivesAny r.grammar r.input r.options es p trial) :
    (Node.matched .choice text p q (r.options.kept trial.failed ++ [n])).parts r.drop = n.parts r.drop := by
  have hf := Node.partsList_kept r.drop r.options fun m hm => ((ht.nodes hp).1 m hm).1
  rw [Node.parts_structural rfl, Node.partsList_append, hf]
  simp [Node.partsList]

theorem matches_choice : r.Matches (.choice false es) p q ns ↔ r.AnyMatches es p q ns := by
  rw [anyMatches_iff]
  constructor
  · rintro ⟨hp, n, hn, hs, rfl⟩
    cases hn with
    | choice ht hc =>
      rw [skip_eq hp] at ht
      rcases Scope.closeChoice_ok hc with ⟨m, stop, hm, hms, rfl⟩ | rfl
      · cases hs
        exact ⟨hp, _, m, ht, hm, hms, (parts_choice hp ht).symm⟩
      · cases hs
  · rintro ⟨hp, trial, n, ht, hch, hs, rfl⟩
    have ht' := ht
    rw [← skip_eq hp] at ht'
    exact ⟨hp, _, .choice ht' (Scope.closeChoice_chosen hch hs), rfl, parts_choice hp ht⟩

theorem refuses_choice : r.Refuses (.choice false es) p ↔ r.AnyRefuses es p := by
  rw [anyRefuses_iff]
  constructor
  · rintro ⟨hp, n, hn, hs⟩
    cases hn with
    | @choice _ _ _ _ trial _ ht hc =>
      rw [skip_eq hp] at ht
      cases hch : trial.chosen with
      | none => exact ⟨hp, _, ht, hch⟩
      | some m =>
        obtain ⟨q, hq⟩ := ht.chosen_stop hch
        rw [Scope.closeChoice_chosen hch hq] at hc
        cases hc
        cases hs
  · rintro ⟨hp, trial, ht, hch⟩
    rw [← skip_eq hp] at ht
    exact ⟨hp, _, .choice ht (Scope.closeChoice_none hch), rfl⟩

theorem parts_repetition {run : Run} {text : Text} (hp : r.input.isBoundary p = true)
    (hr : DerivesLoop r.grammar r.input r.options e p run) :
    (Node.matched .repetition text p q ((Scope.plain r.input r.options).attempts run)).parts r.drop =
      Node.partsList r.drop run.matched := by
  have hf := Node.partsList_kept r.drop r.options fun m hm => ((hr.nodes hp).2 m hm).1
  rw [Node.parts_structural rfl, Scope.attempts, Node.partsList_append]
  show _ ++ Node.partsList r.drop (r.options.kept run.refused.toList) = _
  rw [hf, List.append_nil]

section
variable {low : Nat} {high : Option Nat}

theorem matches_repetition : r.Matches (.repetition false low high e) p q ns ↔
    ∃ k, r.Repeats e p q k ns ∧ InBounds low high k := by
  constructor
  · rintro ⟨hp, n, hn, hs, rfl⟩
    cases hn with
    | @repetition _ _ _ _ _ _ run _ hr hc =>
      by_cases hb : InBounds low high run.matched.length
      · rw [Scope.closeRepetition_fits hb] at hc
        cases hc
        cases hs
        exact ⟨_, repeats_iff.2 ⟨hp, run, hr, rfl, rfl, (parts_repetition hp hr).symm⟩, hb⟩
      · rw [Scope.closeRepetition_unfit hb] at hc
        cases hc
        cases hs
  · rintro ⟨k, hrep, hb⟩
    obtain ⟨hp, run, hr, rfl, rfl, rfl⟩ := repeats_iff.1 hrep
    exact ⟨hp, _, .repetition hr (Scope.closeRepetition_fits hb), rfl, parts_repetition hp hr⟩

/-- Any number of items is within the bounds. -/
theorem matches_many : r.Matches e.many p q ns ↔ ∃ k, r.Repeats e p q k ns :=
  matches_repetition.trans (exists_congr fun k => and_iff_left ⟨Nat.zero_le k, fun _ h => by cases h⟩)

theorem refuses_repetition : r.Refuses (.repetition false low high e) p ↔
    ∃ q k ns, r.Repeats e p q k ns ∧ ¬ InBounds low high k := by
  constructor
  · rintro ⟨hp, n, hn, hs⟩
    cases hn with
    | @repetition _ _ _ _ _ _ run _ hr hc =>
      by_cases hb : InBounds low high run.matched.length
      · rw [Scope.closeRepetition_fits hb] at hc
        cases hc
        cases hs
      · exact ⟨_, _, _, repeats_iff.2 ⟨hp, run, hr, rfl, rfl, rfl⟩, hb⟩
  · rintro ⟨q, k, ns, hrep, hb⟩
    obtain ⟨hp, run, hr, rfl, rfl, rfl⟩ := repeats_iff.1 hrep
    exact ⟨hp, _, .repetition hr (Scope.closeRepetition_unfit hb), rfl⟩

end

theorem parts_optional {text : Text} {n : Node} :
    (Node.matched .optional text p q [n]).parts r.drop = n.parts r.drop := by
  rw [Node.parts_structural rfl, Node.partsList, Node.partsList, List.append_nil]

theorem parts_optional_failed {text : Text} {n : Node} (hn : n.stop = none) :
    (Node.matched .optional text p q (r.options.kept [n])).parts r.drop = [] := by
  rw [Node.parts_structural rfl, Node.partsList_kept _ _ (List.forall_mem_singleton.2 hn)]

theorem matches_optional {a : Bool} : r.Matches (.optional a e) p q ns ↔
    r.Matches e p q ns ∨ r.Refuses e p ∧ q = p ∧ ns = [] := by
  constructor
  · rintro ⟨hp, n, hn, hs, rfl⟩
    cases hn with
    | @optional _ _ _ _ m hm =>
      cases hms : m.stop with
      | some stop =>
        rw [Scope.closeOptional_matched hms] at hs ⊢
        cases hs
        exact .inl ⟨hp, m, hm, hms, parts_optional.symm⟩
      | none =>
        rw [Scope.closeOptional_failed hms] at hs ⊢
        cases hs
        exact .inr ⟨⟨hp, m, hm, hms⟩, rfl, parts_optional_failed hms⟩
  · rintro (⟨hp, m, hm, hms, rfl⟩ | ⟨⟨hp, m, hm, hms⟩, rfl, rfl⟩)
    · refine ⟨hp, _, .optional hm, ?_⟩
      rw [Scope.closeOptional_matched hms]
      exact ⟨rfl, parts_optional⟩
    · refine ⟨hp, _, .optional hm, ?_⟩
      rw [Scope.closeOptional_failed hms]
      exact ⟨rfl, parts_optional_failed hms⟩

theorem not_refuses_optional {a : Bool} : ¬ r.Refuses (.optional a e) p := by
  rintro ⟨_, n, hn, hs⟩
  cases hn with
  | @optional _ _ _ _ m hm =>
    cases hms : m.stop with
    | some stop =>
      rw [Scope.closeOptional_matched hms] at hs
      cases hs
    | none =>
      rw [Scope.closeOptional_failed hms] at hs
      cases hs

/-! ## Leaves -/

section
variable {x : Text} (hx : r.input.suffix? p = some x)
include hx

theorem derives_literal {ms : List Matcher} {c : Option Bool} {n : Node} :
    Derives r.grammar r.input r.options (.literal false ms c) p n ↔
      n = match firstLeading? ms (c.getD r.options.caseSensitive) x with
        | some t => .matched .literal t p (p + byteSize t) []
        | none => .failed .literal p [] := by
  have hl := Scope.literal_apply (s := .plain r.input r.options) r.strip hx ms c
  constructor
  · intro h
    cases h with
    | literal h => exact Except.ok.inj (h.symm.trans hl)
  · rintro rfl
    exact .literal hl

theorem matches_literal {ms : List Matcher} {c : Option Bool} : r.Matches (.literal false ms c) p q ns ↔
    ∃ t, firstLeading? ms (c.getD r.options.caseSensitive) x = some t ∧ q = p + byteSize t ∧
      ns = [.matched .literal t p q []] := by
  constructor
  · rintro ⟨_, n, hn, hs, rfl⟩
    rw [derives_literal hx] at hn
    cases ht : firstLeading? ms (c.getD r.options.caseSensitive) x with
    | some t =>
      rw [ht] at hn
      subst hn
      cases hs
      exact ⟨t, rfl, rfl, Node.parts_leaf rfl rfl⟩
    | none =>
      rw [ht] at hn
      subst hn
      cases hs
  · rintro ⟨t, ht, rfl, rfl⟩
    refine ⟨Input.isBoundary_of_suffix? hx, _, (derives_literal hx).2 rfl, ?_⟩
    rw [ht]
    exact ⟨rfl, Node.parts_leaf rfl rfl⟩

theorem refuses_literal {ms : List Matcher} {c : Option Bool} : r.Refuses (.literal false ms c) p ↔
    firstLeading? ms (c.getD r.options.caseSensitive) x = none := by
  constructor
  · rintro ⟨_, n, hn, hs⟩
    rw [derives_literal hx] at hn
    cases ht : firstLeading? ms (c.getD r.options.caseSensitive) x with
    | some t =>
      rw [ht] at hn
      subst hn
      cases hs
    | none => rfl
  · intro ht
    refine ⟨Input.isBoundary_of_suffix? hx, _, (derives_literal hx).2 rfl, ?_⟩
    rw [ht]
    rfl

theorem derives_endOfLine {n : Node} : Derives r.grammar r.input r.options (.endOfLine false) p n ↔
    n = match lineEnd? x with
      | some t => .matched .endOfLine t p (p + byteSize t) []
      | none => .failed .endOfLine p [] := by
  have hl := Scope.endOfLine_apply (s := .plain r.input r.options) r.strip hx
  constructor
  · intro h
    cases h with
    | endOfLine h => exact Except.ok.inj (h.symm.trans hl)
  · rintro rfl
    exact .endOfLine hl

theorem matches_endOfLine : r.Matches (.endOfLine false) p q ns ↔
    ∃ t, lineEnd? x = some t ∧ q = p + byteSize t ∧ ns = [.matched .endOfLine t p q []] := by
  constructor
  · rintro ⟨_, n, hn, hs, rfl⟩
    rw [derives_endOfLine hx] at hn
    cases ht : lineEnd? x with
    | some t =>
      rw [ht] at hn
      subst hn
      cases hs
      exact ⟨t, rfl, rfl, Node.parts_leaf rfl rfl⟩
    | none =>
      rw [ht] at hn
      subst hn
      cases hs
  · rintro ⟨t, ht, rfl, rfl⟩
    refine ⟨Input.isBoundary_of_suffix? hx, _, (derives_endOfLine hx).2 rfl, ?_⟩
    rw [ht]
    exact ⟨rfl, Node.parts_leaf rfl rfl⟩

theorem refuses_endOfLine : r.Refuses (.endOfLine false) p ↔ lineEnd? x = none := by
  constructor
  · rintro ⟨_, n, hn, hs⟩
    rw [derives_endOfLine hx] at hn
    cases ht : lineEnd? x with
    | some t =>
      rw [ht] at hn
      subst hn
      cases hs
    | none => rfl
  · intro ht
    refine ⟨Input.isBoundary_of_suffix? hx, _, (derives_endOfLine hx).2 rfl, ?_⟩
    rw [ht]
    rfl

theorem matches_endOfInput {a : Bool} : r.Matches (.endOfInput a) p q ns ↔
    x = [] ∧ q = p ∧ ns = [.matched .endOfInput [] p p []] := by
  have hl := Scope.endOfInput_apply (s := .plain r.input r.options) r.strip hx a
  constructor
  · rintro ⟨_, n, hn, hs, rfl⟩
    cases hn with
    | endOfInput h =>
      by_cases he : x = []
      · rw [hl, if_pos he] at h
        cases h
        cases hs
        exact ⟨he, rfl, Node.parts_leaf rfl rfl⟩
      · rw [hl, if_neg he] at h
        cases refuse_eq_ok h
        cases hs
  · rintro ⟨he, rfl, rfl⟩
    rw [if_pos he] at hl
    exact ⟨Input.isBoundary_of_suffix? hx, _, .endOfInput hl, rfl, Node.parts_leaf rfl rfl⟩

theorem refuses_endOfInput : r.Refuses (.endOfInput false) p ↔ x ≠ [] := by
  have hl := Scope.endOfInput_apply (s := .plain r.input r.options) r.strip hx false
  constructor
  · rintro ⟨_, n, hn, hs⟩ he
    cases hn with
    | endOfInput h =>
      rw [hl, if_pos he] at h
      cases h
      cases hs
  · intro he
    rw [if_neg he] at hl
    exact ⟨Input.isBoundary_of_suffix? hx, _, .endOfInput hl, rfl⟩

end

/-! ## Rules -/

section
variable {name : String} {rule : Rule} (hd : r.grammar.Declares name rule)
include hd

/-- A match of a rule is a match of its body, and its node has the text in between. -/
theorem matches_rule : r.Matches (.rule false name) p q ns ↔ ∃ inner t, r.Matches rule.body p q inner ∧
    r.input.Span p q t ∧ ns = if r.drop name then [] else [.matched (.rule name) t p q inner] := by
  have hname : rule.name = name := hd.decl.1
  constructor
  · rintro ⟨hp, n, hn, hs, rfl⟩
    cases hn with
    | @rule _ _ _ rule' _ tree _ hd' hb hc =>
      cases hd'.unique hd
      rw [apply_overrides hd] at hb
      rcases closeRule_ok hc with ⟨stop, ht, rfl⟩ | ⟨_, rfl⟩
      · cases hs
        obtain ⟨t, hspan, hthin⟩ := (hb.fits r.blanks hp).whole ht
        have htext : tree.text = t := hthin.eq_of_forall_not fun _ h => h
        refine ⟨tree.parts r.drop, t, ⟨hp, tree, hb, ht, rfl⟩, hspan, ?_⟩
        rw [Node.parts_rule, hname, htext, Node.partsList, Node.partsList, List.append_nil]
      · cases hs
  · rintro ⟨inner, t, ⟨hp, tree, hb, ht, rfl⟩, hspan, rfl⟩
    obtain ⟨t', hspan', hthin⟩ := (hb.fits r.blanks hp).whole ht
    have htext : tree.text = t := by
      rw [hthin.eq_of_forall_not fun _ h => h]
      exact hspan'.unique hspan
    have hb' := hb
    rw [← apply_overrides hd] at hb'
    have hc : closeRule r.input r.options false rule.name p tree =
        .ok (.matched (.rule name) t p q [tree]) := by
      unfold closeRule
      rw [ht, hname, htext]
    refine ⟨hp, _, .rule hd hb' hc, rfl, ?_⟩
    rw [Node.parts_rule, Node.partsList, Node.partsList, List.append_nil]

theorem refuses_rule : r.Refuses (.rule false name) p ↔ r.Refuses rule.body p := by
  constructor
  · rintro ⟨hp, n, hn, hs⟩
    cases hn with
    | @rule _ _ _ rule' _ tree _ hd' hb hc =>
      cases hd'.unique hd
      rw [apply_overrides hd] at hb
      rcases closeRule_ok hc with ⟨stop, _, rfl⟩ | ⟨ht, rfl⟩
      · cases hs
      · exact ⟨hp, tree, hb, ht⟩
  · rintro ⟨hp, tree, hb, ht⟩
    have hb' := hb
    rw [← apply_overrides hd] at hb'
    have hc : closeRule r.input r.options false rule.name p tree =
        .ok (.failed (.rule rule.name) p (r.options.kept [tree])) := by
      unfold closeRule
      rw [ht]
      rfl
    exact ⟨hp, _, .rule hd hb' hc, rfl⟩

end

end Reading

end PegTree
