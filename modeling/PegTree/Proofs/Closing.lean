import PegTree.Eval.Call
import PegTree.Proofs.Span

/-!
# What leaves and closings give

Each way to make a node either gives one of a few nodes or stops with a parse error at a known
place. A node of a compound expression shows which run, trial or match it was made from.
-/

namespace PegTree

theorem refuse_eq_ok {i : Input} {a : Bool} {p : Nat} {message : String} {node n : Node}
    (h : refuse i a p message node = .ok n) : n = node := by
  unfold refuse at h
  split at h
  · cases h
  · exact (Except.ok.inj h).symm

theorem refuse_eq_error {i : Input} {a : Bool} {p : Nat} {message : String} {node : Node} {f : Fault}
    (h : refuse i a p message node = .error f) : f = .error (.parse ⟨p, message, i⟩) := by
  unfold refuse at h
  split at h
  · exact (Except.error.inj h).symm
  · cases h

theorem asserted_of_refuse {i : Input} {a : Bool} {p : Nat} {message : String} {node : Node} {f : Fault}
    (h : refuse i a p message node = .error f) : a = true := by
  unfold refuse at h
  cases a with
  | true => rfl
  | false => cases h

theorem Cursor.accept?_fault {c : Cursor} {leading? : Text → Option Text} {f : Fault}
    (h : c.accept? leading? = .error f) : f = .insideCharacter c.offset := by
  unfold Cursor.accept? Cursor.advance at h
  cases hl : leading? c.rest with
  | none =>
    rw [hl] at h
    cases h
  | some t =>
    rw [hl] at h
    by_cases hb : c.input.isBoundary c.offset = true
    · simp only [if_pos hb] at h
      cases h
    · simp only [if_neg hb] at h
      cases h
      rfl

theorem Options.mem_of_mem_kept {o : Options} {ns : List Node} {n : Node} (h : n ∈ o.kept ns) : n ∈ ns := by
  unfold kept at h
  split at h
  · exact h
  · cases h

theorem Options.kept_of_not_includeFailed {o : Options} (h : o.includeFailed = false) (ns : List Node) :
    o.kept ns = [] := by
  simp [kept, h]

theorem Options.kept_nil (o : Options) : o.kept [] = [] := by
  unfold kept
  split <;> rfl

/-- Only the texts of nodes and the text of their span make up a joined text. -/
theorem joinText_map {i j : Input} {φ : Node → Node} (hφ : ∀ n, (φ n).text = n.text) {p q p' q' : Nat}
    (hspan : i.slice? p q = j.slice? p' q') (ns : List Node) :
    joinText i p q (ns.map φ) = joinText j p' q' ns := by
  have hflat : (ns.map φ).flatMap (·.text) = ns.flatMap (·.text) := by
    simp [List.flatMap_map, hφ]
  have hsize : (ns.map φ).foldr (fun n size => byteSize n.text + size) 0 =
      ns.foldr (fun n size => byteSize n.text + size) 0 := by
    simp [List.foldr_map, hφ]
  match ns, hflat, hsize with
  | [], _, _ => simp only [List.map_nil, joinText, hspan]
  | [n], _, _ => exact hφ n
  | m :: n :: ns, hflat, hsize =>
    rw [List.map_cons, List.map_cons] at hflat hsize ⊢
    simp only [joinText, hflat, hsize, hspan]

namespace Scope

variable {σ : Type} {s : Scope σ} {a : Bool} {p : Nat} {n : Node} {f : Fault}

/-! ## Leaves -/

/-- Wherever it is tried, a literal stops inside a character or by its assertion. -/
theorem literal_fault {ms : List Matcher} {c : Option Bool} (h : s.literal a ms c p = .error f) :
    (∃ q, f = .insideCharacter q) ∨ a = true ∧ ∃ e, f = .error (.parse e) := by
  unfold literal at h
  by_cases hm : ms.isEmpty = true
  · rw [if_pos hm] at h
    cases h
  · rw [if_neg hm] at h
    cases ha : ((Cursor.ofOffset s.input p).skip s.options).accept?
      fun t => ms.findSome? (·.leading? (c.getD s.options.caseSensitive) t) with
    | error f' =>
      rw [ha] at h
      cases h
      exact .inl ⟨_, Cursor.accept?_fault ha⟩
    | ok r =>
      rw [ha] at h
      cases r with
      | some r => cases h
      | none => exact .inr ⟨asserted_of_refuse h, _, refuse_eq_error h⟩

theorem endOfLine_fault (h : s.endOfLine a p = .error f) :
    (∃ q, f = .insideCharacter q) ∨ a = true ∧ ∃ e, f = .error (.parse e) := by
  simp only [endOfLine] at h
  cases ha : (Cursor.ofOffset s.input p).accept? leadingNewline? with
  | error f' =>
    rw [ha] at h
    cases h
    exact .inl ⟨_, Cursor.accept?_fault ha⟩
  | ok r =>
    rw [ha] at h
    cases r with
    | some r => cases h
    | none =>
      change (if _ then _ else _) = _ at h
      split at h
      · cases h
      · exact .inr ⟨asserted_of_refuse h, _, refuse_eq_error h⟩

theorem leadingNewline?_append (t u : Text) (h : leadingNewline? t = some u) : ∃ rest, t = u ++ rest := by
  unfold leadingNewline? at h
  cases hn : leadingText? ['\n'] true t with
  | some v =>
    rw [hn] at h
    cases h
    exact leadingText?_append hn
  | none =>
    rw [hn] at h
    exact leadingText?_append h

section
variable (hp : s.input.isBoundary p = true)
include hp

/-- Matchers are tried after the whitespace; a match is the span up to where it stops. -/
theorem literal_eq {ms : List Matcher} {c : Option Bool} :
    (∃ t stop, s.literal a ms c p = .ok (.matched .literal t (s.skip p) stop []) ∧
        s.input.Span (s.skip p) stop t) ∨
      s.literal a ms c p = refuse s.input a (s.skip p) ("Expected " ++ String.ofList (Matcher.describe ms))
        (.failed .literal (s.skip p) []) := by
  have hq : s.input.isBoundary (s.skip p) = true := Input.skip_boundary s.options hp
  unfold literal
  by_cases hm : ms.isEmpty
  · rw [if_pos hm]
    exact .inl ⟨[], s.skip p, rfl, .of_boundary hq⟩
  · rw [if_neg hm]
    have hfind : ∀ t u, (ms.findSome? (·.leading? (c.getD s.options.caseSensitive) t)) = some u →
        ∃ rest, t = u ++ rest := by
      intro t u hu
      obtain ⟨m, _, hm⟩ := List.exists_of_findSome?_eq_some hu
      exact m.leading?_append hm
    rcases Cursor.accept?_cases (c := (Cursor.ofOffset s.input p).skip s.options) hq hfind with
      ⟨_, ha⟩ | ⟨t, stop, ha, ht⟩
    · rw [ha]; exact .inr rfl
    · rw [ha]; exact .inl ⟨t, stop.offset, rfl, ht⟩

theorem literal_ok {ms : List Matcher} {c : Option Bool} (h : s.literal a ms c p = .ok n) :
    (∃ t stop, n = .matched .literal t (s.skip p) stop [] ∧ s.input.Span (s.skip p) stop t) ∨
      n = .failed .literal (s.skip p) [] := by
  rcases s.literal_eq hp with ⟨t, stop, e, ht⟩ | e
  · rw [e] at h
    exact .inl ⟨t, stop, (Except.ok.inj h).symm, ht⟩
  · rw [e] at h
    exact .inr (refuse_eq_ok h)

theorem literal_error {ms : List Matcher} {c : Option Bool} (h : s.literal a ms c p = .error f) :
    ∃ message, f = .error (.parse ⟨s.skip p, message, s.input⟩) := by
  rcases s.literal_eq hp with ⟨t, stop, e, _⟩ | e
  · rw [e] at h
    cases h
  · rw [e] at h
    exact ⟨_, refuse_eq_error h⟩

theorem endOfLine_eq :
    (∃ t stop, s.endOfLine a p = .ok (.matched .endOfLine t p stop []) ∧ s.input.Span p stop t) ∨
      s.endOfLine a p = .ok (.matched .endOfLine [] p (s.skip p) []) ∨
      s.endOfLine a p = refuse s.input a p
        ("Expected end of line but encountered " ++ s.input.describeAt p) (.failed .endOfLine p []) := by
  have hmin : min p s.input.size = p := Nat.min_eq_left (Input.le_size_of_isBoundary hp)
  simp only [endOfLine]
  rcases Cursor.accept?_cases (c := Cursor.ofOffset s.input p) (by simpa [Cursor.ofOffset, hmin] using hp)
    leadingNewline?_append with ⟨_, ha⟩ | ⟨t, stop, ha, ht⟩
  · rw [ha]
    by_cases he : ((Cursor.ofOffset s.input p).skip s.options).atEnd = true
    · refine .inr (.inl ?_)
      show (if _ then _ else _) = _
      rw [if_pos he]
      rfl
    · refine .inr (.inr ?_)
      show (if _ then _ else _) = _
      rw [if_neg he]
  · rw [ha]
    refine .inl ⟨t, stop.offset, rfl, ?_⟩
    simpa [Cursor.ofOffset, hmin] using ht

theorem endOfLine_ok (h : s.endOfLine a p = .ok n) :
    (∃ t stop, n = .matched .endOfLine t p stop [] ∧ s.input.Span p stop t) ∨
      n = .matched .endOfLine [] p (s.skip p) [] ∨ n = .failed .endOfLine p [] := by
  rcases s.endOfLine_eq hp with ⟨t, stop, e, ht⟩ | e | e
  · rw [e] at h
    exact .inl ⟨t, stop, (Except.ok.inj h).symm, ht⟩
  · rw [e] at h
    exact .inr (.inl (Except.ok.inj h).symm)
  · rw [e] at h
    exact .inr (.inr (refuse_eq_ok h))

theorem endOfLine_error (h : s.endOfLine a p = .error f) :
    ∃ message, f = .error (.parse ⟨p, message, s.input⟩) := by
  rcases s.endOfLine_eq hp with ⟨t, stop, e, _⟩ | e | e
  · rw [e] at h
    cases h
  · rw [e] at h
    cases h
  · rw [e] at h
    exact ⟨_, refuse_eq_error h⟩

end

theorem endOfInput_ok (h : s.endOfInput a p = .ok n) :
    n = .matched .endOfInput [] p (s.skip p) [] ∨ n = .failed .endOfInput p [] := by
  simp only [endOfInput] at h
  split at h
  · exact .inl (Except.ok.inj h).symm
  · exact .inr (refuse_eq_ok h)

theorem endOfInput_error (h : s.endOfInput a p = .error f) :
    ∃ message, f = .error (.parse ⟨s.skip p, message, s.input⟩) := by
  simp only [endOfInput] at h
  split at h
  · cases h
  · exact ⟨_, refuse_eq_error h⟩

/-! ## Closings -/

theorem closeSequence_ok {items : List Expr} {run : Run} (h : s.closeSequence a items p run = .ok n) :
    (run.refused = none ∧
        n = .matched .sequence (joinText s.input p run.stop run.matched) p run.stop run.matched) ∨
      ∃ m, run.refused = some m ∧ n = .failed .sequence p (s.options.kept (run.matched ++ [m])) := by
  unfold closeSequence at h
  split at h
  · rename_i hr
    exact .inl ⟨hr, (Except.ok.inj h).symm⟩
  · rename_i m hr
    exact .inr ⟨m, hr, refuse_eq_ok h⟩

theorem closeSequence_error {items : List Expr} {run : Run} (h : s.closeSequence a items p run = .error f) :
    ∃ message, f = .error (.parse ⟨s.skip run.stop, message, s.input⟩) := by
  unfold closeSequence at h
  split at h
  · cases h
  · exact ⟨_, refuse_eq_error h⟩

theorem closeChoice_ok {q : Nat} {trial : Trial} (h : s.closeChoice a p q trial = .ok n) :
    (∃ m stop, trial.chosen = some m ∧ m.stop = some stop ∧
        n = .matched .choice m.text p stop (s.options.kept trial.failed ++ [m])) ∨
      n = .failed .choice p (s.options.kept trial.failed) := by
  unfold closeChoice at h
  split at h
  · rename_i m stop hc
    obtain ⟨m', hm, hs⟩ := Option.bind_eq_some_iff.1 hc
    obtain ⟨stop', hs, e⟩ := Option.map_eq_some_iff.1 hs
    cases e
    exact .inl ⟨m, stop, hm, hs, (Except.ok.inj h).symm⟩
  · exact .inr (refuse_eq_ok h)

theorem closeChoice_error {q : Nat} {trial : Trial} (h : s.closeChoice a p q trial = .error f) :
    ∃ message, f = .error (.parse ⟨q, message, s.input⟩) := by
  unfold closeChoice at h
  split at h
  · cases h
  · exact ⟨_, refuse_eq_error h⟩

/-- The nodes of a repetition: its matches, and the refused attempt if it is kept. -/
def attempts (s : Scope σ) (run : Run) : List Node := run.matched ++ s.options.kept run.refused.toList

theorem closeRepetition_ok {low : Nat} {high : Option Nat} {run : Run}
    (h : s.closeRepetition a low high p run = .ok n) :
    n = .matched .repetition (joinText s.input p run.stop run.matched) p run.stop (s.attempts run) ∨
      n = .failed .repetition p (s.options.kept (s.attempts run)) := by
  simp only [closeRepetition] at h
  split at h
  · exact .inr (refuse_eq_ok h)
  · split at h
    · exact .inr (refuse_eq_ok h)
    · exact .inl (Except.ok.inj h).symm

theorem closeRepetition_error {low : Nat} {high : Option Nat} {run : Run}
    (h : s.closeRepetition a low high p run = .error f) :
    ∃ message, f = .error (.parse ⟨run.stop, message, s.input⟩) := by
  simp only [closeRepetition] at h
  split at h
  · exact ⟨_, refuse_eq_error h⟩
  · split at h
    · exact ⟨_, refuse_eq_error h⟩
    · cases h

theorem closeOptional_eq (m : Node) :
    (∃ stop, m.stop = some stop ∧ s.closeOptional p m = .matched .optional m.text p stop [m]) ∨
      (m.stop = none ∧ s.closeOptional p m = .matched .optional [] p p (s.options.kept [m])) := by
  unfold closeOptional
  cases m.stop with
  | some stop => exact .inl ⟨stop, rfl, rfl⟩
  | none => exact .inr ⟨rfl, rfl⟩

end Scope

theorem closeRule_ok {i : Input} {o : Options} {a : Bool} {name : String} {p : Nat} {tree n : Node}
    (h : closeRule i o a name p tree = .ok n) :
    (∃ stop, tree.stop = some stop ∧ n = .matched (.rule name) tree.text p stop [tree]) ∨
      (tree.stop = none ∧ n = .failed (.rule name) p (o.kept [tree])) := by
  unfold closeRule at h
  split at h
  · rename_i stop hs
    exact .inl ⟨stop, hs, (Except.ok.inj h).symm⟩
  · rename_i hs
    exact .inr ⟨hs, refuse_eq_ok h⟩

theorem closeRule_error {i : Input} {o : Options} {a : Bool} {name : String} {p : Nat} {tree : Node} {f : Fault}
    (h : closeRule i o a name p tree = .error f) :
    ∃ message, f = .error (.parse ⟨p, message, i⟩) := by
  unfold closeRule at h
  split at h
  · cases h
  · exact ⟨_, refuse_eq_error h⟩

end PegTree
