import PegTree.Proofs.Caching
import PegTree.Proofs.Lockstep

/-!
# The limit on the nesting of rules

A limit on how deep rules may nest is looked at when a rule is entered and nowhere else. So a run that
does not come to its limit is the run under any higher limit, or under none, and as many rules as the
limit says are all that can be above one another in its tree.
-/

namespace PegTree

open Eval

variable {σ : Type} {g : Grammar} {i : Input} {o : Options} {k : Option Nat}

/-! ## Options but for their limit -/

def Options.limit (k : Option Nat) (o : Options) : Options := { o with maxDepth := k }

def Frame.limit (k : Option Nat) (f : Frame) : Frame := { f with options := f.options.limit k }

def Grammar.limited (g : Grammar) (k : Option Nat) : Grammar := g.configure (Options.limit k)

section
variable {refer : Bool → String → Nat → Eval σ Node}

theorem repeatRun_limit (item : Nat → Eval σ Node) (fuel place : Nat) (done : List Node) :
    Scope.repeatRun ⟨i, o.limit k, refer⟩ item fuel place done =
      Scope.repeatRun ⟨i, o, refer⟩ item fuel place done := by
  induction fuel generalizing place done with
  | zero => rfl
  | succ fuel ih =>
    unfold Scope.repeatRun
    apply bind_congr
    intro n
    cases n.stop with
    | none => rfl
    | some stop =>
      dsimp only
      rw [ih]
      rfl

mutual
theorem Expr.eval_limit (e : Expr) (p : Nat) : e.eval ⟨i, o.limit k, refer⟩ p = e.eval ⟨i, o, refer⟩ p := by
  cases e with
  | sequence a items =>
    unfold Expr.eval
    rw [Expr.evalRow_limit items]
    rfl
  | choice a items =>
    unfold Expr.eval
    rw [Expr.evalAny_limit items]
    rfl
  | repetition a low high item =>
    unfold Expr.eval
    rw [repeatRun_limit, funext (Expr.eval_limit item)]
    rfl
  | optional a item =>
    unfold Expr.eval
    rw [Expr.eval_limit item]
    rfl
  | _ =>
    unfold Expr.eval
    rfl
theorem Expr.evalRow_limit (es : List Expr) (p : Nat) :
    Expr.evalRow ⟨i, o.limit k, refer⟩ es p = Expr.evalRow ⟨i, o, refer⟩ es p := by
  cases es with
  | nil =>
    unfold Expr.evalRow
    rfl
  | cons e es =>
    unfold Expr.evalRow
    rw [Expr.eval_limit e, funext (Expr.evalRow_limit es)]
    rfl
theorem Expr.evalAny_limit (es : List Expr) (p : Nat) :
    Expr.evalAny ⟨i, o.limit k, refer⟩ es p = Expr.evalAny ⟨i, o, refer⟩ es p := by
  cases es with
  | nil =>
    unfold Expr.evalAny
    rfl
  | cons e es =>
    unfold Expr.evalAny
    rw [Expr.eval_limit e, Expr.evalAny_limit es]
end

end

theorem Host.eval_limit (h : Host σ) (fuel depth : Nat) (e : Expr) (p : Nat) :
    e.eval (h.scope i fuel (o.limit k) depth) p = e.eval ⟨i, o, callRule h i fuel (o.limit k) depth⟩ p :=
  e.eval_limit p

/-! ## Runs under two limits -/

theorem inProgress_limit (j k : Option Nat) (st : List Frame) (f : Frame) :
    inProgress (st.map (Frame.limit k)) (f.limit k) = inProgress (st.map (Frame.limit j)) (f.limit j) := by
  -- the limit `k` takes the place of `j`, and `j` can be put back
  have hmap : st.map (Frame.limit k) = (st.map (Frame.limit j)).map (Frame.limit k) := by
    rw [List.map_map]
    rfl
  rw [hmap]
  refine inProgress_map (φ := Frame.limit k) (f := f.limit j) (fun _ => Iff.rfl) fun f' hf' he => ?_
  obtain ⟨f₀, _, hf₀⟩ := List.mem_map.1 hf'
  have hback : (f'.limit k).limit j = ((f.limit j).limit k).limit j := congrArg (Frame.limit j) he
  rw [← hf₀] at hback ⊢
  exact hback

def LimitedBy (j k : Option Nat) (st st' : List Frame) : Prop :=
  ∃ fs : List Frame, st = fs.map (Frame.limit j) ∧ st' = fs.map (Frame.limit k)

section
variable {E : Fault → Prop} {j : Option Nat}

theorem Session.enter_limited (f : Frame) :
    Refines E (Session.Alongside g (LimitedBy j k)) (Session.enter (f.limit j)) (Session.enter (f.limit k))
      (Session.Alongside g (LimitedBy j k)) (Session.Alongside g (LimitedBy j k)) := by
  refine Session.enter_alongside rfl rfl ?_ ?_
  · intro st st' ⟨fs, hst, hst'⟩
    rw [hst, hst', inProgress_limit j]
  · intro st st' ⟨fs, hst, hst'⟩
    exact ⟨f :: fs, by rw [hst, List.map_cons], by rw [hst', List.map_cons]⟩

theorem Session.exit_limited : Refines E (Session.Alongside g (LimitedBy j k)) Session.exit Session.exit
    (Session.Alongside g (LimitedBy j k)) (Session.Alongside g (LimitedBy j k)) := by
  refine Session.exit_alongside ?_
  intro st st' ⟨fs, hst, hst'⟩
  exact ⟨fs.tail, by rw [hst, List.map_tail], by rw [hst', List.map_tail]⟩

/-- A higher limit makes no difference but where the lower one is reached, and that takes as much fuel. -/
theorem callRule_limited {m : Nat} (hk : ∀ n, k = some n → m ≤ n) : ∀ (fuel depth : Nat) (o : Options) (a : Bool)
    (name : String) (p : Nat), depth ≤ m → (m < depth + fuel → E (.error (.recursionLimit (m + 1)))) →
    Refines E (Session.Alongside g (LimitedBy (some m) k))
      (callRule (Session.host g) i fuel (o.limit (some m)) depth a name p)
      (callRule (Session.host g) i fuel (o.limit k) depth a name p) (Session.Alongside g (LimitedBy (some m) k))
      (Session.Alongside g (LimitedBy (some m) k))
  | 0, _, _, _, _, _, _, _ => .throw _ fun _ _ h => h
  | fuel + 1, depth, o, a, name, p, hdepth, hE => by
    rw [callRule_succ, callRule_succ]
    refine (Session.rule_alongside name).bind fun rule => ?_
    by_cases hm : depth < m
    · have hbelow : ∀ n, some m = some n → depth < n := by
        intro n hn
        cases hn
        exact hm
      rw [checkDepth_of_le hbelow, checkDepth_of_le fun n hn => Nat.le_trans hm (hk n hn), pure_bind, pure_bind]
      refine (Session.enter_limited ⟨rule.name, p, o⟩).bind fun _ => ?_
      have hbody : ∀ k : Option Nat, rule.body.eval
          ((Session.host g).scope i fuel (rule.overrides.apply (o.limit k)) (depth + 1)) p =
          rule.body.eval ⟨i, rule.overrides.apply o,
            callRule (Session.host g) i fuel ((rule.overrides.apply o).limit k) (depth + 1)⟩ p :=
        fun k => (Session.host g).eval_limit (o := rule.overrides.apply o) fuel (depth + 1) rule.body p
      rw [hbody, hbody]
      refine Refines.bind (R := Session.Alongside g (LimitedBy (some m) k)) ?_ fun tree => ?_
      · refine Refines.ensuring (eval_refines (fun a name q => ?_) rule.body p) (fun _ => rfl)
          Session.exit_limited Session.exit_limited
        refine callRule_limited hk fuel (depth + 1) _ a name q hm fun hlt => hE ?_
        omega
      · show Refines E _ (.ofExcept (closeRule i o a rule.name p tree))
            (.ofExcept (closeRule i o a rule.name p tree)) _ _
        exact .ofExcept _ (fun _ _ h => h) fun _ _ h => h
    · obtain rfl : depth = m := by omega
      rw [checkDepth_of_lt (rfl : (o.limit (some depth)).maxDepth = some depth) (Nat.lt_succ_self depth)]
      exact .excused (fun _ => rfl) (hE (by omega))

end

/-! ## Rules above one another -/

/-- The nodes `ns` lie below `n`, each of them a child of the one before. -/
def Node.Path (n : Node) (ns : List Node) : Prop := (n :: ns).IsChain fun parent child => child ∈ parent.children

/-- There are at most `m` nodes of rules on any path from `n` downwards. -/
def Node.Nests (m : Nat) (n : Node) : Prop := ∀ ns, n.Path ns → (n :: ns).countP (·.name?.isSome) ≤ m

section
variable {m : Nat} {n : Node}

theorem Node.Nests.rule (h : ∀ c ∈ n.children, c.Nests m) : n.Nests (m + 1) := by
  intro ns hpath
  have htail : ns.countP (·.name?.isSome) ≤ m := by
    cases ns with
    | nil => exact Nat.zero_le m
    | cons c ns =>
      obtain ⟨hc, hrest⟩ := List.isChain_cons_cons.1 hpath
      exact h c hc ns hrest
  rw [List.countP_cons]
  split <;> omega

theorem Node.Nests.plain (hn : n.name? = none) (h : ∀ c ∈ n.children, c.Nests m) : n.Nests m := by
  intro ns hpath
  rw [List.countP_cons_of_neg (by simp [hn])]
  cases ns with
  | nil => exact Nat.zero_le m
  | cons c ns =>
    obtain ⟨hc, hrest⟩ := List.isChain_cons_cons.1 hpath
    exact h c hc ns hrest

theorem Node.Nests.leaf (hn : n.name? = none) (h : n.children = []) : n.Nests m := by
  refine .plain hn ?_
  rw [h]
  exact List.forall_mem_nil _

structure Run.Nests (m : Nat) (r : Run) : Prop where
  matched : ∀ n ∈ r.matched, n.Nests m
  refused : ∀ n ∈ r.refused.toList, n.Nests m

structure Trial.Nests (m : Nat) (t : Trial) : Prop where
  failed : ∀ n ∈ t.failed, n.Nests m
  chosen : ∀ n ∈ t.chosen.toList, n.Nests m

theorem Options.kept_nests {ns : List Node} (h : ∀ n ∈ ns, n.Nests m) : ∀ n ∈ o.kept ns, n.Nests m :=
  fun n hn => h n (Options.mem_of_mem_kept hn)

def Eval.Nesting (m : Nat) (x : Eval σ Node) : Prop :=
  Triple (fun _ => True) x (fun n _ => n.Nests m) (fun _ _ => True)

theorem Eval.Nesting.ofExcept {r : Except Fault Node} (h : ∀ n, r = .ok n → n.Nests m) :
    (Eval.ofExcept r : Eval σ Node).Nesting m :=
  Triple.ofExcept (fun n hn _ _ => h n hn) fun _ _ _ _ => trivial

end

/-! ## Leaves -/

namespace Scope

variable {s : Scope σ} {a : Bool} {p : Nat} {n : Node}

theorem literal_leaf {ms : List Matcher} {c : Option Bool} (h : s.literal a ms c p = .ok n) :
    n.name? = none ∧ n.children = [] := by
  unfold literal at h
  by_cases hm : ms.isEmpty = true
  · rw [if_pos hm] at h
    cases h
    exact ⟨rfl, rfl⟩
  · rw [if_neg hm] at h
    cases ha : ((Cursor.ofOffset s.input p).skip s.options).accept?
      fun t => ms.findSome? (·.leading? (c.getD s.options.caseSensitive) t) with
    | error f =>
      rw [ha] at h
      cases h
    | ok r =>
      rw [ha] at h
      cases r with
      | some r =>
        cases h
        exact ⟨rfl, rfl⟩
      | none =>
        rw [refuse_eq_ok h]
        exact ⟨rfl, rfl⟩

theorem endOfLine_leaf (h : s.endOfLine a p = .ok n) : n.name? = none ∧ n.children = [] := by
  simp only [endOfLine] at h
  cases ha : (Cursor.ofOffset s.input p).accept? leadingNewline? with
  | error f =>
    rw [ha] at h
    cases h
  | ok r =>
    rw [ha] at h
    cases r with
    | some r =>
      cases h
      exact ⟨rfl, rfl⟩
    | none =>
      change (if _ then _ else _) = _ at h
      split at h
      · cases h
        exact ⟨rfl, rfl⟩
      · rw [refuse_eq_ok h]
        exact ⟨rfl, rfl⟩

theorem endOfInput_leaf (h : s.endOfInput a p = .ok n) : n.name? = none ∧ n.children = [] := by
  rcases endOfInput_ok h with h | h
  · rw [h]
    exact ⟨rfl, rfl⟩
  · rw [h]
    exact ⟨rfl, rfl⟩

/-! ## Closings -/

variable {m : Nat}

theorem closeSequence_nests {items : List Expr} {r : Run} (hr : r.Nests m)
    (h : s.closeSequence a items p r = .ok n) :
    n.Nests m := by
  rcases closeSequence_ok h with ⟨_, rfl⟩ | ⟨c, hc, rfl⟩
  · exact .plain rfl hr.matched
  · refine .plain rfl (Options.kept_nests (List.forall_mem_append.2 ⟨hr.matched, ?_⟩))
    simpa [hc] using hr.refused

theorem closeChoice_nests {q : Nat} {t : Trial} (ht : t.Nests m)
    (h : s.closeChoice a p q t = .ok n) : n.Nests m := by
  have hfailed := Options.kept_nests (o := s.options) ht.failed
  rcases closeChoice_ok h with ⟨c, _, hc, _, rfl⟩ | rfl
  · refine .plain rfl (List.forall_mem_append.2 ⟨hfailed, ?_⟩)
    simpa [hc] using ht.chosen
  · exact .plain rfl hfailed

theorem closeRepetition_nests {low : Nat} {high : Option Nat} {r : Run} (hr : r.Nests m)
    (h : s.closeRepetition a low high p r = .ok n) : n.Nests m := by
  have hall : ∀ c ∈ s.attempts r, c.Nests m := List.forall_mem_append.2 ⟨hr.matched, Options.kept_nests hr.refused⟩
  rcases closeRepetition_ok h with rfl | rfl
  · exact .plain rfl hall
  · exact .plain rfl (Options.kept_nests hall)

theorem closeOptional_nests (hn : n.Nests m) : (s.closeOptional p n).Nests m := by
  have hsole : ∀ c ∈ [n], c.Nests m := List.forall_mem_singleton.2 hn
  rcases s.closeOptional_eq (p := p) n with ⟨_, _, h⟩ | ⟨_, h⟩
  · rw [h]
    exact .plain rfl hsole
  · rw [h]
    exact .plain rfl (Options.kept_nests hsole)

end Scope

theorem closeRule_nests {m : Nat} {a : Bool} {name : String} {p : Nat} {tree n : Node} (ht : tree.Nests m)
    (h : closeRule i o a name p tree = .ok n) : n.Nests (m + 1) := by
  have hsole : ∀ c ∈ [tree], c.Nests m := List.forall_mem_singleton.2 ht
  rcases closeRule_ok h with ⟨_, _, rfl⟩ | ⟨_, rfl⟩
  · exact .rule hsole
  · exact .rule (Options.kept_nests hsole)

/-! ## Trees -/

section
variable {s : Scope σ} {m : Nat}

theorem repeatRun_nests {item : Nat → Eval σ Node} (hi : ∀ q, (item q).Nesting m) :
    ∀ (fuel place : Nat) (done : List Node),
    (∀ n ∈ done, n.Nests m) →
    Triple (fun _ => True) (s.repeatRun item fuel place done) (fun r _ => r.Nests m) (fun _ _ => True)
  | 0, _, _, _ => .throw fun _ _ => trivial
  | fuel + 1, place, done, hdone => by
    have hrev : ∀ ns : List Node, (∀ n ∈ ns, n.Nests m) → ∀ n ∈ ns.reverse, n.Nests m :=
      fun ns h n hn => h n (List.mem_reverse.1 hn)
    unfold Scope.repeatRun
    refine (hi _).bind fun n => ?_
    cases n.stop with
    | none => exact .pure fun _ hn => ⟨hrev done hdone, by simpa using hn⟩
    | some stop =>
      intro t hn
      have hmore : ∀ c ∈ n :: done, c.Nests m := List.forall_mem_cons.2 ⟨hn, hdone⟩
      by_cases he : stop = s.skip place
      · simp only [if_pos he]
        exact ⟨hrev _ hmore, by simp⟩
      · simp only [if_neg he]
        exact repeatRun_nests hi fuel stop (n :: done) hmore t trivial

mutual
theorem eval_nests (hr : ∀ a name p, (s.refer a name p).Nesting m) (e : Expr) (p : Nat) :
    (e.eval s p).Nesting m := by
  cases e with
  | literal a ms c =>
    unfold Expr.eval
    exact .ofExcept fun n hn => .leaf (Scope.literal_leaf hn).1 (Scope.literal_leaf hn).2
  | sequence a items =>
    unfold Expr.eval
    refine (evalRow_nests hr items p).bind fun r => ?_
    exact .ofExcept (fun n hn _ h => Scope.closeSequence_nests h hn) fun _ _ _ _ => trivial
  | choice a items =>
    unfold Expr.eval
    refine (evalAny_nests hr items _).bind fun t => ?_
    exact .ofExcept (fun n hn _ h => Scope.closeChoice_nests h hn) fun _ _ _ _ => trivial
  | repetition a low high item =>
    unfold Expr.eval
    refine (repeatRun_nests (fun q => eval_nests hr item q) _ _ [] (List.forall_mem_nil _)).bind fun r => ?_
    exact .ofExcept (fun n hn _ h => Scope.closeRepetition_nests h hn) fun _ _ _ _ => trivial
  | optional a item =>
    unfold Expr.eval
    exact Triple.bind (eval_nests hr item p) fun n => .pure fun _ h => Scope.closeOptional_nests h
  | endOfLine a =>
    unfold Expr.eval
    exact .ofExcept fun n hn => .leaf (Scope.endOfLine_leaf hn).1 (Scope.endOfLine_leaf hn).2
  | endOfInput a =>
    unfold Expr.eval
    exact .ofExcept fun n hn => .leaf (Scope.endOfInput_leaf hn).1 (Scope.endOfInput_leaf hn).2
  | rule a name =>
    unfold Expr.eval
    exact hr a name p
  | placeholder a name =>
    unfold Expr.eval
    exact Triple.throw fun _ _ => trivial
theorem evalRow_nests (hr : ∀ a name p, (s.refer a name p).Nesting m) (es : List Expr) (p : Nat) :
    Triple (fun _ => True) (Expr.evalRow s es p) (fun r _ => r.Nests m) (fun _ _ => True) := by
  cases es with
  | nil =>
    unfold Expr.evalRow
    exact .pure fun _ _ => ⟨by simp, by simp⟩
  | cons e es =>
    unfold Expr.evalRow
    refine Triple.bind (eval_nests hr e _) fun n => ?_
    cases n.stop with
    | none => exact .pure fun _ hn => ⟨by simp, by simpa using hn⟩
    | some stop =>
      intro t hn
      refine ((evalRow_nests hr es stop).bind fun r => ?_) t trivial
      exact .pure fun _ h => ⟨List.forall_mem_cons.2 ⟨hn, h.matched⟩, h.refused⟩
theorem evalAny_nests (hr : ∀ a name p, (s.refer a name p).Nesting m) (es : List Expr) (p : Nat) :
    Triple (fun _ => True) (Expr.evalAny s es p) (fun t _ => t.Nests m) (fun _ _ => True) := by
  cases es with
  | nil =>
    unfold Expr.evalAny
    exact .pure fun _ _ => ⟨by simp, by simp⟩
  | cons e es =>
    unfold Expr.evalAny
    refine Triple.bind (eval_nests hr e _) fun n => ?_
    intro t hn
    cases n.isFailed with
    | true =>
      refine ((evalAny_nests hr es p).bind fun r => ?_) t trivial
      exact .pure fun _ h => ⟨List.forall_mem_cons.2 ⟨hn, h.failed⟩, h.chosen⟩
    | false => exact ⟨by simp, by simpa using hn⟩
end

end

/-- What a reference below `depth` rules gives nests as many rules as the limit leaves. -/
theorem callRule_nests (h : Host σ) {m : Nat} :
    ∀ (fuel : Nat) (o : Options) (depth : Nat) (a : Bool) (name : String) (p : Nat),
      o.maxDepth = some m → (callRule h i fuel o depth a name p).Nesting (m - depth)
  | 0, _, _, _, _, _, _ => Triple.throw fun _ _ => trivial
  | fuel + 1, o, depth, a, name, p, ho => by
    rw [callRule_succ]
    refine Triple.bind (Triple.any _) fun rule => ?_
    by_cases hm : depth < m
    · obtain ⟨l, hl⟩ : ∃ l, m - depth = l + 1 := ⟨m - (depth + 1), by omega⟩
      have hinner : m - (depth + 1) = l := by omega
      rw [checkDepth_of_le fun n hn => by rw [ho] at hn; cases hn; exact hm, pure_bind, hl]
      refine Triple.bind (Triple.any _) fun _ => ?_
      have hbody := eval_nests (s := h.scope i fuel (rule.overrides.apply o) (depth + 1)) (m := l)
        (fun a name q => hinner ▸ callRule_nests h fuel _ (depth + 1) a name q ho) rule.body p
      refine Triple.bind (R := fun n _ => n.Nests l) (Triple.ensuring hbody ?_ ?_) fun tree => ?_
      · intro n t hn
        exact (Triple.any h.exit).conseq (fun _ h => h) (fun _ _ _ => hn) (fun _ _ h => h) t trivial
      · exact fun f => Triple.any _
      · exact .ofExcept (fun n hn _ ht => closeRule_nests ht hn) fun _ _ _ _ => trivial
    · -- at the limit the rule is not even entered
      rw [checkDepth_of_lt ho (by omega)]
      exact Triple.throw fun _ _ => trivial

/-! ## Evaluation -/

section
variable (g : Grammar) (calls : Option Nat → List Call) (name : String) (t : Text)

def Grammar.evaluateLimited (k : Option Nat) : Except Fault Node :=
  ((g.limited k).evaluate name t ((g.limited k).after (calls k))).1

variable {g calls name t} {E : Fault → Prop} {m : Nat}

theorem Grammar.evaluateLimited_eq (hk : ∀ n, k = some n → m ≤ n)
    (hE : m < g.nestingBound (.ofText t) + 1 → E (.error (.recursionLimit (m + 1))))
    (hfault : ∀ f, g.evaluateLimited calls name t (some m) = .error f → ¬ E f) :
    g.evaluateLimited calls name t k = g.evaluateLimited calls name t (some m) := by
  have hstart : ∀ k, ((g.limited k).after (calls k)).Sound g [] := by
    intro k
    have h := (g.limited k).after_sound (calls k)
    exact ⟨h.active, h.cache⟩
  have hside : Session.Alongside g (LimitedBy (some m) k) ((g.limited (some m)).after (calls (some m)))
      ((g.limited k).after (calls k)) :=
    ⟨⟨rfl, (hstart _).cache⟩, ⟨rfl, (hstart _).cache⟩, [], (hstart _).active, (hstart _).active⟩
  have hrun := callRule_limited (E := E) (g := g) (i := .ofText t) hk (g.nestingBound (.ofText t) + 1) 0 g.options
    false name 0 (Nat.zero_le m) (by rwa [Nat.zero_add])
  exact (hrun.same hside hfault).1

/-- A limit on the nesting of rules does nothing but cut runs off. The bodies of the rules are the same under
all limits: they do not see the options. -/
theorem limit_only_cuts (g : Grammar) (calls : Option Nat → List Call) (name : String) (t : Text) :
    (∀ m, g.evaluateLimited calls name t (some m) = .error (.error (.recursionLimit (m + 1))) ∨
      g.evaluateLimited calls name t (some m) = g.evaluateLimited calls name t none) ∧
    (∀ m, (∀ depth, g.evaluateLimited calls name t (some m) ≠ .error (.error (.recursionLimit depth))) →
      ∀ m', m ≤ m' → g.evaluateLimited calls name t (some m') = g.evaluateLimited calls name t (some m)) ∧
    (∀ m tree, g.evaluateLimited calls name t (some m) = .ok tree →
      ∀ ns, tree.Path ns → (tree :: ns).countP (·.name?.isSome) ≤ m) ∧
    ∃ m, g.evaluateLimited calls name t (some m) = g.evaluateLimited calls name t none := by
  refine ⟨fun m => ?_, fun m hne m' hle => ?_, fun m tree htree => ?_, ?_⟩
  · by_cases hcut : g.evaluateLimited calls name t (some m) = .error (.error (.recursionLimit (m + 1)))
    · exact .inl hcut
    · refine .inr
        (Grammar.evaluateLimited_eq (E := (· = .error (.recursionLimit (m + 1)))) ?_ (fun _ => rfl) ?_).symm
      · exact fun n hn => by cases hn
      · intro f hf he
        rw [he] at hf
        exact hcut hf
  · refine Grammar.evaluateLimited_eq (E := (· = .error (.recursionLimit (m + 1)))) ?_ (fun _ => rfl) ?_
    · intro n hn
      cases hn
      exact hle
    · intro f hf he
      rw [he] at hf
      exact hne (m + 1) hf
  · have hnests := callRule_nests (Session.host g) (m := m) (i := .ofText t) (g.nestingBound (.ofText t) + 1)
      (g.options.limit (some m)) 0 false name 0 rfl
    exact hnests.ok trivial htree
  · refine ⟨g.nestingBound (.ofText t) + 1, (Grammar.evaluateLimited_eq (E := fun _ => False) ?_ ?_ ?_).symm⟩
    · exact fun n hn => by cases hn
    · exact fun hlt => absurd hlt (Nat.lt_irrefl _)
    · exact fun _ _ h => h

end

def bracketed : Grammar where
  rules := [⟨"item", {}, fun _ => .ok (.choice false
    [.sequence false [.text ['('], .ref "item", .text [')']], .text ['x']])⟩]

theorem limit_only_cuts_bracketed :
    bracketed.evaluateLimited (fun _ => []) "item" ['(', 'x', ')'] (some 1) = .error (.error (.recursionLimit 2)) ∧
    ∃ tree, bracketed.evaluateLimited (fun _ => []) "item" ['(', 'x', ')'] (some 2) = .ok tree ∧
      (∀ m, 2 ≤ m → bracketed.evaluateLimited (fun _ => []) "item" ['(', 'x', ')'] (some m) = .ok tree) ∧
      ∀ ns, tree.Path ns → (tree :: ns).countP (·.name?.isSome) ≤ 2 := by
  have hcut : bracketed.evaluateLimited (fun _ => []) "item" ['(', 'x', ')'] (some 1) =
      .error (.error (.recursionLimit 2)) := by rfl
  have hrun : (bracketed.evaluateLimited (fun _ => []) "item" ['(', 'x', ')'] (some 2)).toOption.map
      (fun _ => ()) = some () := by decide +kernel
  obtain ⟨tree, htree, _⟩ := exists_ok_of_toOption hrun
  have h := limit_only_cuts bracketed (fun _ => []) "item" ['(', 'x', ')']
  refine ⟨hcut, tree, htree, fun m hm => ?_, h.2.2.1 2 tree htree⟩
  have hsame := h.2.1 2 (fun depth => by rw [htree]; exact fun he => by cases he) m hm
  exact hsame.trans htree

end PegTree
