import PegTree.Proofs.Termination

/-!
# The rules that a session keeps

A session keeps each rule that it has built, and it builds a rule when it is asked for one that it does
not keep. None of this shows in what calls come to. A record of the rules asked for tells what is kept
and how often each body was built, at the end of a row of calls and at any time within them.
-/

namespace PegTree

open Eval

variable {σ τ α : Type} {g : Grammar} {i : Input} {s t : Session} {name : String}

/-! ## Sessions side by side -/

/-- Two sessions over a grammar with `ρ` between their rules in progress. -/
structure Session.Alongside (g : Grammar) (ρ : List Frame → List Frame → Prop) (s t : Session) : Prop where
  left : s.Sound g s.active
  right : t.Sound g t.active
  active : ρ s.active t.active

section
variable {E : Fault → Prop} {ρ : List Frame → List Frame → Prop}

theorem Session.rule_alongside (name : String) : Refines E (Session.Alongside g ρ) (Session.rule g name)
    (Session.rule g name) (Session.Alongside g ρ) (Session.Alongside g ρ) := by
  intro s t hst
  obtain ⟨s', hs, hsound⟩ := hst.left.rule_apply name
  obtain ⟨t', ht, htsound⟩ := hst.right.rule_apply name
  have hst' : Session.Alongside g ρ s' t' := by
    refine ⟨⟨rfl, hsound.cache⟩, ⟨rfl, htsound.cache⟩, ?_⟩
    rw [hsound.active, htsound.active]
    exact hst.active
  rw [hs, ht]
  cases g.find name with
  | ok rule => exact .ok hst'
  | error f => exact .error hst'

theorem Session.enter_alongside {f f' : Frame} (hrule : f'.rule = f.rule) (hplace : f'.offset = f.offset)
    (hin : ∀ st st', ρ st st' → inProgress st' f' = inProgress st f)
    (hpush : ∀ st st', ρ st st' → ρ (f :: st) (f' :: st')) :
    Refines E (Session.Alongside g ρ) (Session.enter f) (Session.enter f') (Session.Alongside g ρ)
      (Session.Alongside g ρ) := by
  intro s t hst
  rw [Session.enter_apply, Session.enter_apply, hin _ _ hst.active, hrule, hplace]
  cases inProgress s.active f with
  | true => exact .error hst
  | false => exact .ok ⟨⟨rfl, hst.left.cache⟩, ⟨rfl, hst.right.cache⟩, hpush _ _ hst.active⟩

theorem Session.exit_alongside (hpop : ∀ st st', ρ st st' → ρ st.tail st'.tail) :
    Refines E (Session.Alongside g ρ) Session.exit Session.exit (Session.Alongside g ρ) (Session.Alongside g ρ) :=
  fun _ _ hst => .ok ⟨⟨rfl, hst.left.cache⟩, ⟨rfl, hst.right.cache⟩, hpop _ _ hst.active⟩

theorem Session.host_alongside (g : Grammar) :
    Host.Refines E (Session.Alongside g Eq) (Session.host g) (Session.host g) where
  rule := Session.rule_alongside
  enter f := Session.enter_alongside rfl rfl (fun _ _ h => by rw [h]) fun _ _ h => by rw [h]
  exit_ok _ := rfl
  exit := Session.exit_alongside fun _ _ h => by rw [h]

end

/-! ## Replies -/

inductive Reply where
  | rule (r : Except Fault Rule)
  | tree (r : Except Fault Node)

namespace Grammar

def reply (g : Grammar) (s : Session) : Call → Reply
  | .rule name => .rule (Session.rule g name s).1
  | .evaluate name t => .tree (g.evaluate name t s).1
  | .parseRule name t => .tree (g.parseRule name t s).1
  | .parse t => .tree (g.parse t s).1
  | .apply e t o depth p => .tree (e.eval (g.scope (.ofText t) o depth) p s).1

section
variable (h : Session.Alongside g Eq s t)
include h

theorem eval_alongside (e : Expr) (i : Input) (o : Options) (depth p : Nat) :
    (e.eval (g.scope i o depth) p s).1 = (e.eval (g.scope i o depth) p t).1 := by
  have hrun :=
    (Session.host_alongside (E := fun _ => False) g).eval (.inl (rfl : g.nestingBound i + 1 = _)) e i o depth p
  exact (hrun.same h fun _ _ h => h).1.symm

theorem parseRule_alongside (name : String) (x : Text) : (g.parseRule name x s).1 = (g.parseRule name x t).1 := by
  have hrun : (g.evaluate name x s).1 = (g.evaluate name x t).1 := eval_alongside h _ _ _ _ _
  rw [parseRule_fst, parseRule_fst, hrun]

theorem reply_alongside (call : Call) : g.reply s call = g.reply t call := by
  cases call with
  | rule name =>
    have hrun := (Session.rule_alongside (E := fun _ => False) name).same h fun _ _ h => h
    exact congrArg Reply.rule hrun.1.symm
  | evaluate name x => exact congrArg Reply.tree (eval_alongside h _ _ _ _ _)
  | parseRule name x => exact congrArg Reply.tree (parseRule_alongside h name x)
  | parse x =>
    unfold reply parse
    cases g.start with
    | none => rfl
    | some name => exact congrArg Reply.tree (parseRule_alongside h name x)
  | apply e x o depth p => exact congrArg Reply.tree (eval_alongside h _ _ _ _ _)

end

end Grammar

/-! ## What is kept and built -/

/-- What a session keeps and has built once it was asked for these rules, in whatever order. -/
structure Session.Accounted (g : Grammar) (asked : List String) (s : Session) : Prop where
  entry : ∀ name rule, (name, rule) ∈ s.cache → ∃ decl, g.rule? name = some decl ∧ rule.name = name ∧
    rule.overrides = decl.overrides ∧ decl.body g.token? = .ok rule.body
  nodup : (s.cache.map (·.1)).Nodup
  kept : ∀ name, name ∈ s.cache.map (·.1) ↔ name ∈ asked ∧ ∃ rule, g.find name = .ok rule
  unknown : ∀ name, g.rule? name = none → s.built.count name = 0
  once : ∀ name decl body, g.rule? name = some decl → decl.body g.token? = .ok body →
    s.built.count name = min (asked.count name) 1
  again : ∀ name decl e, g.rule? name = some decl → decl.body g.token? = .error e →
    s.built.count name = asked.count name

theorem Session.cache_suffix (g : Grammar) (name : String) (s : Session) :
    s.cache <:+ (Session.rule g name s).2.cache := by
  rcases Session.rule_cases g name s with ⟨_, _, h⟩ | ⟨_, ⟨_, h⟩ | ⟨_, _, ⟨_, _, h⟩ | ⟨_, _, h⟩⟩⟩
  · rw [h]
  · rw [h]
  · rw [h]
  · rw [h]
    exact List.suffix_cons _ _

theorem Grammar.find_of_body {decl : RuleDecl} {r : Except Error Expr} (hr : g.rule? name = some decl)
    (hb : decl.body g.token? = r) :
    g.find name = (r.map fun body => (⟨decl.name, decl.overrides, body⟩ : Rule)).mapError .error := by
  unfold Grammar.find
  rw [hr]
  show (g.build decl).mapError Fault.error = _
  unfold Grammar.build
  rw [hb]

namespace Session.Accounted

variable {asked : List String}

theorem start (g : Grammar) : Session.Accounted g [] {} where
  entry _ _ h := by cases h
  nodup := List.nodup_nil
  kept name := by simp
  unknown _ _ := rfl
  once _ _ _ _ _ := rfl
  again _ _ _ _ _ := rfl

theorem active (h : s.Accounted g asked) (st : List Frame) : { s with active := st }.Accounted g asked :=
  ⟨h.entry, h.nodup, h.kept, h.unknown, h.once, h.again⟩

section
variable (h : s.Accounted g asked)
include h

theorem ask_kept (hk : name ∈ s.cache.map (·.1)) : s.Accounted g (name :: asked) := by
  obtain ⟨hasked, rule, hfind⟩ := (h.kept name).1 hk
  refine ⟨h.entry, h.nodup, fun m => ?_, h.unknown, fun m decl body hr hb => ?_, fun m decl e hr hb => ?_⟩
  · rw [h.kept, List.mem_cons]
    by_cases hm : m = name
    · simp [hm, hasked]
    · simp [hm]
  · rw [h.once m decl body hr hb, List.count_cons]
    by_cases hm : name = m
    · have hpos : 0 < asked.count m := List.count_pos_iff.2 (hm ▸ hasked)
      simp only [hm, beq_self_eq_true, if_true]
      omega
    · simp [hm]
  · by_cases hm : m = name
    · rw [hm] at hr
      rw [g.find_of_body hr hb] at hfind
      cases hfind
    · rw [h.again m decl e hr hb, List.count_cons_of_ne (Ne.symm hm)]

theorem ask_unknown (hr : g.rule? name = none) : s.Accounted g (name :: asked) := by
  have hne : ∀ {m decl}, g.rule? m = some decl → name ≠ m := by
    intro m decl hm he
    rw [← he, hr] at hm
    cases hm
  refine ⟨h.entry, h.nodup, fun m => ?_, h.unknown, fun m decl body hm hb => ?_, fun m decl e hm hb => ?_⟩
  · rw [h.kept, List.mem_cons]
    by_cases hm : m = name
    · have hfind : ∀ rule, g.find m ≠ .ok rule := by
        intro rule
        unfold Grammar.find
        rw [hm, hr]
        exact fun h => by cases h
      simp [hfind]
    · simp [hm]
  · rw [h.once m decl body hm hb, List.count_cons_of_ne (hne hm)]
  · rw [h.again m decl e hm hb, List.count_cons_of_ne (hne hm)]

theorem ask_failing {decl : RuleDecl} {e : Error} (hr : g.rule? name = some decl)
    (hb : decl.body g.token? = .error e) :
    { s with built := name :: s.built }.Accounted g (name :: asked) := by
  refine ⟨h.entry, h.nodup, fun m => ?_, fun m hm => ?_, fun m decl' body hm hb' => ?_,
    fun m decl' e' hm hb' => ?_⟩
  · rw [List.mem_cons]
    by_cases hm : m = name
    · have hfind : ∀ rule, g.find m ≠ .ok rule := by
        intro rule
        rw [hm, g.find_of_body hr hb]
        exact fun h => by cases h
      have hkept := h.kept m
      simp only [hfind, exists_false, and_false] at hkept ⊢
      exact hkept
    · have hkept := h.kept m
      simp only [hm, false_or]
      exact hkept
  · by_cases hne : name = m
    · rw [← hne, hr] at hm
      cases hm
    · rw [List.count_cons_of_ne hne]
      exact h.unknown m hm
  · by_cases hne : name = m
    · rw [← hne, hr] at hm
      cases hm
      rw [hb] at hb'
      cases hb'
    · rw [List.count_cons_of_ne hne, List.count_cons_of_ne hne]
      exact h.once m decl' body hm hb'
  · rw [List.count_cons, List.count_cons, h.again m decl' e' hm hb']

theorem ask_new {decl : RuleDecl} {body : Expr} (hk : name ∉ s.cache.map (·.1)) (hr : g.rule? name = some decl)
    (hb : decl.body g.token? = .ok body) :
    { s with cache := (name, ⟨decl.name, decl.overrides, body⟩) :: s.cache, built := name :: s.built }.Accounted g
      (name :: asked) := by
  have hfind : g.find name = .ok ⟨decl.name, decl.overrides, body⟩ := g.find_of_body hr hb
  -- a rule with a body is kept once it was asked for, so this is the first time
  have hfresh : name ∉ asked := fun ha => hk ((h.kept name).2 ⟨ha, _, hfind⟩)
  refine ⟨fun m rule hm => ?_, List.nodup_cons.2 ⟨hk, h.nodup⟩, fun m => ?_, fun m hm => ?_,
    fun m decl' body' hm hb' => ?_, fun m decl' e hm hb' => ?_⟩
  · rcases List.mem_cons.1 hm with hm | hm
    · obtain ⟨rfl, rfl⟩ := Prod.mk.inj hm
      have hname : (decl.name == m) = true := List.find?_some (p := fun d : RuleDecl => d.name == m) hr
      exact ⟨decl, hr, eq_of_beq hname, rfl, hb⟩
    · exact h.entry m rule hm
  · rw [List.map_cons, List.mem_cons, List.mem_cons]
    by_cases hm : m = name
    · simp [hm, hfind]
    · have hkept := h.kept m
      simp only [hm, false_or]
      exact hkept
  · by_cases hne : name = m
    · rw [← hne, hr] at hm
      cases hm
    · rw [List.count_cons_of_ne hne]
      exact h.unknown m hm
  · rw [List.count_cons, List.count_cons, h.once m decl' body' hm hb']
    by_cases hne : name = m
    · have hzero : asked.count m = 0 := List.count_eq_zero.2 (hne ▸ hfresh)
      simp [hne, hzero]
    · simp [hne]
  · by_cases hne : name = m
    · rw [← hne, hr] at hm
      cases hm
      rw [hb] at hb'
      cases hb'
    · rw [List.count_cons_of_ne hne, List.count_cons_of_ne hne]
      exact h.again m decl' e hm hb'

theorem ask (name : String) : (Session.rule g name s).2.Accounted g (name :: asked) := by
  rcases Session.rule_cases g name s with ⟨r, hc, hs⟩ | ⟨hc, ⟨hr, hs⟩ | ⟨decl, hr, ⟨e, hb, hs⟩ | ⟨r, hb, hs⟩⟩⟩
  · have hk : name ∈ s.cache.map (·.1) := by rw [mem_names_iff, hc, Option.isSome_some]
    rw [hs]
    exact h.ask_kept hk
  · rw [hs]
    exact h.ask_unknown hr
  · rw [hs]
    exact h.ask_failing hr (Grammar.build_eq_error.1 hb)
  · have hk : name ∉ s.cache.map (·.1) := by simp [mem_names_iff, hc]
    obtain ⟨body, hbody, rfl⟩ := Grammar.build_eq_ok.1 hb
    rw [hs]
    exact h.ask_new hk hr hbody

end

end Session.Accounted

/-! ## Records -/

structure Access where
  name : String
  session : Session

def Eval.beside (x : Eval σ α) : Eval (σ × τ) α := fun t => ((x t.1).1, (x t.1).2, t.2)

/-- A session that records which rules it is asked for, the latest first. -/
def Session.recording (g : Grammar) : Host (Session × List Access) where
  rule name := fun t =>
    ((Session.rule g name t.1).1, (Session.rule g name t.1).2, ⟨name, (Session.rule g name t.1).2⟩ :: t.2)
  enter f := (Session.enter f).beside
  exit := Session.exit.beside

namespace Grammar

def record (g : Grammar) (t : Session × List Access) : Call → Session × List Access
  | .rule name => ((Session.recording g).rule name t).2
  | .evaluate name x | .parseRule name x =>
    (g.evaluateWith (Session.recording g) (g.nestingBound (.ofText x) + 1) name x t).2
  | .parse x =>
    match g.start with
    | some name => (g.evaluateWith (Session.recording g) (g.nestingBound (.ofText x) + 1) name x t).2
    | none => t
  | .apply e x o depth p =>
    if (Input.ofText x).isBoundary p then
      (e.eval ((Session.recording g).scope (.ofText x) (g.nestingBound (.ofText x) + 1) o depth) p t).2
    else t

def recorded (g : Grammar) (calls : List Call) : Session × List Access := calls.foldl g.record ({}, [])

end Grammar

theorem Session.recording_refines {E : Fault → Prop} (g : Grammar) :
    Host.Refines E (fun t s => t.1 = s) (Session.recording g) (Session.host g) where
  rule _ := .beside fun _ => rfl
  enter _ := .beside fun _ => rfl
  exit_ok _ := rfl
  exit := .beside fun _ => rfl

theorem Grammar.record_session (g : Grammar) (t : Session × List Access) (call : Call) :
    (g.record t call).1 = g.answer t.1 call := by
  have heval : ∀ (e : Expr) (i : Input) (o : Options) (depth p : Nat),
      (e.eval ((Session.recording g).scope i (g.nestingBound i + 1) o depth) p t).2.1 =
        (e.eval (g.scope i o depth) p t.1).2 := by
    intro e i o depth p
    have hrun :=
      (Session.recording_refines (E := fun _ => False) g).eval (.inl (rfl : g.nestingBound i + 1 = _)) e i o
      depth p
    exact (hrun.same (rfl : t.1 = t.1) fun _ _ h => h).2
  cases call with
  | rule name => rfl
  | evaluate name x => exact heval _ _ _ _ _
  | parseRule name x =>
    simp only [record, answer, parseRule_state]
    exact heval _ _ _ _ _
  | parse x =>
    simp only [record, answer, parse]
    cases g.start with
    | none => rfl
    | some name =>
      simp only [parseRule_state]
      exact heval _ _ _ _ _
  | apply e x o depth p =>
    simp only [record, answer]
    by_cases hp : (Input.ofText x).isBoundary p = true
    · rw [if_pos hp, if_pos hp]
      exact heval _ _ _ _ _
    · rw [if_neg hp, if_neg hp]

theorem Grammar.recorded_session (g : Grammar) (calls : List Call) : (g.recorded calls).1 = g.after calls := by
  have hfold : ∀ (calls : List Call) (t : Session × List Access),
      (calls.foldl g.record t).1 = calls.foldl g.answer t.1 := by
    intro calls
    induction calls with
    | nil => exact fun _ => rfl
    | cons call calls ih =>
      intro t
      rw [List.foldl_cons, List.foldl_cons, ih, g.record_session]
  exact hfold calls ({}, [])

/-! ## What records keep -/

/-- Being asked for a rule keeps `K`, and `K` does not mind which rules are in progress. -/
structure Grammar.Keeps (g : Grammar) (K : Session × List Access → Prop) : Prop where
  rule : ∀ t name, K t → K ((Session.recording g).rule name t).2
  active : ∀ t st, K t → K ({ t.1 with active := st }, t.2)

section
variable {K : Session × List Access → Prop} (hK : g.Keeps K)
include hK

theorem Grammar.Keeps.sound (i : Input) :
    (Session.recording g).Sound g i (fun st t => t.1.Sound g st ∧ K t) (fun _ => True) (fun _ _ _ _ => True) where
  rule st name := by
    intro t ⟨hs, hrec⟩
    have hrec' := hK.rule t name hrec
    obtain ⟨s', he, hs'⟩ := hs.rule_apply name
    have hrun : (Session.recording g).rule name t = ((Session.rule g name t.1).1, (Session.rule g name t.1).2,
      ⟨name, (Session.rule g name t.1).2⟩ :: t.2) := rfl
    rw [hrun, he] at hrec' ⊢
    cases hf : g.find name with
    | ok rule => exact ⟨⟨hs', hrec'⟩, Grammar.find_eq_ok.1 hf⟩
    | error f => exact ⟨⟨hs', hrec'⟩, trivial⟩
  enter fuel o st p name rule _ _ _ := by
    intro t ⟨hs, hrec⟩
    have hrun : (Session.recording g).enter ⟨rule.name, p, o⟩ t = ((Session.enter ⟨rule.name, p, o⟩ t.1).1,
      (Session.enter ⟨rule.name, p, o⟩ t.1).2, t.2) := rfl
    rw [hrun, Session.enter_apply]
    cases inProgress t.1.active ⟨rule.name, p, o⟩ with
    | true => exact ⟨⟨hs, hrec⟩, trivial⟩
    | false => exact ⟨⟨⟨congrArg (_ :: ·) hs.active, hs.cache⟩, hK.active t _ hrec⟩, fun _ _ _ => trivial⟩
  exit f st := by
    intro t ⟨hs, hrec⟩
    exact ⟨⟨congrArg List.tail hs.active, hs.cache⟩, hK.active t _ hrec⟩
  exhausted _ _ _ _ := trivial
  limit _ := trivial
  parse _ _ _ := trivial
  unresolved _ := trivial

theorem Grammar.Keeps.record {t : Session × List Access} (hs : t.1.Sound g []) (ht : K t) (call : Call) :
    K (g.record t call) := by
  have heval : ∀ (e : Expr) (i : Input) (fuel : Nat) (o : Options) (depth p : Nat), i.isBoundary p = true →
      K (e.eval ((Session.recording g).scope i fuel o depth) p t).2 := by
    intro e i fuel o depth p hp
    have hscope :
        ((Session.recording g).scope i fuel o depth).Sound g (fun t => t.1.Sound g [] ∧ K t) (fun _ => True) p :=
      (hK.sound i).scope (fun _ _ _ => trivial) depth
    exact (hscope.eval e (Nat.le_refl p) hp).state ⟨hs, ht⟩ (fun _ _ h => h.1.2) fun _ _ h => h.1.2
  cases call with
  | rule name => exact hK.rule t name ht
  | evaluate name x => exact heval _ _ _ _ _ _ (Input.isBoundary_zero _)
  | parseRule name x => exact heval _ _ _ _ _ _ (Input.isBoundary_zero _)
  | parse x =>
    unfold Grammar.record
    cases g.start with
    | none => exact ht
    | some name => exact heval _ _ _ _ _ _ (Input.isBoundary_zero _)
  | apply e x o depth p =>
    simp only [Grammar.record]
    by_cases hp : (Input.ofText x).isBoundary p = true
    · rw [if_pos hp]
      exact heval _ _ _ _ _ _ hp
    · rw [if_neg hp]
      exact ht

theorem Grammar.Keeps.recorded (calls : List Call) {t : Session × List Access} (hs : t.1.Sound g []) (ht : K t) :
    K (calls.foldl g.record t) := by
  induction calls generalizing t with
  | nil => exact ht
  | cons call calls ih =>
    refine ih ?_ (hK.record hs ht call)
    rw [g.record_session]
    exact g.answer_sound hs call

end

/-- A session is accounted for by its record, and so was it whenever a rule had been asked for; what it
kept then it still keeps. -/
structure Session.Recorded (g : Grammar) (s : Session) (log : List Access) : Prop where
  accounted : s.Accounted g (log.map (·.name))
  within : ∀ later a earlier, log = later ++ a :: earlier →
    a.session.Accounted g (a.name :: earlier.map (·.name)) ∧
    (∀ b ∈ earlier, b.session.cache <:+ a.session.cache) ∧ a.session.cache <:+ s.cache

theorem Session.Recorded.ask {log : List Access} (h : s.Recorded g log) (name : String) :
    (Session.rule g name s).2.Recorded g (⟨name, (Session.rule g name s).2⟩ :: log) where
  accounted := h.accounted.ask name
  within later a earlier hsplit := by
    have hgrown := Session.cache_suffix g name s
    cases later with
    | nil =>
      obtain ⟨rfl, rfl⟩ := List.cons.inj hsplit
      refine ⟨h.accounted.ask name, fun b hb => ?_, List.suffix_refl _⟩
      obtain ⟨before, after, hlog⟩ := List.append_of_mem hb
      exact (h.within before b after hlog).2.2.trans hgrown
    | cons c later =>
      obtain ⟨_, hlog⟩ := List.cons.inj hsplit
      obtain ⟨haccounted, hearlier, hsuffix⟩ := h.within later a earlier hlog
      exact ⟨haccounted, hearlier, hsuffix.trans hgrown⟩

theorem Session.Recorded.kept (g : Grammar) : g.Keeps fun t => t.1.Recorded g t.2 where
  rule _ name h := h.ask name
  active _ st h := ⟨h.accounted.active st, h.within⟩

namespace Grammar

theorem recorded_after (g : Grammar) (calls : List Call) : (g.after calls).Recorded g (g.recorded calls).2 := by
  have hstart : Session.Recorded g {} [] := ⟨.start g, fun later _ _ h => by cases later <;> cases h⟩
  have hrec := (Session.Recorded.kept g).recorded calls (t := ({}, [])) ⟨rfl, fun _ _ h => by cases h⟩ hstart
  rw [← g.recorded_session]
  exact hrec

theorem cache_after (g : Grammar) (calls more : List Call) :
    (g.after calls).cache <:+ (g.after (calls ++ more)).cache := by
  have hkept : g.Keeps fun t => (g.after calls).cache <:+ t.1.cache :=
    ⟨fun t name h => h.trans (Session.cache_suffix g name t.1), fun _ _ h => h⟩
  have hs : (g.recorded calls).1.Sound g [] := by
    rw [recorded_session]
    exact g.after_sound calls
  have hmore := hkept.recorded more hs (by rw [recorded_session])
  have happend : more.foldl g.record (g.recorded calls) = g.recorded (calls ++ more) := List.foldl_append.symm
  rwa [happend, recorded_session] at hmore

end Grammar

/-- What a session keeps does not show in any reply. It keeps what the bodies of the rules gave that it was
asked for, under their names and overrides, and gives up nothing of that; and it builds a body until that
succeeds and never again. All this holds after each call and after each rule asked for within a call. -/
theorem cache_transparent (g : Grammar) (calls : List Call) :
    (∀ call, g.reply (g.after calls) call = g.reply {} call) ∧
    (g.recorded calls).1 = g.after calls ∧
    (g.after calls).Accounted g ((g.recorded calls).2.map (·.name)) ∧
    (∀ later a earlier, (g.recorded calls).2 = later ++ a :: earlier →
      a.session.Accounted g (a.name :: earlier.map (·.name)) ∧
        (∀ b ∈ earlier, b.session.cache <:+ a.session.cache) ∧ a.session.cache <:+ (g.after calls).cache) ∧
    ∀ more, (g.after calls).cache <:+ (g.after (calls ++ more)).cache := by
  have hrec := g.recorded_after calls
  refine ⟨fun call => ?_, g.recorded_session calls, hrec.accounted, hrec.within, g.cache_after calls⟩
  have hs := g.after_sound calls
  exact Grammar.reply_alongside ⟨⟨rfl, hs.cache⟩, ⟨rfl, fun _ _ h => by cases h⟩, hs.active⟩ call

def faltering : Grammar where
  rules := [⟨"whole", {}, fun _ => .ok (.ref "part")⟩, ⟨"part", {}, fun _ => .error (.unknownToken "word")⟩]

example :
    (faltering.after [.evaluate "whole" ['x'], .evaluate "whole" ['x']]).built = ["part", "part", "whole"] := by
  rfl

end PegTree
