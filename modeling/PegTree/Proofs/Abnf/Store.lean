import PegTree.Proofs.Abnf.Blocks
import PegTree.Proofs.Grouping
import PegTree.Proofs.Registry

/-!
# Definitions as a store

Texts are compiled to a list of `Definitions`, and a store is not run: it is the same with an array and an index
of the names, and it holds what the list holds and answers as the list does (`Store.Mirrors`). Equations in error
change nothing, and what is bound to a name in several equations parses as the ordered choice of all of it.
-/

namespace PegTree.Abnf

/-! ## The store -/

structure Equation where
  name : String
  operator : String
  rhs : Expr

def Equation.verdict (q : Equation) (names : List String) : Except Error Unit :=
  if q.operator = "=" then if q.name ∈ names then .error (.ofGrammar (.duplicateRule q.name)) else .ok ()
  else if q.operator = "=/" then if q.name ∈ names then .ok () else .error (.undefinedIncrement q.name)
  else .error (.invalidOperator q.name q.operator)

structure Store where
  rules : Array (String × Expr) := #[]
  index : Std.HashMap String Nat := ∅

namespace Store

def names (s : Store) : List String := s.rules.toList.map (·.1)

def get? (s : Store) (name : String) : Option Expr := s.index[name]?.bind fun i => s.rules[i]?.map (·.2)

def define (s : Store) (q : Equation) : Store × Except Error Unit :=
  if q.operator = "=" then
    if s.index.contains q.name then (s, .error (.ofGrammar (.duplicateRule q.name)))
    else ({ rules := s.rules.push (q.name, q.rhs), index := s.index.insert q.name s.rules.size }, .ok ())
  else if q.operator = "=/" then
    match s.index[q.name]? with
    | some i => ({ s with rules := s.rules.modify i fun (n, e) => (n, e.orElse q.rhs) }, .ok ())
    | none => (s, .error (.undefinedIncrement q.name))
  else (s, .error (.invalidOperator q.name q.operator))

def after (s : Store) (qs : List Equation) : Store := qs.foldl (fun s q => (s.define q).1) s

def taken (s : Store) : List Equation → List Equation
  | [] => []
  | q :: qs =>
    match (s.define q).2 with
    | .ok () => q :: (s.define q).1.taken qs
    | .error _ => (s.define q).1.taken qs

end Store

def bound (qs : List Equation) (name : String) : List Expr := (qs.filter (·.name == name)).map (·.rhs)

def defining (qs : List Equation) : List String := (qs.filter (·.operator == "=")).map (·.name)

/-- One expression, or the ordered choice of several. -/
def ordered : List Expr → Expr
  | [e] => e
  | es => .choice false es

/-! ## The list of definitions -/

theorem bound_concat (qs : List Equation) (q : Equation) (name : String) :
    bound (qs ++ [q]) name = bound qs name ++ if q.name = name then [q.rhs] else [] := by
  unfold bound
  rw [List.filter_append, List.map_append]
  by_cases hn : q.name = name <;> simp [hn]

theorem defining_concat (qs : List Equation) (q : Equation) :
    defining (qs ++ [q]) = defining qs ++ if q.operator = "=" then [q.name] else [] := by
  unfold defining
  by_cases ho : q.operator = "=" <;> simp [ho]

namespace Definitions

variable {d : Definitions} {calls taken : List Equation}

def attempt (d : Definitions) (q : Equation) : Definitions × Except Error Unit :=
  match d.define q.name q.operator q.rhs with
  | .ok d' => (d', .ok ())
  | .error e => (d, .error e)

def after (d : Definitions) (qs : List Equation) : Definitions := qs.foldl (fun d q => (d.attempt q).1) d

theorem attempt_cases (d : Definitions) (q : Equation) :
    (q.operator = "=" ∧ q.name ∉ d.names ∧ q.verdict d.names = .ok () ∧
      d.attempt q = (⟨d.rules ++ [(q.name, q.rhs)]⟩, .ok ())) ∨
    (q.operator = "=/" ∧ q.name ∈ d.names ∧ q.verdict d.names = .ok () ∧
      d.attempt q = (d.extend q.name q.rhs, .ok ())) ∨
    (q.operator = "=" → q.name ∈ d.names) ∧ ∃ e, q.verdict d.names = .error e ∧ d.attempt q = (d, .error e) := by
  have hincrement : "=/" ≠ "=" := by decide
  obtain ⟨name, operator, rhs⟩ := q
  unfold attempt Equation.verdict define
  by_cases ho : operator = "="
  · by_cases hn : name ∈ d.names
    · simp [ho, hn, get?_isSome.2 hn]
    · have hfree : (d.get? name).isSome = false := Bool.eq_false_iff.2 fun h => hn (get?_isSome.1 h)
      simp [ho, hn, hfree]
  · by_cases ho' : operator = "=/"
    · by_cases hn : name ∈ d.names
      · simp [ho', hincrement, hn, get?_isSome.2 hn]
      · have hfree : (d.get? name).isSome = false := Bool.eq_false_iff.2 fun h => hn (get?_isSome.1 h)
        simp [ho', hincrement, hn, hfree]
    · simp [ho, ho']

/-- Definitions after some calls, of which some equations have been taken: the names stand in the order in which
they have been defined, each with what the equations taken bind to it. -/
structure Holds (d : Definitions) (calls taken : List Equation) : Prop where
  distinct : d.names.Nodup
  order : d.names = (defining calls).eraseDups
  bodies : d.rules = d.names.map fun n => (n, united (bound taken n))
  named : ∀ n, n ∈ d.names ↔ bound taken n ≠ []

theorem Holds.start : Holds {} [] [] where
  distinct := List.nodup_nil
  order := rfl
  bodies := rfl
  named n := by simp [names, bound]

theorem Holds.mem_defining (h : d.Holds calls taken) (name : String) : name ∈ defining calls ↔ name ∈ d.names := by
  rw [h.order, List.mem_eraseDups]

theorem Holds.first {q : Equation} (h : d.Holds calls taken) (ho : q.operator = "=") (hn : q.name ∉ d.names) :
    Holds ⟨d.rules ++ [(q.name, q.rhs)]⟩ (calls ++ [q]) (taken ++ [q]) := by
  have hnames : names ⟨d.rules ++ [(q.name, q.rhs)]⟩ = d.names ++ [q.name] := by simp [names]
  have hold : ∀ n ∈ d.names, (n, united (bound (taken ++ [q]) n)) = (n, united (bound taken n)) := by
    intro n hm
    have hne : q.name ≠ n := fun he => hn (he ▸ hm)
    rw [bound_concat, if_neg hne, List.append_nil]
  -- a name that is not among the names has nothing bound to it yet
  have hnew : bound (taken ++ [q]) q.name = [q.rhs] := by
    rw [bound_concat, if_pos rfl, not_not.1 fun hb => hn ((h.named _).2 hb), List.nil_append]
  refine ⟨?_, ?_, ?_, fun n => ?_⟩
  · rw [hnames]
    refine List.nodup_append.2 ⟨h.distinct, List.nodup_singleton _, fun m hm m' hm' he => ?_⟩
    rw [he, List.mem_singleton.1 hm'] at hm
    exact hn hm
  · rw [hnames, defining_concat, if_pos ho, eraseDups_concat,
      if_neg fun hm => hn ((h.mem_defining _).1 hm), h.order]
  · rw [hnames, List.map_append, List.map_congr_left hold, ← h.bodies, List.map_singleton, hnew, united]
  · rw [hnames, List.mem_append, List.mem_singleton, h.named, bound_concat]
    by_cases hq : q.name = n
    · simp [hq]
    · simp [hq, Ne.symm hq]

theorem Holds.later {q : Equation} (h : d.Holds calls taken) (ho : q.operator ≠ "=") (hn : q.name ∈ d.names) :
    Holds (d.extend q.name q.rhs) (calls ++ [q]) (taken ++ [q]) := by
  refine ⟨?_, ?_, ?_, fun n => ?_⟩
  · rw [names_extend]
    exact h.distinct
  · rw [names_extend, defining_concat, if_neg ho, List.append_nil, h.order]
  · rw [names_extend]
    show d.rules.map _ = _
    rw [h.bodies, List.map_map]
    refine List.map_congr_left fun n hm => ?_
    show (if n == q.name then (n, (united (bound taken n)).orElse q.rhs) else (n, united (bound taken n))) = _
    by_cases hq : q.name = n
    · rw [if_pos (beq_iff_eq.2 hq.symm), bound_concat, if_pos hq, united_concat _ ((h.named n).1 hm)]
    · rw [if_neg fun hb => hq (beq_iff_eq.1 hb).symm, bound_concat, if_neg hq, List.append_nil]
  · rw [names_extend, h.named, bound_concat]
    by_cases hq : q.name = n
    · have hbound := (h.named q.name).1 hn
      simp [hq, hq ▸ hbound]
    · simp [hq]

theorem Holds.refused {q : Equation} (h : d.Holds calls taken) (hq : q.operator = "=" → q.name ∈ d.names) :
    d.Holds (calls ++ [q]) taken := by
  refine { h with order := ?_ }
  rw [defining_concat]
  by_cases ho : q.operator = "="
  · rw [if_pos ho, eraseDups_concat, if_pos ((h.mem_defining _).2 (hq ho)), h.order]
  · rw [if_neg ho, List.append_nil, h.order]

theorem Holds.attempt (h : d.Holds calls taken) (q : Equation) :
    ((d.attempt q).2 = .ok () → (d.attempt q).1.Holds (calls ++ [q]) (taken ++ [q])) ∧
      ∀ e, (d.attempt q).2 = .error e → (d.attempt q).1.Holds (calls ++ [q]) taken := by
  rcases d.attempt_cases q with ⟨ho, hn, _, hd⟩ | ⟨ho, hn, _, hd⟩ | ⟨hknown, e, _, hd⟩
  · rw [hd]
    exact ⟨fun _ => h.first ho hn, fun e he => by cases he⟩
  · have ho' : q.operator ≠ "=" := by
      rw [ho]
      decide
    rw [hd]
    exact ⟨fun _ => h.later ho' hn, fun e he => by cases he⟩
  · rw [hd]
    exact ⟨(fun hok => by cases hok), fun _ _ => h.refused hknown⟩

theorem Holds.get? (h : d.Holds calls taken) (name : String) :
    d.get? name = if name ∈ d.names then some (united (bound taken name)) else none := by
  unfold Definitions.get?
  conv_lhs => rw [h.bodies]
  exact lookup_graph (fun n => united (bound taken n)) name d.names

end Definitions

/-! ## In step -/

/-- A store and definitions that hold the same; the index leads to the place of each name. -/
structure Store.Mirrors (s : Store) (d : Definitions) : Prop where
  rules : s.rules.toList = d.rules
  index : ∀ (name : String) (i : Nat), s.index[name]? = some i ↔ d.names[i]? = some name

theorem Store.Mirrors.start : Store.Mirrors {} {} where
  rules := rfl
  index name i := by simp [Definitions.names]

theorem map_eq_modify {α β : Type} [DecidableEq α] {l : List (α × β)} {a : α} {i : Nat} (f : α × β → α × β)
    (hl : (l.map (·.1)).Nodup) (hi : (l.map (·.1))[i]? = some a) :
    l.map (fun r => if r.1 = a then f r else r) = l.modify i f := by
  apply List.ext_getElem?
  intro j
  rw [List.getElem?_map, List.getElem?_modify]
  cases hj : l[j]? with
  | none => rfl
  | some r =>
    have hname : (l.map (·.1))[j]? = some r.1 := by rw [List.getElem?_map, hj, Option.map_some]
    have hsame : r.1 = a ↔ i = j := by
      constructor
      · rintro rfl
        exact (List.getElem?_inj (List.getElem?_eq_some_iff.1 hi).1 hl).1 (hi.trans hname.symm)
      · rintro rfl
        exact Option.some.inj (hname.symm.trans hi)
    show some (if r.1 = a then f r else r) = some (if i = j then f r else r)
    simp only [hsame]

namespace Store.Mirrors

variable {s : Store} {d : Definitions} (h : s.Mirrors d)
include h

theorem names : s.names = d.names := by
  unfold Store.names
  rw [h.rules]
  rfl

theorem contains (name : String) : s.index.contains name = (d.get? name).isSome := by
  rw [Bool.eq_iff_iff, get?_isSome]
  exact Indexes.contains h.index

theorem size : s.rules.size = d.names.length := by
  rw [← h.names, Store.names, List.length_map, Array.length_toList]

theorem define (hd : d.names.Nodup) (q : Equation) :
    (s.define q).2 = (d.attempt q).2 ∧ (s.define q).1.Mirrors (d.attempt q).1 := by
  have hincrement : "=/" ≠ "=" := by decide
  obtain ⟨name, operator, rhs⟩ := q
  unfold Store.define Definitions.attempt Definitions.define
  rw [h.contains]
  by_cases ho : operator = "="
  · by_cases hn : (d.get? name).isSome = true
    · simp only [ho, hn, if_true, true_and]
      exact h
    · have hnew : name ∉ d.names := fun hm => hn (get?_isSome.2 hm)
      simp only [ho, hn, if_true, if_false, Bool.false_eq_true, true_and]
      have hnames : Definitions.names ⟨d.rules ++ [(name, rhs)]⟩ = d.names ++ [name] := by simp [Definitions.names]
      refine ⟨by simp [h.rules], ?_⟩
      rw [hnames, h.size]
      exact Indexes.push h.index hnew
  · by_cases ho' : operator = "=/"
    · cases hi : s.index[name]? with
      | none =>
        have hnone : (d.get? name).isSome = false := by
          rw [← h.contains, Std.HashMap.contains_eq_isSome_getElem?, hi, Option.isSome_none]
        simp only [ho', hnone, if_true, if_neg hincrement, Bool.false_eq_true, if_false, true_and]
        exact h
      | some i =>
        have hsome : (d.get? name).isSome = true := by
          rw [← h.contains, Std.HashMap.contains_eq_isSome_getElem?, hi, Option.isSome_some]
        simp only [ho', hsome, if_true, if_neg hincrement, true_and]
        refine ⟨?_, fun m j => ?_⟩
        · have hmodify := map_eq_modify (fun (n, e) => (n, e.orElse rhs)) hd ((h.index name i).1 hi)
          rw [Array.toList_modify, h.rules, ← hmodify]
          unfold Definitions.extend
          simp only [beq_iff_eq]
        · rw [names_extend]
          exact h.index m j
    · simp only [ho, ho', if_false, true_and]
      exact h

theorem lookup {calls taken : List Equation} (hd : d.Holds calls taken) (name : String) :
    s.get? name = d.get? name := by
  unfold Store.get?
  rw [hd.get?]
  cases hi : s.index[name]? with
  | none =>
    have hnone : name ∉ d.names := by
      rw [List.mem_iff_getElem?]
      rintro ⟨i, hn⟩
      rw [(h.index name i).2 hn] at hi
      cases hi
    rw [if_neg hnone, Option.bind_none]
  | some i =>
    have hname := (h.index name i).1 hi
    rw [if_pos (List.mem_of_getElem? hname), Option.bind_some, ← Array.getElem?_toList, h.rules, hd.bodies,
      List.getElem?_map, hname]
    rfl

end Store.Mirrors

theorem Store.Mirrors.after {s : Store} {d : Definitions} {calls taken : List Equation} (h : s.Mirrors d)
    (hd : d.Holds calls taken) (qs : List Equation) :
    (s.after qs).Mirrors (d.after qs) ∧ (d.after qs).Holds (calls ++ qs) (taken ++ s.taken qs) := by
  induction qs generalizing s d calls taken with
  | nil =>
    rw [Store.taken, List.append_nil, List.append_nil]
    exact ⟨h, hd⟩
  | cons q qs ih =>
    obtain ⟨hsame, hnext⟩ := h.define hd.distinct q
    obtain ⟨hok, herror⟩ := hd.attempt q
    rw [Store.taken, List.append_cons calls]
    cases hq : (s.define q).2 with
    | ok =>
      rw [hq] at hsame
      have hrest := ih hnext (hok hsame.symm)
      rw [List.append_assoc taken] at hrest
      exact hrest
    | error e =>
      rw [hq] at hsame
      exact ih hnext (herror e hsame.symm)

/-! ## Outcomes -/

theorem united_outcome {g : Grammar} {calls : List Call} {st : List Frame} {i : Input}
    {o : Options} {depth p : Nat} (hp : i.isBoundary p = true) (es : List Expr) :
    (united es).outcome (g.scope i o depth) p { g.after calls with active := st } =
      (ordered es).outcome (g.scope i o depth) p { g.after calls with active := st } := by
  cases es with
  | nil => rfl
  | cons e es =>
    cases es with
    | nil => rfl
    | cons f es => exact choice_grouped hp (e :: f :: es)

/-! ## The invariant -/

structure Store.Kept (qs : List Equation) (s : Store) : Prop where
  distinct : s.names.Nodup
  -- the names stand in the order in which they have first been defined
  order : s.names = (defining qs).eraseDups
  index : ∀ (name : String) (i : Nat), s.index[name]? = some i ↔ s.names[i]? = some name
  -- no lookup of a name leaves the array
  within : ∀ (name : String) (i : Nat), s.index[name]? = some i → i < s.rules.size
  verdict : ∀ q, (s.define q).2 = q.verdict s.names
  failed : ∀ q e, (s.define q).2 = .error e → (s.define q).1 = s
  -- the names that are found are those that equations taken have bound something to
  found : ∀ name, (s.get? name).isSome = true ↔ bound (Store.taken {} qs) name ≠ []
  sole : ∀ name e rhs, s.get? name = some e → bound (Store.taken {} qs) name = [rhs] → e = rhs
  -- what is found parses as the ordered choice of what the equations taken have bound to the name
  united : ∀ name e, s.get? name = some e → ∀ (g : Grammar) (calls : List Call) (st : List Frame) (i : Input)
    (o : Options) (depth p : Nat), i.isBoundary p = true →
      e.outcome (g.scope i o depth) p { g.after calls with active := st } =
        (ordered (bound (Store.taken {} qs) name)).outcome
          (g.scope i o depth) p { g.after calls with active := st }
  -- the definitions that texts are compiled to hold the same and give the same answers
  mirrors : s.Mirrors (Definitions.after {} qs)
  answers : ∀ q, (s.define q).2 = ((Definitions.after {} qs).attempt q).2

theorem Store.define_failed {s : Store} {q : Equation} {e : Error} (h : (s.define q).2 = .error e) :
    (s.define q).1 = s := by
  unfold Store.define at h ⊢
  by_cases ho : q.operator = "="
  · by_cases hn : s.index.contains q.name = true <;> simp_all
  · by_cases ho' : q.operator = "=/"
    · cases hi : s.index[q.name]? <;> simp_all
    · simp_all

/-- Whatever equations are given in whatever order, be they in error or not, a store keeps what it has taken. -/
theorem store_kept (qs : List Equation) : (Store.after {} qs).Kept qs := by
  obtain ⟨hm, hd⟩ := Store.Mirrors.start.after .start qs
  rw [List.nil_append, List.nil_append] at hd
  have hget : ∀ name e, (Store.after {} qs).get? name = some e →
      e = Abnf.united (bound (Store.taken {} qs) name) := by
    intro name e he
    rw [hm.lookup hd, hd.get?] at he
    by_cases hn : name ∈ (Definitions.after {} qs).names
    · rw [if_pos hn] at he
      exact (Option.some.inj he).symm
    · rw [if_neg hn] at he
      cases he
  refine { mirrors := hm, distinct := ?distinct, order := ?order, index := ?index, within := ?within,
           verdict := ?verdict, failed := ?failed, found := ?found, sole := ?sole, united := ?united,
           answers := ?answers }
  case distinct =>
    rw [hm.names]
    exact hd.distinct
  case order =>
    rw [hm.names]
    exact hd.order
  case index =>
    intro name i
    rw [hm.index, hm.names]
  case within =>
    intro name i hi
    rw [hm.size]
    exact (List.getElem?_eq_some_iff.1 ((hm.index name i).1 hi)).1
  case verdict =>
    intro q
    rw [(hm.define hd.distinct q).1, hm.names]
    rcases (Definitions.after {} qs).attempt_cases q with ⟨_, _, hv, hq⟩ | ⟨_, _, hv, hq⟩ | ⟨_, e, hv, hq⟩
    all_goals rw [hv, hq]
  case failed =>
    intro q e
    exact Store.define_failed
  case found =>
    intro name
    rw [hm.lookup hd, get?_isSome]
    exact hd.named name
  case sole =>
    intro name e rhs he hb
    rw [hget name e he, hb, Abnf.united]
  case united =>
    intro name e he g calls st i o depth p hp
    rw [hget name e he]
    exact united_outcome hp _
  case answers =>
    intro q
    exact (hm.define hd.distinct q).1

example : (Definitions.after {} [⟨"a", "=", .text ['x']⟩, ⟨"b", "=/", .text ['y']⟩, ⟨"a", "=", .text ['y']⟩,
    ⟨"a", "=/", .text ['z']⟩]).rules = [("a", .choice false [.text ['x'], .text ['z']])] := by
  decide

/-! ## Texts -/

theorem Store.Mirrors.addRules {s : Store} {d d' : Definitions} {calls taken : List Equation} {ns : List Node}
    (h : s.Mirrors d) (hd : d.Holds calls taken) (hns : ns.foldlM Definitions.addRule d = .ok d') :
    ∃ qs, s.taken qs = qs ∧ (s.after qs).Mirrors d' := by
  induction ns generalizing s d calls taken with
  | nil =>
    cases hns
    exact ⟨[], rfl, h⟩
  | cons n ns ih =>
    rw [List.foldlM_cons] at hns
    obtain ⟨d₁, hn, hns⟩ := bind_ok hns
    obtain ⟨name, operator, rhs, hdef, _⟩ := define_of_addRule hn
    have hq : d.attempt ⟨name, operator, rhs⟩ = (d₁, .ok ()) := by
      unfold Definitions.attempt
      rw [hdef]
    obtain ⟨hsame, hnext⟩ := h.define hd.distinct ⟨name, operator, rhs⟩
    have hd₁ := (hd.attempt ⟨name, operator, rhs⟩).1
    rw [hq] at hsame hnext hd₁
    obtain ⟨qs, htaken, hm⟩ := ih hnext (hd₁ rfl) hns
    refine ⟨⟨name, operator, rhs⟩ :: qs, ?_, hm⟩
    rw [Store.taken, hsame, htaken]

/-- The definitions of a text are those of a store after its equations, none of which is in error. -/
theorem compile_store {t : Text} {d : Definitions} (h : compile t = .ok d) :
    ∃ qs, Store.taken {} qs = qs ∧ (Store.after {} qs).Mirrors d := by
  obtain ⟨tree, _, hrules⟩ := bind_ok h
  exact Store.Mirrors.start.addRules .start hrules

end PegTree.Abnf
