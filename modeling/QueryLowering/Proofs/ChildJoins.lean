import QueryLowering.Desugar.ChildJoin
import QueryLowering.Proofs.Reading
import Mathlib.Data.List.Basic
import Mathlib.Logic.Function.Basic

/-!
# Child joins keep their meaning

A `SelectMany` whose plan is a join pairs every row of its source with the same rows as before. The
conjuncts of the condition that mention the outer row become the condition of the join, the others
stay on the child, and a conjunction may be regrouped that way because three-valued conjunction is
associative and commutative.

Nothing is assumed of the expressions but that `&&` is that conjunction, that a filter keeps the rows
on which its condition is true, and that a value depends on no parameter but those that occur.

## Main results

* `Desugar.classifyFiltered_eq_some`: what the plan over a filtered query is made of.
* `Desugar.classify_faithful`: a plan joins the pairs that the `SelectMany` flattens.
-/

namespace QueryLowering

open List

variable {body e : Expr} {inner outer x : String} {method : Method}

/-! ## Three-valued conjunction -/

namespace Sql

theorem conjoin_true (a : Option Bool) : conjoin a (some true) = a := by
  rcases a with _ | _ | _ <;> rfl

theorem conjoin_comm (a b : Option Bool) : conjoin a b = conjoin b a := by
  rcases a with _ | _ | _ <;> rcases b with _ | _ | _ <;> rfl

theorem conjoin_assoc (a b c : Option Bool) : conjoin (conjoin a b) c = conjoin a (conjoin b c) := by
  rcases a with _ | _ | _ <;> rcases b with _ | _ | _ <;> rcases c with _ | _ | _ <;> rfl

theorem conjoin_left_comm (a b c : Option Bool) : conjoin a (conjoin b c) = conjoin b (conjoin a c) := by
  rw [← conjoin_assoc, conjoin_comm a b, conjoin_assoc]

end Sql

open Sql

open Function (update)

/-! ## Mentioned parameters -/

namespace Expr

theorem mentions_eq (x : String) (e : Expr) : e.mentions x = (e.isParameter x || e.children.any (·.mentions x)) := by
  unfold mentions any
  rw [fold_eq, any_map]
  rfl

@[simp]
theorem mentions_binary (x : String) (op : BinaryOp) (left right : Expr) (ty : Ty) :
    (binary op left right ty).mentions x = (left.mentions x || right.mentions x) := by
  simp [mentions_eq x (binary op left right ty), isParameter, children]

@[simp]
theorem mentions_staticCall (x : String) (method : Method) (args : List Expr) (ty : Ty) :
    (call method none args ty).mentions x = args.any (·.mentions x) := by
  simp [mentions_eq x (call ..), isParameter, children]

theorem mentions_of_asLambda? {e : Expr} {params : List Param} (h : e.asLambda? = some (params, body))
    (x : String) : e.mentions x = body.mentions x := by
  cases e with
  | lambda params' body' =>
    obtain ⟨rfl, rfl⟩ := Prod.mk.inj (Option.some.inj h)
    simp [mentions_eq x (lambda ..), isParameter, children]
  | unary op operand ty =>
    cases op with
    | quote =>
      rw [mentions_eq]
      simpa [isParameter, children] using mentions_of_asLambda? (e := operand) h x
    | _ => cases h
  | _ => cases h

/-! ## Readings of expressions -/

/-- A reading of conditions and queries. Conditions have truth values that may be unknown and queries
have rows, both under an assignment of rows to parameters. -/
structure Interpretation (V : Type) where
  truth : Expr → (String → V) → Option Bool
  rows : Expr → (String → V) → List V
  truth_andAlso : ∀ left right ty σ, truth (.binary .andAlso left right ty) σ = conjoin (truth left σ) (truth right σ)
  /-- A filter keeps the rows on which its condition is true. -/
  rows_filter : ∀ method query condition ty param predicate σ,
    Operator.ofMethod? method = some .filter → condition.asLambda? = some ([param], predicate) →
      rows (.call method none [query, condition] ty) σ =
        (rows query σ).filter fun y => truth predicate (update σ param.name y) == some true
  /-- The truth value depends on the parameters that occur. -/
  truth_congr : ∀ e σ τ, (∀ x, e.mentions x = true → σ x = τ x) → truth e σ = truth e τ
  /-- The rows depend on the parameters that occur. -/
  rows_congr : ∀ e σ τ, (∀ x, e.mentions x = true → σ x = τ x) → rows e σ = rows e τ

namespace Interpretation

variable {V : Type} (R : Interpretation V) (σ : String → V)

/-- The truth value of a condition that may be absent; an absent one is true. -/
def truthOf : Option Expr → Option Bool
  | some e => R.truth e σ
  | none => some true

/-- The truth value of all of some conditions. -/
def truthOfAll (es : List Expr) : Option Bool := es.foldr (fun e rest => conjoin (R.truth e σ) rest) (some true)

/-- The pairs of a row of a source and a row of the query that depends on it. -/
def flattened (source : Expr) (outer : Param) (body : Expr) : List (V × V) :=
  (R.rows source σ).flatMap fun x => (R.rows body (update σ outer.name x)).map (x, ·)

/-- Whether a join condition, a lambda over a row of each side, is true of two rows. -/
def matching (condition : Option Expr) (x y : V) : Bool :=
  match condition with
  | none => true
  | some c =>
    match c.asLambda? with
    | some ([outer, inner], keys) =>
      R.truth keys (update (update σ outer.name x) inner.name y) == some true
    | _ => false

/-- The pairs of rows that a plan joins. -/
def joined (plan : Desugar.JoinPlan) : List (V × V) := (R.rows plan.source σ).flatMap fun x =>
    ((R.rows plan.child σ).filter (R.matching σ plan.condition x)).map (x, ·)

variable {R σ}

@[simp]
theorem truthOfAll_cons (e : Expr) (es : List Expr) :
    R.truthOfAll σ (e :: es) = conjoin (R.truth e σ) (R.truthOfAll σ es) := rfl

theorem truthOfAll_append (es fs : List Expr) :
    R.truthOfAll σ (es ++ fs) = conjoin (R.truthOfAll σ es) (R.truthOfAll σ fs) := by
  induction es with
  | nil => rfl
  | cons e rest ih => rw [cons_append, truthOfAll_cons, ih, truthOfAll_cons, conjoin_assoc]

/-- Conditions may be taken apart by any test: both parts together are as true as the whole. -/
theorem truthOfAll_eq_filter (p : Expr → Bool) (es : List Expr) : R.truthOfAll σ es =
      conjoin (R.truthOfAll σ (es.filter p)) (R.truthOfAll σ (es.filter fun e => !p e)) := by
  induction es with
  | nil => rfl
  | cons e rest ih =>
    cases hp : p e with
    | true =>
      rw [filter_cons_of_pos hp, filter_cons_of_neg (by simp [hp]), truthOfAll_cons, truthOfAll_cons, ih,
        conjoin_assoc]
    | false =>
      rw [filter_cons_of_neg (by simp [hp]), filter_cons_of_pos (by simp [hp]), truthOfAll_cons,
        truthOfAll_cons, ih, conjoin_left_comm]

theorem truth_eq_conjuncts (e : Expr) : R.truth e σ = R.truthOfAll σ (Desugar.conjuncts e) := by
  fun_induction Desugar.conjuncts e with
  | case1 left right ty ihleft ihright =>
    rw [R.truth_andAlso, truthOfAll_append, ihleft, ihright]
  | case2 e => exact (conjoin_true _).symm

theorem truthOf_conjunction (es : List Expr) : R.truthOf σ (Desugar.conjunction es) = R.truthOfAll σ es := by
  have hfold : ∀ (rest : List Expr) (e : Expr),
      R.truth (rest.foldl (binaryOf .andAlso) e) σ = conjoin (R.truth e σ) (R.truthOfAll σ rest) := by
    intro rest
    induction rest with
    | nil => exact fun e => (conjoin_true _).symm
    | cons f rest ih =>
      intro e
      rw [foldl_cons, ih, binaryOf, R.truth_andAlso, conjoin_assoc, truthOfAll_cons]
  cases es with
  | nil => rfl
  | cons e rest => exact hfold rest e

/-- An assignment to a parameter that does not occur changes no truth value. -/
theorem truth_update (h : e.mentions x = false) (v : V) :
    R.truth e (update σ x v) = R.truth e σ := by
  refine R.truth_congr e _ _ fun y hy => Function.update_of_ne ?_ v σ
  rintro rfl
  rw [h] at hy
  cases hy

/-- An assignment to a parameter that does not occur changes no rows. -/
theorem rows_update (h : e.mentions x = false) (v : V) :
    R.rows e (update σ x v) = R.rows e σ := by
  refine R.rows_congr e _ _ fun y hy => Function.update_of_ne ?_ v σ
  rintro rfl
  rw [h] at hy
  cases hy

end Interpretation

end Expr

/-! ## The parts of a plan -/

namespace Desugar

variable {e : Expr} {es : List Expr}

theorem conjuncts_conjunction (hes : ∀ e ∈ es, conjuncts e = [e]) : ∀ c ∈ conjunction es, conjuncts c = es := by
  have hfold : ∀ (rest : List Expr) (e : Expr), (∀ f ∈ rest, conjuncts f = [f]) →
      conjuncts (rest.foldl (Expr.binaryOf .andAlso) e) = conjuncts e ++ rest := by
    intro rest
    induction rest with
    | nil => exact fun e _ => (append_nil _).symm
    | cons f rest ih =>
      intro e hrest
      rw [foldl_cons, ih _ fun g hg => hrest g (mem_cons_of_mem f hg), Expr.binaryOf, conjuncts,
        hrest f mem_cons_self, append_assoc, singleton_append]
  rintro c hc
  cases es with
  | nil => cases hc
  | cons e rest =>
    obtain rfl := Option.some.inj hc
    rw [hfold rest e fun f hf => hes f (mem_cons_of_mem e hf), hes e mem_cons_self]
    rfl

theorem exists_conjunction (h : es ≠ []) : ∃ c, conjunction es = some c := by
  obtain ⟨e, rest, rfl⟩ := exists_cons_of_ne_nil h
  exact ⟨_, rfl⟩

theorem mentions_conjunction (x : String) : ∀ c ∈ conjunction es, c.mentions x = es.any (·.mentions x) := by
  have hfold : ∀ (rest : List Expr) (e : Expr),
      (rest.foldl (Expr.binaryOf .andAlso) e).mentions x = (e.mentions x || rest.any (·.mentions x)) := by
    intro rest
    induction rest with
    | nil => simp
    | cons f rest ih =>
      intro e
      rw [foldl_cons, ih, Expr.binaryOf, Expr.mentions_binary, any_cons, Bool.or_assoc]
  rintro c hc
  cases es with
  | nil => cases hc
  | cons e rest =>
    obtain rfl := Option.some.inj hc
    exact hfold rest e

/-- An equality of a value of the outer row, which does not mention the inner one, and a value of the
inner row, which does not mention the outer one. -/
def KeyEquality (outer inner : String) (e : Expr) : Prop :=
  ∃ own other ty, (e = .binary .equal own other ty ∨ e = .binary .equal other own ty) ∧
    own.mentions outer = true ∧ own.mentions inner = false ∧ other.mentions inner = true ∧ other.mentions outer = false

theorem keyEquality_of_isKeyEquality (h : isKeyEquality outer inner e = true) : KeyEquality outer inner e := by
  unfold isKeyEquality mentionsOnly at h
  split at h
  · next left right ty =>
    simp only [Bool.or_eq_true, Bool.and_eq_true, Bool.not_eq_true'] at h
    rcases h with ⟨⟨ho, hi⟩, hi', ho'⟩ | ⟨⟨hi, ho⟩, ho', hi'⟩
    · exact ⟨left, right, ty, .inl rfl, ho, hi, hi', ho'⟩
    · exact ⟨right, left, ty, .inr rfl, ho', hi', hi, ho⟩
  · cases h

theorem KeyEquality.conjuncts (h : KeyEquality outer inner e) : conjuncts e = [e] := by
  obtain ⟨own, other, ty, rfl | rfl, -⟩ := h <;> rfl

/-- A call that filters a query by a lambda of one parameter. -/
structure Filters (body : Expr) (method : Method) (query : Expr) (inner : Param) (predicate : Expr) (ty : Ty) :
    Prop where
  operator : Operator.ofMethod? method = some .filter
  call : ∃ condition : Expr, body = .call method none [query, condition] ty ∧
    condition.asLambda? = some ([inner], predicate)

/-- The query with the filter that is left on it, if one is left. -/
def filteredBy (method : Method) (ty : Ty) (query : Expr) (inner : Param) : Option Expr → Expr
  | some c => .call method none [query, (Expr.lambda [inner] c).quoted] ty
  | none => query

/-- The plan over a filtered query: the conjuncts that mention the outer row are key equalities and
join, the others stay. -/
theorem classifyFiltered_eq_some {source : Expr} {result : Option Expr} {outer : Param}
    {plan : JoinPlan} (h : classifyFiltered source result outer body = some plan) :
    ∃ method query inner predicate ty, Filters body method query inner predicate ty ∧
      query.mentions outer.name = false ∧ inner.name ≠ outer.name ∧
      (∃ keys, conjunction ((conjuncts predicate).filter (·.mentions outer.name)) = some keys ∧
        plan.condition = some (Expr.lambda [outer, inner] keys).quoted) ∧
      (∀ k ∈ (conjuncts predicate).filter (·.mentions outer.name), KeyEquality outer.name inner.name k) ∧
      plan.child = filteredBy method ty query inner
        (conjunction ((conjuncts predicate).filter fun p => !p.mentions outer.name)) ∧
      plan.source = source ∧ plan.result = result ∧ plan.join = .inner := by
  unfold classifyFiltered at h
  split at h
  · next method receiver query condition ty hop =>
    obtain rfl := Operator.receiver_eq_none hop
    split at h
    · cases h
    next hquery =>
    simp only [Option.bind_eq_bind, Option.bind_eq_some_iff] at h
    obtain ⟨⟨params, predicate⟩, hlambda, h⟩ := h
    split at h
    · next inner predicate' hparts =>
      obtain ⟨rfl, rfl⟩ := Prod.mk.inj hparts
      split at h
      · cases h
      next hname =>
      split at h
      · cases h
      next hkeys =>
      obtain rfl := Option.some.inj h
      simp only [Bool.or_eq_true, Bool.not_eq_true', not_or, Bool.not_eq_true, Bool.not_eq_false] at hquery hkeys
      refine ⟨method, query, inner, predicate, ty, ⟨hop, condition, rfl, hlambda⟩, hquery.1, by simpa using hname,
        ?_, fun k hk => keyEquality_of_isKeyEquality (all_eq_true.1 hkeys.2 k hk), ?_, rfl, rfl, rfl⟩
      · obtain ⟨keys, hc⟩ := exists_conjunction (isEmpty_eq_false_iff.1 hkeys.1)
        exact ⟨keys, hc, by rw [hc]; rfl⟩
      · cases conjunction ((conjuncts predicate).filter fun p => !p.mentions outer.name) <;> rfl
    · cases h
  · cases h

/-- A call of `SelectMany` with a lambda of one parameter, and a result lambda or none. -/
def Flattens (e source : Expr) (outer : Param) (body : Expr) (result : Option Expr) : Prop :=
  Operator.ofCall? e = some .selectMany ∧ ∃ (method : Method) (collection : Expr) (ty : Ty),
    e = .call method none (source :: collection :: result.toList) ty ∧ collection.asLambda? = some ([outer], body)

/-- A plan is a cross join with a query that does not mention the outer row, or comes from a filter. -/
theorem classify_eq_some {plan : JoinPlan} (h : classify e = some plan) :
    ∃ source outer body result, Flattens e source outer body result ∧
      ((body.mentions outer.name = false ∧ plan = ⟨source, body, none, result, .cross⟩) ∨
        classifyFiltered source result outer body = some plan) := by
  unfold classify at h
  split at h
  · next method receiver source collection rest ty hop =>
    obtain rfl := Operator.receiver_eq_none hop
    split at h
    · cases h
    next hrest =>
    simp only [Option.bind_eq_bind, Option.bind_eq_some_iff] at h
    obtain ⟨⟨params, body⟩, hlambda, h⟩ := h
    have hresult : rest.head?.toList = rest := by
      match rest with
      | [] | [_] => rfl
      | _ :: _ :: _ => simp at hrest
    split at h
    · next outer body' hparts =>
      obtain ⟨rfl, rfl⟩ := Prod.mk.inj hparts
      refine ⟨source, outer, body, rest.head?, ⟨hop, method, collection, ty, by rw [hresult], hlambda⟩, ?_⟩
      split at h
      · exact .inr h
      · next hbody =>
        split at h
        · exact .inl ⟨by simpa using hbody, (Option.some.inj h).symm⟩
        · cases h
    · cases h
  · cases h

/-! ## Plans and their readings -/

section

variable {V : Type} {R : Expr.Interpretation V} {σ : String → V}

theorem rows_filteredBy (hmethod : Operator.ofMethod? method = some .filter) (ty : Ty)
    (query : Expr) (inner : Param) (left : Option Expr) : R.rows (filteredBy method ty query inner left) σ =
      (R.rows query σ).filter fun y => R.truthOf (update σ inner.name y) left == some true := by
  cases left with
  | none => exact (filter_eq_self.2 fun _ _ => rfl).symm
  | some c => exact R.rows_filter method query _ ty inner c σ hmethod rfl

theorem mentions_filteredBy {ty : Ty} {query : Expr} {inner : Param} {left : Option Expr}
    (hquery : query.mentions x = false) (hleft : ∀ c ∈ left, c.mentions x = false) :
    (filteredBy method ty query inner left).mentions x = false := by
  cases left with
  | none => exact hquery
  | some c =>
    have hlambda : (Expr.lambda [inner] c).quoted.mentions x = c.mentions x := Expr.mentions_of_asLambda? rfl x
    simp [filteredBy, hquery, hlambda, hleft c rfl]

/-- A condition is as true as the conjuncts that mention a parameter together with the others. What the
others say does not depend on that parameter. -/
theorem truth_eq_split {predicate : Expr} (hne : inner ≠ outer) (x y : V) :
    R.truth predicate (update (update σ outer x) inner y) = conjoin
        (R.truthOf (update (update σ outer x) inner y)
          (conjunction ((conjuncts predicate).filter (·.mentions outer)))) (R.truthOf (update σ inner y)
          (conjunction ((conjuncts predicate).filter fun p => !p.mentions outer))) := by
  rw [R.truth_eq_conjuncts, R.truthOfAll_eq_filter (·.mentions outer), ← R.truthOf_conjunction,
    ← R.truthOf_conjunction, Function.update_comm hne.symm]
  congr 1
  cases hc : conjunction ((conjuncts predicate).filter fun p => !p.mentions outer) with
  | none => rfl
  | some c =>
    refine R.truth_update ?_ x
    rw [mentions_conjunction outer c hc]
    simp

end

/-- **A plan keeps the meaning of its `SelectMany`.** The child of the plan does not mention the outer row.
The condition of an inner join is a lambda over the outer and the inner row whose conjuncts are key
equalities, and the condition of the filter is at every pair of rows as true as that condition there and
the filter that is left on the child together. So a plan joins the pairs that the `SelectMany` flattens.

**Proof sketch.** The conjuncts of the filter are taken apart by whether they mention the outer row. The
ones that do not have the same truth value whatever the outer row is, and a pair is kept by a conjunction
if it is kept by both parts. -/
theorem classify_faithful {V : Type} (R : Expr.Interpretation V) {e : Expr} {plan : JoinPlan}
    (h : classify e = some plan) : ∃ outer body, Flattens e plan.source outer body plan.result ∧
      plan.child.mentions outer.name = false ∧ (plan.join = .cross → plan.condition = none ∧ plan.child = body) ∧
      (plan.join = .inner → ∃ method query inner predicate ty keys left,
        Filters body method query inner predicate ty ∧ inner.name ≠ outer.name ∧
        plan.condition = some (Expr.lambda [outer, inner] keys).quoted ∧
        plan.child = filteredBy method ty query inner left ∧
        (∀ k ∈ conjuncts keys, KeyEquality outer.name inner.name k) ∧ ∀ (σ : String → V) (x y : V),
          R.truth predicate (update (update σ outer.name x) inner.name y) =
            conjoin (R.truth keys (update (update σ outer.name x) inner.name y))
              (R.truthOf (update σ inner.name y) left)) ∧
      ∀ σ : String → V, R.joined σ plan = R.flattened σ plan.source outer body := by
  obtain ⟨source, outer, body, result, hflat, ⟨hbody, rfl⟩ | hplan⟩ := classify_eq_some h
  · refine ⟨outer, body, hflat, hbody, fun _ => ⟨rfl, rfl⟩, nofun, fun σ => ?_⟩
    refine flatMap_congr fun x _ => ?_
    rw [R.rows_update hbody]
    exact congrArg _ (filter_eq_self.2 fun _ _ => rfl)
  · obtain ⟨method, query, inner, predicate, ty, hfilters, hquery, hne, ⟨keys, hkeys, hcondition⟩, hequal, hchild,
      rfl, rfl, hjoin⟩ := classifyFiltered_eq_some hplan
    have hsplit : ∀ (σ : String → V) (x y : V),
        R.truth predicate (update (update σ outer.name x) inner.name y) =
          conjoin (R.truth keys (update (update σ outer.name x) inner.name y))
            (R.truthOf (update σ inner.name y)
              (conjunction ((conjuncts predicate).filter fun p => !p.mentions outer.name))) := by
      intro σ x y
      rw [truth_eq_split hne, hkeys]
      rfl
    refine ⟨outer, body, hflat, ?_, fun hcross => ?_, fun _ => ?_, fun σ => ?_⟩
    · rw [hchild]
      refine mentions_filteredBy hquery fun c hc => ?_
      rw [mentions_conjunction outer.name c hc]
      simp
    · rw [hjoin] at hcross
      cases hcross
    · refine ⟨method, query, inner, predicate, ty, keys, _, hfilters, hne, hcondition, hchild, fun k hk => ?_, hsplit⟩
      rw [conjuncts_conjunction (fun k hk => (hequal k hk).conjuncts) keys hkeys] at hk
      exact hequal k hk
    · obtain ⟨hoperator, condition, rfl, hlambda⟩ := hfilters
      refine flatMap_congr fun x _ => ?_
      rw [hchild, hcondition, rows_filteredBy hoperator, filter_filter,
        R.rows_filter _ _ _ _ _ _ _ hoperator hlambda, R.rows_update hquery]
      -- Both lists keep rows of the filtered query, so it is enough to compare the tests.
      refine congrArg _ (filter_congr fun y _ => ?_)
      rw [hsplit, Bool.eq_iff_iff, Bool.and_eq_true, beq_iff_eq, beq_iff_eq, conjoin_eq_true]
      exact and_congr_left fun _ => beq_iff_eq

end Desugar

/-! ## A join of students with their enrollments -/

namespace Sample

variable {e : Expr} {σ τ : String → Row}

/-- A row of the sample: whole numbers by column. -/
abbrev Row := List (String × Int)

/-- The rows of two tables. -/
def contents : String → List Row
  | "Student" => [[("StudentId", 1)], [("StudentId", 2)], [("StudentId", 3)]]
  | "Enrollment" => [[("StudentId", 1), ("Grade", 4)], [("StudentId", 2), ("Grade", 1)], [("StudentId", 1)],
      [("StudentId", 3), ("Grade", 3)], [("StudentId", 1), ("Grade", 5)]]
  | _ => []

/-- The value of a column of a parameter or of a number; null has none. -/
def column (σ : String → Row) : Expr → Option Int
  | .member (some (.parameter p)) name _ => (σ p.name).lookup name
  | .constant (.int n) _ => some n
  | _ => none

/-- The truth value of conjunctions and comparisons. -/
def truth (σ : String → Row) : Expr → Option Bool
  | .binary .andAlso left right _ => conjoin (truth σ left) (truth σ right)
  | .binary .equal left right _ => do return (← column σ left) == (← column σ right)
  | .binary .lessThan left right _ => do return decide ((← column σ left) < (← column σ right))
  | _ => none

/-- The rows of tables and of filters of them. -/
def rows (σ : String → Row) : Expr → List Row
  | .constant (.table entity) _ => contents entity
  | .call method none [query, condition] _ =>
    match Operator.ofMethod? method, condition.asLambda? with
    | some .filter, some ([p], predicate) =>
      (rows σ query).filter fun y => truth (update σ p.name y) predicate == some true
    | _, _ => []
  | _ => []

section

variable (h : ∀ x, e.mentions x = true → σ x = τ x)

include h

theorem column_congr : column σ e = column τ e := by
  fun_cases column σ e with
  | case1 p name ty =>
    have hp : σ p.name = τ p.name := h p.name (by
      rw [Expr.mentions_eq, Expr.children, Option.toList_some, any_cons, Expr.mentions_eq]
      simp [Expr.isParameter])
    rw [column, hp]
  | case2 => rfl
  | case3 => simp_all [column]

theorem truth_congr : truth σ e = truth τ e := by
  have hside : ∀ {op : BinaryOp} {left right : Expr} {ty : Ty},
      (∀ x, (Expr.binary op left right ty).mentions x = true → σ x = τ x) →
        (∀ x, left.mentions x = true → σ x = τ x) ∧ (∀ x, right.mentions x = true → σ x = τ x) := by
    intro op left right ty h
    exact ⟨fun x hx => h x (by simp [hx]), fun x hx => h x (by simp [hx])⟩
  fun_induction truth σ e with
  | case1 left right ty ihleft ihright =>
    rw [truth, ihleft (hside h).1, ihright (hside h).2]
  | case2 left right ty => rw [truth, column_congr (hside h).1, column_congr (hside h).2]
  | case3 left right ty => rw [truth, column_congr (hside h).1, column_congr (hside h).2]
  | case4 => simp_all [truth]

theorem rows_congr : rows σ e = rows τ e := by
  fun_induction rows σ e with
  | case1 => rfl
  | case2 method query condition ty p predicate hlambda hop ih =>
    have hpredicate : ∀ y, truth (update σ p.name y) predicate =
        truth (update τ p.name y) predicate := by
      refine fun y => truth_congr fun x hx => ?_
      have hσ : σ x = τ x := h x (by simp [Expr.mentions_of_asLambda? hlambda, hx])
      simp only [Function.update_apply, hσ]
    rw [rows, hop, hlambda, ih fun x hx => h x (by simp [hx])]
    simp only [hpredicate]
  | case3 method query condition ty hnone =>
    rw [rows]
    split
    · next p predicate hop hlambda => exact absurd hlambda (hnone p predicate hop)
    · rfl
  | case4 => simp_all [rows]

end

/-- The rows of the sample as a reading of expressions. -/
def interpretation : Expr.Interpretation Row where
  truth e σ := truth σ e
  rows e σ := rows σ e
  truth_andAlso _ _ _ _ := rfl
  rows_filter method query condition ty param predicate σ hop hlambda := by rw [rows, hop, hlambda]
  truth_congr _ _ _ := truth_congr
  rows_congr _ _ _ := rows_congr

/-- The enrollments of each student with a grade above two. The condition of the grade stays on the
enrollments. -/
def passed : Expr :=
  ((Query.ofEntity "Student").selectMany "s" (.entity "Enrollment") fun s =>
    ((Query.ofEntity "Enrollment").filter "e" fun e =>
      .binaryOf .andAlso (.binaryOf .lessThan (.constantOf (.int 2)) (e.memberOf "Grade" .unknown))
        (.binaryOf .equal (e.memberOf "StudentId" .unknown) (s.memberOf "StudentId" .unknown))).expr).expr

/-- The students join with the enrollments of their number, of which only those with a grade above two
are taken. -/
theorem passed_faithful : ∃ plan outer body, Desugar.classify passed = some plan ∧ plan.join = .inner ∧
    Desugar.Flattens passed plan.source outer body plan.result ∧ plan.child.mentions outer.name = false ∧
    ∀ σ, interpretation.joined σ plan = interpretation.flattened σ plan.source outer body ∧
      interpretation.joined σ plan =
        [([("StudentId", 1)], [("StudentId", 1), ("Grade", 4)]),
          ([("StudentId", 1)], [("StudentId", 1), ("Grade", 5)]),
          ([("StudentId", 3)], [("StudentId", 3), ("Grade", 3)])] := by
  obtain ⟨plan, hplan⟩ : ∃ plan, Desugar.classify passed = some plan := ⟨_, rfl⟩
  obtain ⟨outer, body, hflat, hchild, -, -, hjoined⟩ := Desugar.classify_faithful interpretation hplan
  refine ⟨plan, outer, body, hplan, ?_, hflat, hchild, fun σ => ⟨hjoined σ, ?_⟩⟩
  · obtain rfl := Option.some.inj hplan
    rfl
  · obtain rfl := Option.some.inj hplan
    rfl

end Sample

end QueryLowering
