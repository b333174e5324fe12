import QueryLowering.Proofs.Aliases
import QueryLowering.Proofs.Composition

/-!
# Aggregates without a selector

The sum, the least, the greatest and the average of the rows of a query are computed from the projection of
its select. A select that reads a closed one has no projection, also where the closed one has one column and its
rows are single values. So a chain of operators has an aggregate only if a projection comes last and
no rows were counted before it.

An aggregate of a group is a value wherever the group is in view. A query inside a projection of groups may compare
its rows with one, and has it in its condition on rows then.

## Main results

* `Sql.Select.Built.aggregates_iff`: the chains that leave a projection to an aggregate.
* `aggregate_lowered_iff`: the aggregates of chains whose rows are single values.
* `row_conditions_may_aggregate`: aggregates in conditions on rows.
-/

namespace QueryLowering

open Sql Lower

variable {f : AggregateFunction} {op : Operator} {s s' ready grown : Select} {ops : List Operator} {schema : Schema}
variable {cx cx' opened : Context} {q : Expr} {n : Node}

namespace Sql.Select

/-! ## Projections of chains -/

theorem Readied.groupBy_eq_none {o : Operation} (h : s.Readied o ready) (hs : s.groupBy = none) :
    ready.groupBy = none := by
  cases h with
  | asIs => exact hs
  | wrapped => rfl

theorem GrownTo.groupBy_eq (h : s.GrownTo s') : s'.groupBy = s.groupBy := by
  obtain ⟨more, rfl, -⟩ := h
  rfl

theorem groupBy_project (s : Select) (n : Node) : (s.project n).groupBy = s.groupBy := by
  unfold project
  split <;> rfl

theorem groupBy_addFilter (s : Select) (n : Node) : (s.addFilter n).groupBy = s.groupBy := by
  unfold addFilter
  split <;> rfl

theorem projection_addFilter (s : Select) (n : Node) : (s.addFilter n).projection = s.projection := by
  unfold addFilter
  split <;> rfl

/-- Only a grouping makes groups. -/
theorem Applies.groupBy_eq_none (h : s.Applies op s') (hop : op ≠ .groupBy) (hs : s.groupBy = none) :
    s'.groupBy = none := by
  cases h with
  | filter hready hgrown =>
    rw [groupBy_addFilter]
    exact hgrown.groupBy_eq.trans (hready.groupBy_eq_none hs)
  | select hready hgrown =>
    rw [groupBy_project]
    exact hgrown.groupBy_eq.trans (hready.groupBy_eq_none hs)
  | groupBy => exact absurd rfl hop
  | distinct hready hgrown | skip hready hgrown | take hready hgrown =>
    exact hgrown.groupBy_eq.trans (hready.groupBy_eq_none hs)

theorem Built.groupBy_eq_none (h : Built ops s) (hgroup : Operator.groupBy ∉ ops) : s.groupBy = none := by
  induction h with
  | table => rfl
  | call _ hs' ih =>
    rw [List.mem_cons, not_or] at hgroup
    exact hs'.groupBy_eq_none (Ne.symm hgroup.1) (ih hgroup.2)

theorem isMultiColumn_of_isReference (h : n.isReference = true) : n.isMultiColumn = true := by
  cases n <;> first | rfl | cases h

/-- What a filter of an ungrouped select leaves as its projection stands for whole rows. -/
theorem Applies.isReference_of_filter (h : s.Applies .filter s') (hs : s.groupBy = none) {p : Node}
    (hp : s'.projection = some p) : p.isReference = true := by
  cases h with
  | @filter ready grown hready hgrown n =>
    have hnone := hready.groupBy_eq_none hs
    have hwrap := hready.needsWrap_eq
    obtain ⟨more, rfl, -⟩ := hgrown
    rw [projection_addFilter] at hp
    replace hp : ready.projection = some p := hp
    simp only [needsWrap, isGrouped, hnone, changesShape, hp, Bool.or_eq_false_iff] at hwrap
    simpa using hwrap.2

theorem Applies.projection_isSome_of_select (h : s.Applies .select s') (hs : s.groupBy = none) :
    s'.projection.isSome = true := by
  cases h with
  | select hready hgrown =>
    have hnone := hgrown.groupBy_eq.trans (hready.groupBy_eq_none hs)
    simp [project, isGrouped, hnone]

/-- Where the rows of a chain without groups are single values, an aggregate meets a projection exactly if one comes
last and no rows were counted before it. -/
theorem Built.aggregates_iff (h : Built ops s) (hgroup : Operator.groupBy ∉ ops) {sc : Scope}
    (hvalue : (s.currentShape sc).isMultiColumn = false) : s.needsWrap .aggregate = false ∧ s.projection.isSome = true ↔
      ops.head? = some .select ∧ (Paging.ofChain ops).skip = false ∧ (Paging.ofChain ops).top = false := by
  have hnone := h.groupBy_eq_none hgroup
  have hpaging := h.paging_eq
  simp only [← hpaging, paging, needsWrap, isPaged, isGrouped, hnone]
  cases h with
  | table => simp [empty]
  | @call op ops before _ hs hs' =>
    have hbefore : before.groupBy = none := hs.groupBy_eq_none fun hmem => hgroup (List.mem_cons_of_mem _ hmem)
    cases op with
    | filter =>
      have hprojection : s.projection = none := by
        by_contra hsome
        obtain ⟨p, hp⟩ := Option.ne_none_iff_exists'.1 hsome
        have hmulti := isMultiColumn_of_isReference (hs'.isReference_of_filter hbefore hp)
        simp only [currentShape, hp] at hvalue
        rw [hvalue] at hmulti
        cases hmulti
      simp [hprojection]
    | select =>
      have hdistinct : s.distinct = false := by
        refine (congrArg Paging.distinct hpaging).trans ?_
        simp only [Paging.ofChain, Paging.after]
        split
        · rfl
        · exact Bool.eq_false_iff.2 ‹_›
      simp [hs'.projection_isSome_of_select hbefore, hdistinct, and_comm]
    | groupBy => exact absurd List.mem_cons_self hgroup
    | distinct | skip | take =>
      cases hs'
      simp
    | _ => cases hs'

end Sql.Select

/-! ## Aggregates at the root -/

/-- Where rows are not counted, an aggregate without a selector is computed from a projection of one column. -/
theorem aggregateRows_eq_ok_iff (hf : aggregateFunction? op = some f) (hcount : isCount f = false) :
    aggregateRows op s none = .ok s' ↔ ∃ p, s.projection = some p ∧ p.isMultiColumn = false ∧
      s' = { s with orderBy := [], projection := some (.aggregate f (some p)) } := by
  simp only [aggregateRows, hf, Option.getD_some, hcount, Bool.false_eq_true, ↓reduceIte, aggregateArgument]
  cases hp : s.projection with
  | none => simp
  | some p =>
    cases hmulti : p.isMultiColumn with
    | false => simp [hmulti, eq_comm (a := s')]
    | true => simpa [hmulti] using fun h => by cases h

/-- An aggregate is a step, or else one of what is typed as a group. -/
theorem rule_aggregate {method : Method}
    (hmethod : Operator.ofMethod? method = some op) (hf : aggregateFunction? op = some f) (q : Expr) (ty : Ty) :
    Expr.rule? (.call method none [q] ty) =
      some (if q.ty.isGrouping then .groupAggregate op else .step (.aggregate op)) := by
  have haggregate : op.isAggregate = true ∧ op ≠ .contains ∧ operatorRule? op 1 = some (.step (.aggregate op)) := by
    cases op <;> first | exact ⟨rfl, by decide, rfl⟩ | cases hf
  obtain ⟨hop, hcontains, hrule⟩ := haggregate
  cases hgrouping : q.ty.isGrouping with
  | false =>
    have hgroup : groupRule? (.call method none [q] ty) = none := by
      rw [groupRule?, hmethod]
      exact if_neg fun h => Bool.eq_false_iff.1 hgrouping h.2
    exact rule_operator hmethod hcontains hgroup hrule
  | true =>
    have hgroup : groupRule? (.call method none [q] ty) = some (.groupAggregate op) := by
      rw [groupRule?, hmethod]
      exact if_pos ⟨.inl hop, hgrouping⟩
    exact rule_group hgroup

/-- An aggregate at the root that no operator goes on with is computed from the projection of the select, unless that
select has to be closed. -/
theorem yields_aggregate_iff {e : Expr} (hrule : e.rule? = some (.step (.aggregate op))) (hchildren : e.children = [q])
    (hf : aggregateFunction? op = some f) (hcount : isCount f = false)
    (hs : Yields schema (selectOf q none) .empty s opened) : (∃ cx', Yields schema (e.run true none) .empty n cx') ↔
      s.needsWrap .aggregate = false ∧ ∃ p, s.projection = some p ∧ p.isMultiColumn = false ∧
        n = .select { s with orderBy := [], projection := some (.aggregate f (some p)) } := by
  simp only [yields_wholeQuery_iff hrule hchildren, Step.finish, yields_bind, yields_ofResult, yields_pure]
  constructor
  · rintro ⟨_, s', opened', ready, sc, after, hs', hprepare, ⟨result, _, ⟨hresult, -⟩, rfl, -⟩, -⟩
    obtain ⟨rfl, rfl⟩ := hs.unique hs'
    obtain ⟨p, hp, hmulti, rfl⟩ := (aggregateRows_eq_ok_iff hf hcount).1 hresult
    cases Select.readied_of_prepare hprepare with
    | asIs hwrap => exact ⟨hwrap, p, hp, hmulti, rfl⟩
    | wrapped => cases hp
  · rintro ⟨hwrap, p, hp, hmulti, rfl⟩
    have hprepare : s.prepare schema (Step.aggregate op).operation opened.scope = .ok (s, opened.scope) := by
      simp [Select.prepare, Select.checkModifiable, Step.operation, hwrap]
    exact ⟨_, s, opened, s, _, _, hs, hprepare,
      ⟨_, _, ⟨(aggregateRows_eq_ok_iff hf hcount).2 ⟨p, hp, hmulti, rfl⟩, rfl⟩, rfl, rfl⟩, rfl⟩

/-- A select of one aggregate can be closed. -/
theorem yields_closeQuery_aggregate (s : Select) (f : AggregateFunction) (p : Option Node) (cx : Context) :
    ∃ d cx', Yields schema (closeQuery (.select { s with orderBy := [], projection := some (.aggregate f p) })) cx
      (.derived d) cx' := by
  have hclose : ∃ d sc, ({ s with orderBy := [], projection := some (.aggregate f p) } : Select).close schema cx.scope =
      .ok (d, sc) := by
    simp [Select.close, Select.withKeyProjection, Select.currentShape, Scope.flatten]
  obtain ⟨d, sc, hd⟩ := hclose
  simp only [closeQuery, closeSelect, yields_bind, yields_attempt, yields_pure]
  exact ⟨d, _, d, _, ⟨sc, hd, rfl⟩, rfl, rfl⟩

/-- **Aggregates without a selector.** The rows of a chain of filters, projections, pages and removals of duplicates may
be single values, but the chain has a sum, a least, a greatest and an average only if a projection comes last and no
rows were counted before it. Each of them is computed from the value of a row. -/
theorem aggregate_lowered_iff (hq : q.Composed ops) (hgroup : Operator.groupBy ∉ ops)
    (hs : Yields schema (selectOf q none) .empty s opened)
    (hvalue : (s.currentShape opened.scope).isMultiColumn = false) {method : Method} {op : Operator}
    (hmethod : Operator.ofMethod? method = some op) {f : AggregateFunction} (hf : aggregateFunction? op = some f)
    (hcount : isCount f = false) (ty : Ty) :
    let lowered := (Expr.call method none [q] ty).lower Recognizer.standard
    (∀ n cx', Yields schema lowered .empty n cx' → ∃ d, n = .derived d ∧ d.select = { s with
        orderBy := []
        projection := some (.aggregate f (some (s.currentShape opened.scope))) }) ∧
    ((∃ n cx', Yields schema lowered .empty n cx') ↔ q.ty.isGrouping = false ∧ ops.head? = some .select ∧
      (Paging.ofChain ops).skip = false ∧ (Paging.ofChain ops).top = false) := by
  intro lowered
  have hrule := rule_aggregate hmethod hf q ty
  obtain ⟨m, mid, hm, hopen⟩ := yields_selectOf hs
  have haggregates := (hq.built ⟨[], rfl⟩ hm hopen).aggregates_iff hgroup hvalue
  have hshape : ∀ p, s.projection = some p → s.currentShape opened.scope = p := fun p hp => by
    rw [Select.currentShape, hp]
  cases hgrouping : q.ty.isGrouping with
  | true =>
    rw [hgrouping] at hrule
    have hnot : ∀ n cx', ¬ Yields schema lowered .empty n cx' := fun n cx' =>
      not_yields_groupAggregate hrule rfl fun _ _ _ hm => hq.not_grouping hm
    exact ⟨fun n cx' hy => absurd hy (hnot n cx'), by simp [hnot]⟩
  | false =>
    rw [hgrouping] at hrule
    have hyields := fun n => yields_aggregate_iff (n := n) hrule rfl hf hcount hs
    refine ⟨fun n cx' hy => ?_, ?_⟩
    · obtain ⟨s', d, mid, hm, rfl, hd⟩ := exists_closed_of_yields hrule rfl hy
      obtain ⟨-, p, hp, -, hs'⟩ := (hyields _).1 ⟨mid, hm⟩
      refine ⟨d, rfl, ?_⟩
      rw [hd, Node.select.inj hs', hshape p hp]
      rfl
    · rw [← haggregates, eq_self, true_and]
      constructor
      · rintro ⟨n, cx', hy⟩
        obtain ⟨s', d, mid, hm, -⟩ := exists_closed_of_yields hrule rfl hy
        obtain ⟨hwrap, p, hp, -⟩ := (hyields _).1 ⟨mid, hm⟩
        exact ⟨hwrap, hp ▸ rfl⟩
      · rintro ⟨hwrap, hsome⟩
        obtain ⟨p, hp⟩ := Option.isSome_iff_exists.1 hsome
        obtain ⟨mid, hm⟩ := (hyields _).2 ⟨hwrap, p, hp, hshape p hp ▸ hvalue, rfl⟩
        obtain ⟨d, cx', hclose⟩ := yields_closeQuery_aggregate s f (some p) mid
        exact ⟨_, cx', (yields_closed_iff hrule rfl).2 ⟨_, mid, hm, hclose⟩⟩

namespace Sample

/-- The ages of students. -/
def ages : Query := (Query.ofEntity "Student").select "x" .int (·.memberOf "Age" .int)

def sumOf (q : Query) : Expr := .call ⟨"Queryable", "Sum", []⟩ none [q.expr] .int

theorem composed_ages : ages.expr.Composed [.select] := .call _ (.table (.constant _)) rfl (by decide)

theorem composed_distinctAges : ages.distinct.expr.Composed [.distinct, .select] :=
  .call _ composed_ages rfl (by decide)

/-- Whether the rows of a query are single values. -/
def singleValued (q : Query) : Bool :=
  match (selectOf q.expr none).exec studentSchema .empty with
  | (.ok s, opened) => !(s.currentShape opened.scope).isMultiColumn
  | _ => false

theorem exists_of_singleValued {q : Query} (h : singleValued q = true) :
    ∃ s opened, Yields studentSchema (selectOf q.expr none) .empty s opened ∧
      (s.currentShape opened.scope).isMultiColumn = false := by
  unfold singleValued at h
  split at h
  · next s opened hs => exact ⟨s, opened, hs, by simpa using h⟩
  · cases h

/-- The ages of students have a sum; without duplicates they have none. -/
theorem ages_sum : (∃ n cx', Yields studentSchema ((sumOf ages).lower Recognizer.standard) .empty n cx') ∧
      singleValued ages.distinct = true ∧
        ¬ ∃ n cx', Yields studentSchema ((sumOf ages.distinct).lower Recognizer.standard) .empty n cx' := by
  have hages : singleValued ages = true := by decide +kernel
  have hdistinct : singleValued ages.distinct = true := by decide +kernel
  obtain ⟨s, opened, hs, hvalue⟩ := exists_of_singleValued hages
  obtain ⟨s', opened', hs', hvalue'⟩ := exists_of_singleValued hdistinct
  have hmethod : Operator.ofMethod? ⟨"Queryable", "Sum", []⟩ = some .sum := rfl
  have hsum := aggregate_lowered_iff composed_ages (by decide) hs hvalue hmethod rfl rfl .int
  have hsum' := aggregate_lowered_iff composed_distinctAges (by decide) hs' hvalue' hmethod rfl rfl .int
  refine ⟨hsum.2.2 ⟨rfl, rfl, rfl, rfl⟩, hdistinct, fun h => ?_⟩
  obtain ⟨-, hlast, -⟩ := hsum'.2.1 h
  cases hlast

end Sample

/-! ## Conditions on rows -/

/-- The functions of the aggregates of a node outside the queries in it. -/
def Sql.aggregateCalls : Harvest AggregateFunction where
  node
    | .aggregate f _ => some [f]
    | n => if (blocksOf? n).isSome then some [] else none

/-- The conditions on the rows of a select: its filter and the conditions of its joins. -/
def Sql.Select.rowConditions (s : Select) : List Node :=
  s.filter.toList ++ s.sources.flatMap fun d => (d.join.bind (·.condition)).toList

namespace Sample

/-- A schema of students and courses. -/
def courseSchema : Schema := ⟨[student.toEntity, course.toEntity]⟩

/-- The number of students of a group, or another aggregate of their ages. -/
def ofGroup (g : Expr) : AggregateFunction → Expr
  | .count => call "Count" []
  | .countBig => call "LongCount" []
  | .sum => call "Sum" [age]
  | .min => call "Min" [age]
  | .max => call "Max" [age]
  | .avg => call "Average" [age]
where
  age : Expr := Query.lambda1 ⟨"s", .entity "Student"⟩ (·.memberOf "Age" .int)
  call (name : String) (args : List Expr) : Expr := .staticCall "Queryable" name (g :: args) .int

/-- The courses of students, each with the number of courses whose key is an aggregate of its students. -/
def matchedCourses (f : AggregateFunction) : Expr :=
  let byCourse := (Query.ofEntity "Student").groupBy "x" .int (·.memberOf "CourseId" .int)
  let matched (g : Expr) : Query := (Query.ofEntity "Course").filter "c" fun c =>
    .binaryOf .equal (c.memberOf "CourseId" .int) (ofGroup g f)
  (byCourse.select "g" .anonymous fun g =>
    .construct .anonymous [("K", g.memberOf "Key" .int), ("N", (matched g).result "Count" [] .int)]).expr

/-- **Aggregates in conditions on rows.** Whatever the options are, none of the aggregate functions is kept out of the
conditions on rows, outside the queries in them, of all selects of all statements.

**Proof sketch.** The query inside `matchedCourses` is filtered while the group is in view. Its select has no groups of
its own, so that the condition becomes one on rows. -/
theorem row_conditions_may_aggregate (options : Options) (f : AggregateFunction) : ¬ ∀ (e : Expr) (s : Statement),
    ({ schema := courseSchema, options } : Compiler).statement e = .ok s → ∀ b : Block, s.Contains b →
      ∀ n ∈ b.select.rowConditions, f ∉ n.harvest aggregateCalls := by
  have hrun : ∀ preprocess hoistCtes : Bool, ∃ s,
      ({ schema := courseSchema, options := { preprocess, hoistCtes } } : Compiler).statement (matchedCourses f) = .ok s ∧
      ∃ b ∈ s.body.block.inner, ∃ n ∈ b.select.rowConditions, f ∈ n.harvest aggregateCalls := by
    intro preprocess hoistCtes
    cases preprocess <;> cases hoistCtes <;> cases f <;> exact Result.exists_ok (by decide +kernel)
  -- The dialect makes no difference before the statement is written.
  obtain ⟨s, hs, b, hb, n, hn, haggregate⟩ := hrun options.preprocess options.hoistCtes
  exact fun hall => hall _ s hs b (.inner .body hb) n hn haggregate

end Sample

end QueryLowering
