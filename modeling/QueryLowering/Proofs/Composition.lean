import QueryLowering.Proofs.JoinCalls

/-!
# Chains of operators and their selects

Filters, projections, groupings and operators that drop or count rows are composed over a table. Each of
them changes one clause of the select before it, which is closed first where the clauses do not go together.
So the operators alone say which of the clauses that drop or count rows the select has in the end.

## Main results

* `Expr.Composed.built`: the select of a chain.
* `Sql.Select.Built.paging_eq`: its clauses that drop or count rows.
* `yields_wholeQuery_iff`: operators without further arguments.
-/

namespace QueryLowering

open Sql Lower

variable {s s' ready grown : Select} {op : Operator} {ops : List Operator} {schema : Schema}
variable {cx cx' mid opened : Context} {e source : Expr} {args : List Expr} {method : Method} {st : Step}
variable {index : Option Nat} {n : Node}

/-- The operators that chains are composed of. -/
def Operator.composing : List Operator := [.filter, .select, .groupBy, .distinct, .skip, .take]

/-- A chain of operators over the table of an entity. The last operator comes first. -/
inductive Expr.Composed : Expr → List Operator → Prop
  | table {e : Expr} {entity : String} (he : e.IsTable entity) : Composed e []
  | call {method : Method} {source : Expr} {args : List Expr} {op : Operator} {ops : List Operator} (ty : Ty)
      (hsource : Composed source ops) (hmethod : Operator.ofMethod? method = some op)
      (hop : op ∈ Operator.composing) : Composed (.call method none (source :: args) ty) (op :: ops)

namespace Sql.Select

/-- What an operator makes of a select: it is made ready, the arguments may add navigations to it, and a clause is
changed. -/
inductive Applies (s : Select) : Operator → Select → Prop
  | filter {ready grown : Select} (hready : s.Readied .filter ready) (hgrown : ready.GrownTo grown) (condition : Node) :
      s.Applies .filter (grown.addFilter condition)
  | select {ready grown : Select} (hready : s.Readied .projection ready) (hgrown : ready.GrownTo grown) (value : Node) :
      s.Applies .select (grown.project value)
  | groupBy {ready grown : Select} (hready : s.Readied .groupBy ready) (hgrown : ready.GrownTo grown)
      (key element : Node) : s.Applies .groupBy (({ grown with projection := none }).group key element)
  | distinct {ready grown : Select} (hready : s.Readied .distinct ready) (hgrown : ready.GrownTo grown) :
      s.Applies .distinct { grown with distinct := true }
  | skip {ready grown : Select} (hready : s.Readied .skip ready) (hgrown : ready.GrownTo grown) (count : Node) :
      s.Applies .skip { grown with skip := some count }
  | take {ready grown : Select} (hready : s.Readied .take ready) (hgrown : ready.GrownTo grown) (count : Node) :
      s.Applies .take { grown with top := some count }

/-- What a chain of operators makes of a table. -/
inductive Built : List Operator → Select → Prop
  | table (a : Alias) (t : Table) : Built [] { Select.empty with sources := [⟨a, .table t, none, none⟩] }
  | call {op : Operator} {ops : List Operator} {s s' : Select} (hs : Built ops s) (hs' : s.Applies op s') :
      Built (op :: ops) s'

end Sql.Select

/-! ## The clauses that drop or count rows -/

/-- Which of the clauses that drop or count rows a select has. -/
structure Paging where
  distinct : Bool := false
  skip : Bool := false
  top : Bool := false
deriving DecidableEq, Repr

namespace Paging

/-- What an operator leaves of the clauses. A filter and a grouping close a select that has any of them, a projection
closes one without duplicates, and no other operator comes behind a limit. -/
def after (p : Paging) : Operator → Paging
  | .select => if p.distinct then {} else p
  | .distinct => { distinct := true }
  | .skip => if p.skip || p.top then { skip := true } else { p with skip := true }
  | .take => if p.top then { top := true } else { p with top := true }
  | _ => {}

/-- The clauses that the operators of a chain leave. -/
def ofChain : List Operator → Paging
  | [] => {}
  | op :: ops => (ofChain ops).after op

end Paging

namespace Sql.Select

/-- The clauses of a select that drop or count rows. -/
def paging (s : Select) : Paging := ⟨s.distinct, s.skip.isSome, s.top.isSome⟩

theorem paging_addFilter (s : Select) (n : Node) : (s.addFilter n).paging = s.paging := by
  unfold addFilter
  split <;> rfl

theorem paging_project (s : Select) (n : Node) : (s.project n).paging = s.paging := by
  unfold project
  split <;> rfl

theorem GrownTo.paging_eq (h : s.GrownTo s') : s'.paging = s.paging := by
  obtain ⟨more, rfl, -⟩ := h
  rfl

theorem paging_eq_empty (hpaged : s.isPaged = false) (hdistinct : s.distinct = false) : s.paging = {} := by
  obtain ⟨htop, hskip⟩ := Bool.or_eq_false_iff.1 hpaged
  rw [paging, htop, hskip, hdistinct]

/-- What an operator leaves of the clauses. -/
theorem Applies.paging_eq (h : s.Applies op s') : s'.paging = s.paging.after op := by
  cases h with
  | filter hready hgrown =>
    have hwrap := hready.needsWrap_eq
    simp only [needsWrap, Bool.or_eq_false_iff] at hwrap
    rw [paging_addFilter, hgrown.paging_eq, paging_eq_empty hwrap.1.1.1 hwrap.1.1.2]
    rfl
  | groupBy hready hgrown =>
    have hwrap := hready.needsWrap_eq
    simp only [needsWrap, Bool.or_eq_false_iff] at hwrap
    exact hgrown.paging_eq.trans (paging_eq_empty hwrap.1.1.1 hwrap.1.1.2)
  | select hready hgrown =>
    rw [paging_project, hgrown.paging_eq]
    cases hready with
    | asIs hwrap => exact (if_neg (Bool.eq_false_iff.1 hwrap)).symm
    | wrapped _ hwrap => exact (if_pos hwrap).symm
  | distinct hready hgrown =>
    have hpaged := hready.needsWrap_eq
    obtain ⟨more, rfl, -⟩ := hgrown
    obtain ⟨htop, hskip⟩ := Bool.or_eq_false_iff.1 hpaged
    simp only [paging, Paging.after, htop, hskip]
  | skip hready hgrown =>
    obtain ⟨more, rfl, -⟩ := hgrown
    cases hready with
    | asIs hwrap =>
      obtain ⟨htop, hskip⟩ := Bool.or_eq_false_iff.1 hwrap
      simp [paging, Paging.after, htop, hskip]
    | wrapped _ hwrap =>
      rw [needsWrap, isPaged, Bool.or_comm] at hwrap
      exact (if_pos hwrap).symm
  | take hready hgrown =>
    obtain ⟨more, rfl, -⟩ := hgrown
    cases hready with
    | asIs hwrap => exact (if_neg (Bool.eq_false_iff.1 hwrap)).symm
    | wrapped _ hwrap => exact (if_pos hwrap).symm

/-- The operators of a chain say which of the clauses its select has, by induction over the chain. -/
theorem Built.paging_eq (h : Built ops s) : s.paging = .ofChain ops := by
  induction h with
  | table => rfl
  | call _ hs' ih => rw [hs'.paging_eq, ih, Paging.ofChain]

end Sql.Select

/-! ## The runs of chains -/

/-- An operator of a chain is a step, or else a projection of what is typed as a group. -/
theorem rule_composing {ty : Ty} (hmethod : Operator.ofMethod? method = some op) (hop : op ∈ Operator.composing) :
    ∃ r, Expr.rule? (.call method none (source :: args) ty) = some r ∧
      (r = .groupAggregate .select ∨ ∃ st : Step, Step.ofOperator? op (args.length + 1) = some st ∧
        st.isClause = true ∧ r = .step st) := by
  by_cases hselect : op = .select
  · obtain ⟨r, hrule, hr⟩ := @rule_refinement args ty source op method hmethod (.inr hselect)
    subst hselect
    obtain rfl | ⟨h, -⟩ | ⟨-, rfl⟩ := hr
    · exact ⟨_, hrule, .inl rfl⟩
    · cases h
    · exact ⟨_, hrule, .inr ⟨_, rfl, rfl, rfl⟩⟩
  · simp only [Operator.composing, List.mem_cons, List.not_mem_nil, or_false] at hop
    obtain rfl | rfl | rfl | rfl | rfl | rfl := hop
    all_goals exact ⟨_, rule_ungrouped hmethod rfl ⟨rfl, hselect, by decide⟩, .inr ⟨_, rfl, rfl, rfl⟩⟩

namespace Expr.Composed

/-- A chain of which no operator goes on is no group: it is a table, or it is closed. -/
theorem not_grouping (h : e.Composed ops) (hy : Yields schema (e.run false index) cx n cx')
    (key element : Node) : n ≠ .grouping key element := by
  induction h generalizing cx cx' index n key element with
  | table he =>
    obtain ⟨-, entry, -, rfl⟩ := he.yields hy
    simp
  | call ty _ hmethod hop ih =>
    obtain ⟨r, hrule, rfl | ⟨st, -, hst, rfl⟩⟩ := rule_composing hmethod hop
    · exact absurd hy (not_yields_groupAggregate hrule rfl fun _ _ _ hm => ih hm)
    · obtain ⟨s, d, mid, -, rfl, -⟩ := exists_closed_of_yields hrule hst hy
      simp

/-- The operator that a chain ends with changes the select of the chain before it. -/
theorem applies_of_finish {p : Progress} {values : List Node}
    (hst : Step.ofOperator? op (args.length + 1) = some st) (hop : op ∈ Operator.composing)
    (hready : s.Readied st.operation ready) (hgrown : ready.GrownTo grown)
    (hy : Yields schema (st.finish p grown (.placeholder :: values)) cx n cx') :
    ∃ s', n = .select s' ∧ s.Applies op s' := by
  simp only [Operator.composing, List.mem_cons, List.not_mem_nil, or_false] at hop
  obtain rfl | rfl | rfl | rfl | rfl | rfl := hop <;> obtain rfl := Option.some.inj hst <;>
    simp only [Step.finish, yields_bind, yields_pure] at hy
  · obtain ⟨_, _, -, rfl, -⟩ := hy
    exact ⟨_, rfl, .filter hready hgrown _⟩
  · obtain ⟨_, _, -, rfl, -⟩ := hy
    exact ⟨_, rfl, .select hready hgrown _⟩
  · obtain ⟨_, _, -, _, _, -, rfl, -⟩ := hy
    exact ⟨_, rfl, .groupBy hready hgrown _ _⟩
  · obtain ⟨rfl, -⟩ := hy
    exact ⟨_, rfl, .distinct hready hgrown⟩
  · obtain ⟨_, _, -, rfl, -⟩ := hy
    exact ⟨_, rfl, .skip hready hgrown _⟩
  · obtain ⟨_, _, -, rfl, -⟩ := hy
    exact ⟨_, rfl, .take hready hgrown _⟩

/-- The select of a chain.

**Proof sketch.** By induction over the chain: each operator meets the select of those before it. -/
theorem built (h : e.Composed ops) (hcx : cx.IsFresh) (hn : Yields schema (e.run true index) cx n cx')
    (hs : Yields schema (openQuery e n) mid s opened) : s.Built ops := by
  induction h generalizing cx cx' index n mid opened s with
  | table he =>
    obtain ⟨-, entry, -, rfl⟩ := he.yields hn
    rw [openQuery, selectFrom] at hs
    obtain ⟨rfl, -⟩ := yields_update.1 hs
    exact .table _ _
  | call ty hchain hmethod hop ih =>
    obtain ⟨r, hrule, rfl | ⟨st, hof, hst, rfl⟩⟩ := rule_composing hmethod hop
    · exact absurd hn (not_yields_groupAggregate hrule rfl fun _ _ _ hm => hchain.not_grouping hm)
    · obtain ⟨hstart, hsource, hopen, hready, -, hgrown, hfinish⟩ := clauseCall_of_yields hrule hst rfl hcx hn
      obtain ⟨s', rfl, happlies⟩ := applies_of_finish hof hop hready hgrown hfinish
      obtain rfl := eq_of_yields_openQuery hs
      exact .call (ih hstart hsource hopen) happlies

end Expr.Composed

/-! ## Queries at the root -/

/-- The select of a query that an operator goes on with. -/
def selectOf (q : Expr) (index : Option Nat) : Lower Select := do
  openQuery q (← withParameters [] (q.visit Recognizer.standard true index))

theorem yields_selectOf {q : Expr} (hy : Yields schema (selectOf q index) cx s opened) :
    ∃ m before, Yields schema (q.run true index) cx m before ∧ Yields schema (openQuery q m)
      { before with scope := before.scope.unbindTo cx.scope.params.length } s opened := by
  obtain ⟨m, _, hm, hs⟩ := yields_bind.1 hy
  obtain ⟨before, hvisit, rfl⟩ := yields_withParameters.1 hm
  rw [Scope.bind_nil] at hvisit
  exact ⟨m, before, hvisit, hs⟩

/-- The select of the first argument of an operator is the one that it has at the root. -/
theorem selectOf_elsewhere {i j : Option Nat} {frames frames' : List Frame} (hplace : SamePlace i j frames frames')
    (hy : Yields schema (selectOf source i) { Context.empty with frames := frames } s opened) : opened.frames = frames ∧
      Yields schema (selectOf source j) { Context.empty with frames := frames' } s { opened with frames := frames' } := by
  have hagree : Agree schema.lenience (SamePlace i j) () { Context.empty with frames := frames } (selectOf source i)
      (selectOf source j) fun w s => schema.lenience.node w (.select s) := by
    refine Agree.bind (.withParameters (by simp) (source.visit_lenient _ true i j)) fun m w' mid _ hm => ?_
    exact agree_openQuery hm
  have hcx : Context.Upheld schema.lenience () { Context.empty with frames := frames } := Context.upheld_lenience ..
  exact ⟨(hagree.of_yields hcx hplace hy).1, hagree.yields_elsewhere hcx hplace hy⟩

/-- A select that is lent and taken back at once. -/
theorem Context.reclaim_lend (cx : Context) (s : Select) : (cx.lend s).2.reclaim (cx.lend s).1 =
    .ok (s, { cx with lastTicket := ⟨cx.lastTicket.number + 1⟩ }) := if_pos rfl

/-- An operator without further arguments at the root: the select of the query is made ready, and the step makes its
value of it. -/
theorem yields_wholeQuery_iff (hrule : e.rule? = some (.step st)) (hchildren : e.children = [source]) :
    Yields schema (e.run true none) .empty n cx' ↔
      ∃ s opened ready sc after, Yields schema (selectOf source none) .empty s opened ∧
        s.prepare schema st.operation opened.scope = .ok (ready, sc) ∧
        Yields schema (st.finish { source := some ⟨opened.lastTicket.number + 1⟩ } ready [.placeholder]) { opened with
            frames := [⟨st.name, e.kindName, none⟩]
            scope := sc
            lastTicket := ⟨opened.lastTicket.number + 1⟩ } n after ∧ { after with frames := [] } = cx' := by
  have hplace := samePlace_source ⟨st.name, e.kindName, none⟩
  simp only [yields_visit_iff hrule, lowerBy, hchildren, List.map_cons, List.map_nil, List.zip_cons_cons, List.zip_nil_right,
    lowerParts, lowerPart, Rule.skipsParts, Rule.chains, Rule.bindings, Rule.receiveQuery, Rule.finish, Rule.name,
    Bool.false_eq_true, ↓reduceIte, beq_self_eq_true, Bool.and_self, Bool.not_true, Bool.and_false, yields_bind,
    yields_pure, yields_known, yields_attempt, yields_lend, yields_reclaim]
  constructor
  · rintro ⟨_, ⟨_, _, ⟨_, _, ⟨_, _, ⟨rfl, rfl⟩, m, before, hm, s, opened, hs, _, _, ⟨ready, _, ⟨sc, hprepare, rfl⟩, _, _,
      ⟨rfl, rfl⟩, rfl, rfl⟩, rfl, rfl⟩, _, _, ⟨rfl, rfl⟩, rfl, rfl⟩, _, after, ⟨t, _, ⟨ht, rfl⟩, s', _, hback, hfinish⟩,
      rfl, rfl⟩, rfl⟩
    obtain rfl := Option.some.inj ht
    obtain ⟨rfl, rfl⟩ := Prod.mk.inj (Except.ok.inj ((Context.reclaim_lend _ _).symm.trans hback))
    obtain ⟨hframes, hroot⟩ := selectOf_elsewhere hplace (yields_bind.2 ⟨m, before, hm, hs⟩)
    rw [hframes] at hfinish
    exact ⟨s, _, ready, sc, _, hroot, hprepare, hfinish, rfl⟩
  · rintro ⟨s, opened, ready, sc, after, hroot, hprepare, hfinish, rfl⟩
    obtain ⟨-, hy⟩ := selectOf_elsewhere (j := some 0) (fun f g hf hg => (hplace g f hg hf).symm) hroot
    obtain ⟨m, before, hm, hs⟩ := yields_bind.1 hy
    exact ⟨after, ⟨_, _, ⟨_, _, ⟨_, _, ⟨rfl, rfl⟩, m, before, hm, s, _, hs, _, _, ⟨ready, _, ⟨sc, hprepare, rfl⟩, _, _,
      ⟨rfl, rfl⟩, rfl, rfl⟩, rfl, rfl⟩, _, _, ⟨rfl, rfl⟩, rfl, rfl⟩, n, after,
      ⟨_, _, ⟨rfl, rfl⟩, ready, _, Context.reclaim_lend _ _, hfinish⟩, rfl, rfl⟩, rfl⟩

end QueryLowering
