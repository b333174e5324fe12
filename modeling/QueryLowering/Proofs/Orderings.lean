import QueryLowering.Proofs.ClauseCalls
import QueryLowering.Proofs.Rows

/-!
# Orderings and the operators after them

An ordering is followed by filters and projections. A projection leaves the keys where they are, and so
does a filter that is added to the select. A filter on a select that gives its rows another value closes
the select and reads it by a new one, and then the keys stay inside: the new select is not ordered.

## Main results

* `Composes.orderBy_eq`: the keys stay as long as no select is closed.
* `ordering_kept_unless_closed`: the keys of a statement.
* `distinct_sortsColumns_iff`: the keys of a statement without duplicates.
-/

namespace QueryLowering

open Sql Lower List

variable {grown ready s s' ordered last : Select} {args : List Expr} {ty : Ty} {append descending closes lost : Bool}
variable {n : Node} {e o : Expr} {keys : List (List Expr × Bool)} {f : Expr → Expr} {options : Options}
variable {schema : Schema} {cx cx' : Context} {op : Operator} {items : List OrderItem} {index : Option Nat}
variable {method : Method}

/-! ## Orderings -/

/-- The operator of an ordering, a first or a further one, in a direction. -/
def Operator.ordering : (append descending : Bool) → Operator
  | false, false => .orderBy
  | false, true => .orderByDescending
  | true, false => .thenBy
  | true, true => .thenByDescending

namespace Expr

/-- An ordering, followed by further orderings, with the arguments and the direction of each. The first argument
is the key. -/
inductive Orders : Expr → List (List Expr × Bool) → Prop
  | first {method : Method} {source : Expr} {args : List Expr} (ty : Ty) (descending : Bool)
      (hmethod : Operator.ofMethod? method = some (.ordering false descending)) :
      Orders (.call method none (source :: args) ty) [(args, descending)]
  | further {method : Method} {e : Expr} {keys : List (List Expr × Bool)} {args : List Expr} (ty : Ty)
      (descending : Bool) (he : Orders e keys)
      (hmethod : Operator.ofMethod? method = some (.ordering true descending)) :
      Orders (.call method none (e :: args) ty) (keys ++ [(args, descending)])

/-- A query that filters and projections were made of. -/
inductive Refines (o : Expr) : Expr → Prop
  | refl : Refines o o
  | call {method : Method} {e : Expr} {args : List Expr} {op : Operator} (ty : Ty) (he : Refines o e)
      (hmethod : Operator.ofMethod? method = some op) (hop : op = .filter ∨ op = .select) :
      Refines o (.call method none (e :: args) ty)

theorem Orders.mapUp (ho : o.Orders keys) (hf : SparesOthers f) :
    (o.mapUp f).Orders (keys.map fun k => (k.1.map (mapUp f), k.2)) := by
  induction ho with
  | first ty descending hmethod =>
    rw [mapUp_call hf hmethod (by cases descending <;> decide)]
    exact .first ty descending hmethod
  | further ty descending _ hmethod ih =>
    rw [mapUp_call hf hmethod (by cases descending <;> decide), map_append]
    exact .further ty descending ih hmethod

theorem Refines.mapUp (he : o.Refines e) (hf : SparesOthers f) : (o.mapUp f).Refines (e.mapUp f) := by
  induction he with
  | refl => exact .refl
  | call ty _ hmethod hop ih =>
    rw [mapUp_call hf hmethod (by rcases hop with rfl | rfl <;> decide)]
    exact .call ty ih hmethod hop

end Expr

/-- The expression that is lowered for an expression. -/
def Options.simplified (options : Options) (e : Expr) : Expr :=
  if options.preprocess then Desugar.childJoin (Desugar.contains (Desugar.all e)) else e

namespace Options

theorem simplified_eq (schema : Schema) (options : Options) (e : Expr) :
    (if options.preprocess then ({ schema, options } : Compiler).simplify e else pure e) =
      .ok (options.simplified e) := by
  rw [simplified]
  split <;> rfl

theorem simplified_eq_id (h : options.preprocess = false) : options.simplified = id :=
  funext fun e => by simp [simplified, h]

theorem simplified_eq_passes (h : options.preprocess = true) :
    options.simplified = Desugar.childJoin ∘ Desugar.contains ∘ Desugar.all :=
  funext fun e => by simp [simplified, h]

/-- What holds of the identity, and after each pass if it held before, holds of the passes together. -/
theorem simplified_rec {P : (Expr → Expr) → Prop} (hid : P id)
    (hpass : ∀ g f, Expr.SparesOthers f → P g → P (Expr.mapUp f ∘ g)) : P options.simplified := by
  cases h : options.preprocess with
  | false => exact simplified_eq_id h ▸ hid
  | true =>
    rw [simplified_eq_passes h]
    exact hpass _ _ Desugar.sparesOthers_childJoinNode (hpass _ _ Desugar.sparesOthers_containsNode
      (hpass _ _ Desugar.sparesOthers_allNode hid))

theorem orders_simplified (ho : o.Orders keys) :
    (options.simplified o).Orders (keys.map fun k => (k.1.map options.simplified, k.2)) := by
  refine simplified_rec (P := fun g => (g o).Orders (keys.map fun k => (k.1.map g, k.2))) (by simpa using ho) ?_
  intro g f hf h
  simpa [Function.comp_def] using h.mapUp hf

theorem refines_simplified (he : o.Refines e) : (options.simplified o).Refines (options.simplified e) :=
  simplified_rec (P := fun g => (g o).Refines (g e)) he fun _ _ hf h => h.mapUp hf

end Options

/-! ## Selects that are ordered -/

/-- The items that a key with a direction orders a select by: the columns of its value for a row of the
select, as it was before navigations and keys were added. -/
def OrdersBy (schema : Schema) (ordered : Select) (key : List Expr × Bool) (items : List OrderItem) : Prop :=
  ∃ s value values after columns last, ({ s with orderBy := ordered.orderBy } : Select).GrownTo ordered ∧
    ValuesOver schema key.1 s (value :: values) after ∧
    Yields schema (orderKeys value) { after with lent := [] } columns last ∧ items = columns.map (⟨·, key.2⟩)

/-- A select whose rows are neither paged nor without duplicates, in the order of keys. -/
structure OrderedBy (schema : Schema) (keys : List (List Expr × Bool)) (s : Select) : Prop where
  isPaged_eq : s.isPaged = false
  distinct_eq : s.distinct = false
  items : ∃ itemss, List.Forall₂ (OrdersBy schema s) keys itemss ∧ s.orderBy = itemss.flatten

/-- Navigations and further keys leave the items of a key as they are. -/
theorem OrdersBy.order {key : List Expr × Bool}
    (h : OrdersBy schema ordered key items) (hgrown : ordered.GrownTo grown) (more : List OrderItem) :
    OrdersBy schema (grown.order more true) key items := by
  obtain ⟨s, value, values, after, columns, last, ⟨added, hadded, hnav⟩, hvalues, hcolumns, rfl⟩ := h
  obtain ⟨further, rfl, hnav'⟩ := hgrown
  refine ⟨s, value, values, after, columns, last, ⟨added ++ further, ?_, forall_mem_append.2 ⟨hnav, hnav'⟩⟩,
    hvalues, hcolumns, rfl⟩
  rw [hadded]
  simp [Select.order]

/-- An ordering changes the clause of the keys. -/
theorem rule_ordering (hmethod : Operator.ofMethod? method = some (.ordering append descending)) :
    Expr.rule? (.call method none args ty) = some (.step (.order descending append)) := by
  cases append <;> cases descending <;>
    exact rule_ungrouped hmethod rfl

theorem yields_finish_order {p : Progress} {values : List Node}
    (hy : Yields schema ((Step.order descending append).finish p s (.placeholder :: values)) cx n cx') :
    ∃ value others columns, values = value :: others ∧ Yields schema (orderKeys value) cx columns cx' ∧
      n = .select (s.order (columns.map (⟨·, descending⟩)) append) := by
  simp only [Step.finish, part, getElem?_cons_succ, yields_bind, yields_orThrow, yields_pure] at hy
  obtain ⟨value, _, ⟨hvalue, rfl⟩, columns, _, hcolumns, rfl, rfl⟩ := hy
  cases values with
  | nil => cases hvalue
  | cons first others =>
    obtain rfl := Option.some.inj hvalue
    exact ⟨first, others, columns, rfl, hcolumns, rfl⟩

theorem eq_of_yields_openQuery {s₀ : Select} (hy : Yields schema (openQuery e (.select s₀)) cx s cx') :
    s₀ = s := (yields_pure.1 hy).1

/-- The value of an ordering is a select that is ordered by its keys.

**Proof sketch.** By induction over the orderings. The first one meets a select that is made ready for it, so
that its rows are neither paged nor without duplicates, and its keys take the place of all others. A further
one meets the select of the orderings before it, which is never closed for it, and adds its keys. -/
theorem Expr.Orders.orderedBy (ho : o.Orders keys) (hcx : cx.IsFresh) (hy : Yields schema (o.run true index) cx n cx') :
    ∃ ordered, n = .select ordered ∧ OrderedBy schema keys ordered := by
  induction ho generalizing cx cx' index n with
  | first ty descending hmethod =>
    obtain ⟨-, -, -, hready, hvalues, hgrown, hfinish⟩ := clauseCall_of_yields (rule_ordering hmethod) rfl rfl hcx hy
    obtain ⟨value, others, columns, rfl, hcolumns, rfl⟩ := yields_finish_order hfinish
    obtain ⟨more, rfl, hnav⟩ := hgrown
    obtain ⟨hpaged, hdistinct⟩ := Bool.or_eq_false_iff.1 hready.needsWrap_eq
    refine ⟨_, rfl, hpaged, hdistinct, [columns.map (⟨·, descending⟩)], ?_, flatten_singleton.symm⟩
    exact .cons ⟨_, value, others, _, columns, _, ⟨more, rfl, hnav⟩, hvalues, hcolumns, rfl⟩ .nil
  | further ty descending _ hmethod ih =>
    obtain ⟨hstart, hsource, hopen, hready, hvalues, hgrown, hfinish⟩ :=
      clauseCall_of_yields (rule_ordering hmethod) rfl rfl hcx hy
    obtain ⟨value, others, columns, rfl, hcolumns, rfl⟩ := yields_finish_order hfinish
    obtain ⟨ordered, rfl, hordered⟩ := ih hstart hsource
    obtain rfl := eq_of_yields_openQuery hopen
    cases hready with
    | wrapped _ hwrap => cases hwrap
    | asIs =>
      obtain ⟨hpaged, hdistinct, itemss, hitems, hflat⟩ := hordered
      have hlater := hitems.imp fun _ _ h => h.order hgrown (columns.map (⟨·, descending⟩))
      obtain ⟨more, rfl, hnav⟩ := hgrown
      refine ⟨_, rfl, hpaged, hdistinct, itemss ++ [columns.map (⟨·, descending⟩)], ?_, ?_⟩
      · refine rel_append hlater (.cons ?_ .nil)
        exact ⟨_, value, others, _, columns, _, ⟨more, rfl, hnav⟩, hvalues, hcolumns, rfl⟩
      · rw [flatten_append, flatten_singleton, ← hflat]
        rfl

/-! ## Filters and projections -/

/-- What a filter or a projection makes of a select, and whether the select is closed first. -/
inductive Sql.Select.Continues (s : Select) : Operator → Select → Bool → Prop
  | select {grown : Select} (value : Node) (hgrown : s.GrownTo grown) : s.Continues .select (grown.project value) false
  | filter {grown : Select} (condition : Node) (hwrap : s.needsWrap .filter = false) (hgrown : s.GrownTo grown) :
      s.Continues .filter (grown.addFilter condition) false
  | closed {grown : Select} {d : Derived} {a : Alias} (condition : Node) (hwrap : s.needsWrap .filter = true)
      (hd : d.select = s.withKeyProjection)
      (hgrown : ({ Select.empty with sources := [⟨a, .derived d, none, none⟩] } : Select).GrownTo grown) :
      s.Continues .filter (grown.addFilter condition) true

/-- What the filters and projections after an ordering make of its select, and whether it was closed. -/
inductive Composes (schema : Schema) (o : Expr) (ordered : Select) : Expr → Select → Bool → Prop
  | refl (ho : OpensAs schema o ordered) : Composes schema o ordered o ordered false
  | call {method : Method} {e : Expr} {args : List Expr} {op : Operator} {s s' : Select} {lost closes : Bool}
      (ty : Ty) (he : Composes schema o ordered e s lost) (hmethod : Operator.ofMethod? method = some op)
      (hs : s.Continues op s' closes) (hopens : OpensAs schema (.call method none (e :: args) ty) s') :
      Composes schema o ordered (.call method none (e :: args) ty) s' (lost || closes)

/-- A select that reads a closed select with some keys, or one that reads such a select in turn. -/
inductive Sql.Select.Buries (items : List OrderItem) : Select → Prop
  | here {s : Select} {a : Alias} {d : Derived} {more : List DataSource}
      (hs : s.sources = ⟨a, .derived d, none, none⟩ :: more) (hd : d.select.orderBy = items) : Buries items s
  | deeper {s : Select} {a : Alias} {d : Derived} {more : List DataSource}
      (hs : s.sources = ⟨a, .derived d, none, none⟩ :: more) (hd : Buries items d.select) : Buries items s

namespace Sql.Select

@[simp]
theorem orderBy_addFilter (s : Select) (n : Node) : (s.addFilter n).orderBy = s.orderBy := by
  unfold addFilter
  split <;> rfl

/-- Whether a select is paged or without duplicates. -/
theorem needsWrap_addFilter (s : Select) (n : Node) : (s.addFilter n).needsWrap .orderBy = s.needsWrap .orderBy := by
  unfold addFilter
  split <;> rfl

@[simp]
theorem orderBy_project (s : Select) (n : Node) : (s.project n).orderBy = s.orderBy := by
  unfold project
  split <;> rfl

theorem needsWrap_project (s : Select) (n : Node) : (s.project n).needsWrap .orderBy = s.needsWrap .orderBy := by
  unfold project
  split <;> rfl

@[simp]
theorem orderBy_withKeyProjection (s : Select) : s.withKeyProjection.orderBy = s.orderBy := by
  unfold withKeyProjection
  split <;> rfl

namespace Continues

/-- The keys stay unless the select is closed. -/
theorem orderBy_eq (h : s.Continues op s' closes) : s'.orderBy = if closes then [] else s.orderBy := by
  cases h with
  | select _ hgrown | filter _ _ hgrown | closed _ _ _ hgrown =>
    obtain ⟨more, rfl, -⟩ := hgrown
    simp [empty]

/-- No rows are dropped by their number or as duplicates. -/
theorem needsWrap_eq (h : s.Continues op s' closes) (hs : s.needsWrap .orderBy = false) :
    s'.needsWrap .orderBy = false := by
  cases h with
  | select _ hgrown =>
    obtain ⟨more, rfl, -⟩ := hgrown
    exact (needsWrap_project ..).trans hs
  | filter _ _ hgrown =>
    obtain ⟨more, rfl, -⟩ := hgrown
    exact (needsWrap_addFilter ..).trans hs
  | closed _ _ _ hgrown =>
    obtain ⟨more, rfl, -⟩ := hgrown
    exact needsWrap_addFilter ..

/-- The data sources stay the first ones unless the select is closed. -/
theorem leading_sources (h : s.Continues op s' false) : s.sources <+: s'.sources := by
  cases h with
  | select _ hgrown | filter _ _ hgrown =>
    obtain ⟨more, rfl, -⟩ := hgrown
    simp [sources_project, sources_addFilter]

end Continues

theorem Readied.continues_filter (hready : s.Readied .filter ready)
    (hgrown : ready.GrownTo grown) : ∃ closes, ∀ condition, s.Continues .filter (grown.addFilter condition) closes := by
  cases hready with
  | asIs hwrap => exact ⟨false, fun condition => .filter condition hwrap hgrown⟩
  | wrapped _ hwrap hd => exact ⟨true, fun condition => .closed condition hwrap hd hgrown⟩

theorem Readied.continues_select (hready : s.Readied .projection ready)
    (hs : s.distinct = false) (hgrown : ready.GrownTo grown) (value : Node) :
    s.Continues .select (grown.project value) false := by
  cases hready with
  | asIs => exact .select value hgrown
  | wrapped _ hwrap => exact absurd (hs.symm.trans hwrap) Bool.false_ne_true

theorem Buries.of_leading (h : s.Buries items) (hs : s.sources <+: s'.sources) : s'.Buries items := by
  obtain ⟨more, hmore⟩ := hs
  cases h with
  | here hsources hd =>
    rw [hsources] at hmore
    exact .here hmore.symm hd
  | deeper hsources hd =>
    rw [hsources] at hmore
    exact .deeper hmore.symm hd

/-- If an ordered select, or one that reads an ordered select, is closed, then the keys are inside. -/
theorem Continues.buries (h : s.Continues op s' true) (hs : s.orderBy = items ∨ s.Buries items) : s'.Buries items := by
  cases h with
  | closed _ _ hd hgrown =>
    obtain ⟨more, rfl, -⟩ := hgrown
    rcases hs with hs | hs
    · refine .here (sources_addFilter ..) ?_
      rw [hd, orderBy_withKeyProjection, hs]
    · refine .deeper (sources_addFilter ..) ?_
      rw [hd]
      exact hs.of_leading ⟨[], by rw [sources_withKeyProjection, append_nil]⟩

end Sql.Select

namespace Composes

section

variable (h : Composes schema o ordered e last lost)

include h

/-- The keys stay as long as no select is closed. -/
theorem orderBy_eq :
    last.orderBy = if lost then [] else ordered.orderBy := by
  induction h with
  | refl => rfl
  | @call _ _ _ _ _ _ lost closes _ _ _ hs _ ih =>
    rw [hs.orderBy_eq, ih]
    cases lost <;> cases closes <;> rfl

theorem needsWrap_eq (hordered : OrderedBy schema keys ordered) : last.needsWrap .orderBy = false := by
  induction h with
  | refl => exact Bool.or_eq_false_iff.2 ⟨hordered.isPaged_eq, hordered.distinct_eq⟩
  | call _ _ _ hs _ ih => exact hs.needsWrap_eq ih

/-- As long as no select is closed, the data sources that the keys are expressed over stay the first ones. -/
theorem leading_sources (hlost : lost = false) :
    ordered.sources <+: last.sources := by
  induction h with
  | refl => exact prefix_rfl
  | call _ _ _ hs _ ih =>
    obtain ⟨hbefore, rfl⟩ := Bool.or_eq_false_iff.1 hlost
    exact (ih hbefore).trans hs.leading_sources

/-- Once a select was closed, the keys are inside. -/
theorem buries (hlost : lost = true) : last.Buries ordered.orderBy := by
  induction h with
  | refl => cases hlost
  | @call _ _ _ _ s _ lost closes _ he _ hs _ ih =>
    cases closes with
    | true =>
      refine hs.buries ?_
      cases lost with
      | true => exact .inr (ih rfl)
      | false => exact .inl he.orderBy_eq
    | false =>
      rw [Bool.or_false] at hlost
      exact (ih hlost).of_leading hs.leading_sources

end

end Composes

/-! ## Runs -/

/-- A filter or a projection changes a clause, or else it is a projection of what is typed as a group. -/
theorem rule_refinement (hmethod : Operator.ofMethod? method = some op) (hop : op = .filter ∨ op = .select) :
    ∃ r, Expr.rule? (.call method none (e :: args) ty) = some r ∧
      (r = .groupAggregate .select ∨ op = .filter ∧ r = .step .filter ∨ op = .select ∧ r = .step .select) := by
  rcases hop with rfl | rfl
  · exact ⟨_, rule_ungrouped hmethod rfl, .inr (.inl ⟨rfl, rfl⟩)⟩
  · cases hgrouping : e.ty.isGrouping with
    | false =>
      have hgroup : groupRule? (.call method none (e :: args) ty) = none :=
        groupRule?_eq_none hmethod rfl fun _ _ h => Option.some.inj h ▸ hgrouping
      exact ⟨_, rule_operator hmethod (by decide) hgroup rfl, .inr (.inr ⟨rfl, rfl⟩)⟩
    | true =>
      have hgroup : groupRule? (.call method none (e :: args) ty) = some (.groupAggregate .select) := by
        rw [groupRule?, hmethod]
        exact if_pos ⟨.inr rfl, hgrouping⟩
      exact ⟨_, rule_group hgroup, .inl rfl⟩

namespace Expr

theorem Orders.exists_rule (ho : o.Orders keys) : ∃ st : Step, o.rule? = some (.step st) ∧ st.isClause = true := by
  cases ho with
  | first _ _ hmethod | further _ _ _ hmethod => exact ⟨_, rule_ordering hmethod, rfl⟩

/-- Where no operator goes on with it, the value is the closed form of the select that operators would go on
with. A projection of what is typed as a group fails, since a closed select is none. -/
theorem Refines.exists_closed (ho : o.Orders keys) (he : o.Refines e)
    (hy : Yields schema (e.run false index) cx n cx') :
    ∃ s d mid, Yields schema (e.run true index) cx (.select s) mid ∧ n = .derived d ∧
      d.select = s.withKeyProjection := by
  induction he generalizing cx cx' index n with
  | refl =>
    obtain ⟨st, hrule, hst⟩ := ho.exists_rule
    exact exists_closed_of_yields hrule hst hy
  | call ty _ hmethod hop ih =>
    obtain ⟨r, hrule, rfl | ⟨-, rfl⟩ | ⟨-, rfl⟩⟩ := rule_refinement hmethod hop
    · refine absurd hy (not_yields_groupAggregate hrule rfl fun _ _ _ hm _ _ hgroup => ?_)
      obtain ⟨-, d, -, -, rfl, -⟩ := ih hm
      cases hgroup
    · exact exists_closed_of_yields hrule rfl hy
    · exact exists_closed_of_yields hrule rfl hy

/-- The value of filters and projections after an ordering.

**Proof sketch.** By induction over them. Each one meets the select of those before it. A projection finds
duplicates not dropped, so that the select is not closed for it. -/
theorem Refines.composes (ho : o.Orders keys) (he : o.Refines e) (hcx : cx.IsFresh)
    (hy : Yields schema (e.run true index) cx n cx') :
    ∃ ordered last lost, n = .select last ∧ OrderedBy schema keys ordered ∧ Composes schema o ordered e last lost := by
  induction he generalizing cx cx' index n with
  | refl =>
    obtain ⟨ordered, rfl, hordered⟩ := ho.orderedBy hcx hy
    exact ⟨ordered, ordered, false, rfl, hordered, .refl ⟨cx, index, cx', hcx, hy⟩⟩
  | call ty he hmethod hop ih =>
    obtain ⟨r, hrule, rfl | ⟨rfl, rfl⟩ | ⟨rfl, rfl⟩⟩ := rule_refinement hmethod hop
    · refine absurd hy (not_yields_groupAggregate hrule rfl fun _ _ _ hm _ _ hgroup => ?_)
      obtain ⟨-, d, -, -, rfl, -⟩ := he.exists_closed ho hm
      cases hgroup
    all_goals
      obtain ⟨hstart, hsource, hopen, hready, -, hgrown, hfinish⟩ := clauseCall_of_yields hrule rfl rfl hcx hy
      obtain ⟨ordered, s, lost, rfl, hordered, hs⟩ := ih hstart hsource
      obtain rfl := eq_of_yields_openQuery hopen
      simp only [Step.finish, yields_bind, yields_pure] at hfinish
      obtain ⟨_, _, -, rfl, -⟩ := hfinish
    · obtain ⟨closes, hcontinues⟩ := hready.continues_filter hgrown
      exact ⟨ordered, _, _, rfl, hordered, .call ty hs hmethod (hcontinues _) ⟨cx, index, cx', hcx, hy⟩⟩
    · have hcontinues := hready.continues_select (Bool.or_eq_false_iff.1 (hs.needsWrap_eq hordered)).2 hgrown
      exact ⟨ordered, _, _, rfl, hordered, .call ty hs hmethod (hcontinues _) ⟨cx, index, cx', hcx, hy⟩⟩

end Expr

/-! ## Statements -/

/-- The keys of a statement that is a query. -/
def Sql.Body.orderBy? : Body → Option (List OrderItem)
  | .query d => some d.select.orderBy
  | _ => none

/-- The keys of a select as its statement has them: common table expressions are taken out if they are
hoisted. -/
def Options.written (options : Options) (items : List OrderItem) : List OrderItem :=
  if options.hoistCtes then changeOrder withoutCtes items else items

theorem Sql.Derived.orderBy_change (d : Derived) :
    (d.change withoutCtes).select.orderBy = changeOrder withoutCtes d.select.orderBy := by
  obtain ⟨_, ⟨⟩, _⟩ := d
  rfl

/-- **Orderings and the operators after them.** The statement of an ordering that only filters and
projections follow has the keys of the ordering, in their order and directions, exactly as long as none
of the filters has to close the select. Then the select of the statement reads the data sources that the
keys are expressed over. Otherwise the statement is not ordered, and the keys are in a closed select
that it reads.

**Proof sketch.** The passes leave the orderings, the filters and the projections. The value at the root is the
closed form of the select that they compose, and hoisting takes common table expressions out of it. -/
theorem ordering_kept_unless_closed (schema : Schema) (options : Options) {o e : Expr}
    {keys : List (List Expr × Bool)} {st : Statement} (ho : o.Orders keys) (he : o.Refines e)
    (hst : ({ schema, options } : Compiler).statement e = .ok st) :
    ∃ ordered last top lost, OrderedBy schema (keys.map fun k => (k.1.map options.simplified, k.2)) ordered ∧
      Composes schema (options.simplified o) ordered (options.simplified e) last lost ∧
      top.select = last.withKeyProjection ∧
      st.body = (if options.hoistCtes then Body.bare (.query top) else .query top) ∧
      st.body.orderBy? = some (options.written (if lost then [] else ordered.orderBy)) ∧
      (lost = false → ordered.sources <+: top.select.sources) ∧ (lost = true → top.select.Buries ordered.orderBy) := by
  obtain ⟨e', b, he', hb, rfl⟩ := Compiler.statement_eq_ok hst
  obtain rfl := Except.ok.inj ((options.simplified_eq schema e).symm.trans he')
  obtain ⟨n, mid, cx, hn, hbody⟩ := Compiler.body_eq_ok hb
  have ho' := options.orders_simplified ho
  have he' := options.refines_simplified he
  obtain ⟨s, top, mid', hs, rfl, htop⟩ := he'.exists_closed ho' hn
  obtain ⟨rfl, -⟩ := yields_pure.1 hbody
  obtain ⟨ordered, last, lost, hlast, hordered, hcomposes⟩ := he'.composes ho' ⟨[], rfl⟩ hs
  obtain rfl := Node.select.inj hlast
  refine ⟨ordered, s, top, lost, hordered, hcomposes, htop, ?_, ?_, ?_, ?_⟩
  · split <;> rfl
  · have horder : top.select.orderBy = if lost then [] else ordered.orderBy := by
      rw [htop, Select.orderBy_withKeyProjection, hcomposes.orderBy_eq]
    rw [Options.written, ← horder, ← Derived.orderBy_change]
    split <;> rfl
  · intro hlost
    rw [htop, Select.sources_withKeyProjection]
    exact hcomposes.leading_sources hlost
  · intro hlost
    refine (hcomposes.buries hlost).of_leading ⟨[], ?_⟩
    rw [htop, Select.sources_withKeyProjection, append_nil]

theorem Options.simplified_distinct (hmethod : Operator.ofMethod? method = some .distinct) :
    options.simplified (.call method none [e] ty) = .call method none [options.simplified e] ty := by
  refine simplified_rec (P := fun g => g (.call method none [e] ty) = .call method none [g e] ty) rfl ?_
  intro g f hf h
  rw [Function.comp_apply, h, Expr.mapUp_call hf hmethod]
  rfl

/-- Each key of a query is computed by one of its columns, as a query without duplicates needs it. -/
def Sql.Derived.SortsColumns (d : Derived) : Prop :=
  ∀ item ∈ d.select.orderBy, ∃ c ∈ d.columns, c.expr = item.expr

/-- **Duplicates of what is ordered.** A statement without duplicates has the keys of an ordering before it unless a
filter has closed the ordered select, whatever its columns are. So each key is computed by a column exactly if the keys
were lost, or if the projections before have kept them. -/
theorem distinct_sortsColumns_iff (schema : Schema) (options : Options) {o e : Expr} {keys : List (List Expr × Bool)}
    {method : Method} {ty : Ty} {st : Statement} (ho : o.Orders keys) (he : o.Refines e)
    (hmethod : Operator.ofMethod? method = some .distinct)
    (hst : ({ schema, options } : Compiler).statement (.call method none [e] ty) = .ok st) :
    ∃ ordered last lost d, OrderedBy schema (keys.map fun k => (k.1.map options.simplified, k.2)) ordered ∧
      Composes schema (options.simplified o) ordered (options.simplified e) last lost ∧ st.body = .query d ∧
      d.select.distinct = true ∧ d.select.orderBy = options.written (if lost then [] else ordered.orderBy) ∧
      (d.SortsColumns ↔
        lost = true ∨ ∀ item ∈ options.written ordered.orderBy, ∃ c ∈ d.columns, c.expr = item.expr) := by
  obtain ⟨e', b, he', hb, rfl⟩ := Compiler.statement_eq_ok hst
  obtain rfl := Except.ok.inj ((options.simplified_eq schema _).symm.trans he')
  obtain ⟨n, mid, cx, hn, hbody⟩ := Compiler.body_eq_ok hb
  rw [options.simplified_distinct hmethod] at hn
  have hrule : Expr.rule? (.call method none [options.simplified e] ty) = some (.step .distinct) :=
    rule_ungrouped hmethod rfl
  obtain ⟨s, top, _, hs, rfl, htop⟩ := exists_closed_of_yields hrule rfl hn
  obtain ⟨rfl, -⟩ := yields_pure.1 hbody
  obtain ⟨hstart, hsource, hopen, hready, -, hgrown, hfinish⟩ := clauseCall_of_yields hrule rfl rfl ⟨[], rfl⟩ hs
  obtain ⟨ordered, last, lost, rfl, hordered, hcomposes⟩ :=
    (options.refines_simplified he).composes (options.orders_simplified ho) hstart hsource
  obtain rfl := eq_of_yields_openQuery hopen
  obtain rfl := Node.select.inj (yields_pure.1 hfinish).1
  have hpaged := (Bool.or_eq_false_iff.1 (hcomposes.needsWrap_eq hordered)).1
  cases hready with
  | wrapped _ hwrap => exact absurd (hpaged.symm.trans hwrap) Bool.false_ne_true
  | asIs =>
    obtain ⟨more, rfl, -⟩ := hgrown
    have horder : top.select.orderBy = if lost then [] else ordered.orderBy := by
      rw [htop, Select.orderBy_withKeyProjection]
      exact hcomposes.orderBy_eq
    have hdistinct : top.select.distinct = true := by
      rw [htop, Select.withKeyProjection]
      split <;> rfl
    obtain ⟨d, hd, hdistinct, horder⟩ : ∃ d, (if options.hoistCtes then Statement.hoist ⟨[], .query top⟩ else
        ⟨[], .query top⟩).body = .query d ∧ d.select.distinct = true ∧
          d.select.orderBy = options.written (if lost then [] else ordered.orderBy) := by
      rw [Options.written, ← horder, ← Derived.orderBy_change]
      split
      · refine ⟨top.change withoutCtes, rfl, ?_, rfl⟩
        obtain ⟨_, ⟨⟩, _⟩ := top
        exact hdistinct
      · exact ⟨top, rfl, hdistinct, rfl⟩
    refine ⟨ordered, _, lost, d, hordered, hcomposes, hd, hdistinct, horder, ?_⟩
    rw [Derived.SortsColumns, horder]
    cases lost with
    | true => simp [Options.written, changeOrder]
    | false => simp

namespace Sample

/-- The students by age, those of one age by name backwards. -/
def byAgeAndName : Query :=
  ((Query.ofEntity "Student").ordering "OrderBy" "x" (·.memberOf "Age" .int)).ordering "ThenByDescending" "x"
    (·.memberOf "Name" .string)

/-- The names and ages of the students by age, of those of age. The condition comes last, so that it is one on
names and ages. -/
def adultsByAge : Expr :=
  let named := byAgeAndName.select "x" .anonymous fun x =>
    .construct .anonymous [("Name", x.memberOf "Name" .string), ("Age", x.memberOf "Age" .int)]
  (named.filter "y" isAdult).expr

/-- The columns and directions of keys. -/
def keyColumns (items : List OrderItem) : List (Option String × Bool) :=
  items.map fun i => (match i.expr with | .column _ name => some name | _ => none, i.descending)

/-- The keys of the closed select that a statement reads. -/
def innerKeys : Body → List (Option String × Bool)
  | .query { select := { sources := [{ relation := .derived d, .. }], .. }, .. } => keyColumns d.select.orderBy
  | _ => []

-- With the condition before the names and ages, the select is not closed.
example : (do
    let filtered := byAgeAndName.filter "x" isAdult
    let st ← ({ schema := studentSchema, options := {} } : Compiler).statement
      (filtered.select "x" .string (·.memberOf "Name" .string)).expr
    pure (st.body.orderBy?.map keyColumns) : Result (Option (List (Option String × Bool)))) =
      .ok (some [(some "Age", false), (some "FullName", true)]) := by
  decide +kernel

/-- The statement for the names and ages of the students by age is not ordered: its condition is one on a
closed select, which is. -/
theorem adultsByAge_not_ordered : ∃ st ordered last top lost,
    ({ schema := studentSchema, options := {} } : Compiler).statement adultsByAge = .ok st ∧
    st.body.orderBy? = some [] ∧ innerKeys st.body = [(some "Age", false), (some "FullName", true)] ∧
    Composes studentSchema (({} : Options).simplified byAgeAndName.expr) ordered
      (({} : Options).simplified adultsByAge) last lost ∧
    top.select = last.withKeyProjection ∧ st.body = Body.bare (.query top) ∧
    (lost = true → top.select.Buries ordered.orderBy) := by
  obtain ⟨st, hst, hlength, hinner⟩ : ∃ st,
      ({ schema := studentSchema, options := {} } : Compiler).statement adultsByAge = .ok st ∧
      st.body.orderBy?.map List.length = some 0 ∧ innerKeys st.body = [(some "Age", false), (some "FullName", true)] :=
    Result.exists_ok (by decide +kernel)
  simp only [Option.map_eq_some_iff, length_eq_zero_iff] at hlength
  obtain ⟨_, hkeys, rfl⟩ := hlength
  obtain ⟨ordered, last, top, lost, -, hcomposes, htop, hbody, -, -, hburies⟩ :=
    ordering_kept_unless_closed studentSchema {} (.further _ true (.first _ false rfl) rfl)
      (.call _ (.call _ .refl rfl (.inr rfl)) rfl (.inl rfl)) hst
  exact ⟨st, ordered, last, top, lost, hst, hkeys, hinner, hcomposes, htop, hbody, hburies⟩

/-- The names of the students by age, without duplicates. -/
def namesByAge : Expr :=
  let byAge := (Query.ofEntity "Student").ordering "OrderBy" "x" (·.memberOf "Age" .int)
  (byAge.select "x" .string (·.memberOf "Name" .string)).distinct.expr

/-- The keys and the columns of a statement. -/
def keysAndColumns : Body → List (Option String × Bool) × List (Option String × Bool)
  | .query d => (keyColumns d.select.orderBy, keyColumns (d.columns.map fun c => ⟨c.expr, false⟩))
  | _ => ([], [])

/-- The names are ordered by the age, which is no column. -/
theorem namesByAge_not_sorted : ∃ st d, ({ schema := studentSchema, options := {} } : Compiler).statement namesByAge =
      .ok st ∧ st.body = .query d ∧ d.select.distinct = true ∧ ¬ d.SortsColumns := by
  obtain ⟨st, hst, h⟩ : ∃ st, ({ schema := studentSchema, options := {} } : Compiler).statement namesByAge = .ok st ∧
      keysAndColumns st.body = ([(some "Age", false)], [(some "FullName", false)]) :=
    Result.exists_ok (by decide +kernel)
  obtain ⟨-, -, -, d, -, -, hd, hdistinct, -⟩ := distinct_sortsColumns_iff studentSchema {} (.first _ false rfl)
    (.call _ .refl rfl (.inr rfl)) rfl hst
  refine ⟨st, d, hst, hd, hdistinct, fun hsorts => ?_⟩
  rw [hd] at h
  obtain ⟨hkeys, hcolumns⟩ := Prod.mk.inj h
  obtain ⟨item, hitem, hage⟩ := mem_map.1 (hkeys ▸ mem_cons_self)
  obtain ⟨c, hc, hexpr⟩ := hsorts item hitem
  have hcolumn : (some "Age", false) ∈ keyColumns (d.columns.map fun c => ⟨c.expr, false⟩) := by
    refine mem_map.2 ⟨⟨c.expr, false⟩, mem_map_of_mem hc, ?_⟩
    rw [hexpr, ← (Prod.mk.inj hage).1]
  rw [hcolumns] at hcolumn
  exact absurd hcolumn (by decide)

end Sample

end QueryLowering
