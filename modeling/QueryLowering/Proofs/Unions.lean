import QueryLowering.Proofs.Balance
import QueryLowering.Proofs.UnionBags
import QueryLowering.Proofs.Universal

/-!
# Unions of unions

A tree of union calls becomes one list of queries: those of the left side go on, and those of the right
side are added if they are all combined as the call says; otherwise the right side becomes one query that
reads a union of its own. The list has the rows of the tree, whatever rows its queries have. If the queries
are closed, the lowering fails only where queries with different numbers of columns are put together.

## Main results

* `bag_union`, `bag_visit`: the rows of the union of two values, and of a tree of union calls.
* `exec_visit_of_leavesClosed`: when a tree over closed queries cannot be lowered.
* `lower_union_calls`: both together.
-/

namespace QueryLowering

open Sql Lower List

variable {items queries : List UnionItem}

/-- The two sides of a union call, and how it combines them. -/
def Expr.unionCall? : Expr → Option (UnionKind × Expr × Expr)
  | .call method none [left, right] _ =>
    match Operator.ofMethod? method with
    | some .union => some (.union, left, right)
    | some .unionAll => some (.unionAll, left, right)
    | _ => none
  | _ => none

/-- A node inside a union call. -/
def Context.insideUnion (cx : Context) (kind : UnionKind) (e : Expr) (index : Option Nat) : Context :=
  { cx with frames := ⟨(Rule.union kind).name, e.kindName, index⟩ :: cx.frames }

variable {schema : Schema} {cx cx' : Context} {kind : UnionKind} {e left right : Expr} {index : Option Nat}
  {n m u : Node}

/-! ## The lowering of a union call -/

theorem Expr.unionCall?_eq_some (h : e.unionCall? = some (kind, left, right)) :
    e.rule? = some (.union kind) ∧ e.children = [left, right] := by
  unfold Expr.unionCall? at h
  split at h
  · next method l r ty =>
    split at h
    · next hmethod =>
      obtain ⟨rfl, rfl, rfl⟩ : UnionKind.union = kind ∧ l = left ∧ r = right := by simpa using h
      exact ⟨rule_ungrouped hmethod rfl, rfl⟩
    · next hmethod =>
      obtain ⟨rfl, rfl, rfl⟩ : UnionKind.unionAll = kind ∧ l = left ∧ r = right := by simpa using h
      exact ⟨rule_ungrouped hmethod rfl, rfl⟩
    · cases h
  · cases h

theorem lowerPart_union (p : Progress) (place : Nat) (part : Expr) (visit : Visit) :
    lowerPart (.union kind) p place part visit = do
      let n ← withParameters [] (visit false (some place))
      return (p, n) := by
  have hbindings : (Rule.union kind).bindings p place part = pure (p, []) := by
    unfold Rule.bindings
    split <;> rfl
  have hreceive : ∀ n : Node, (Rule.union kind).receive p place part n = pure p := by
    intro n
    unfold Rule.receive
    split <;> simp_all
  simp [lowerPart, hbindings, hreceive, Rule.skipsParts, Rule.chains]

/-- The two sides of a union call are lowered one after the other, and put together. -/
theorem visit_unionCall (h : e.unionCall? = some (kind, left, right)) (chained : Bool) (index : Option Nat) :
    e.run chained index = withFrame ⟨(Rule.union kind).name, e.kindName, index⟩ (do
        let n ← left.run false (some 0)
        let m ← right.run false (some 1)
        Lower.union kind n m) := by
  obtain ⟨hrule, hchildren⟩ := Expr.unionCall?_eq_some h
  rw [Expr.run_eq]
  simp only [lowerNode, hrule, hchildren, map_cons, map_nil]
  rw [lowerBy_two hchildren]
  have hfinish : ∀ n m : Node, (Rule.union kind).finish e {} [n, m] = Lower.union kind n m := by
    intro n m
    simp [Rule.finish, part, orThrow]
  simp only [lowerPart_union, withParameters_nil_visit, bind_assoc, pure_bind, hfinish, Rule.producesQuery,
    Bool.false_and, Bool.false_eq_true, if_false, bind_pure]

/-! ## Closing the sides of a union -/

theorem length_nameColumns (leaves : List (Path × Node)) : (nameColumns leaves).length = leaves.length := by
  simpa [nameColumns] using congrArg List.length (map_nameColumnsFrom [] leaves)

variable (schema) in
/-- The value of a row of a data source with known columns has these columns. -/
theorem flatten_sourceValue {sc : Scope} {a : Alias} {columns : List (Path × String)} {entity : Option String}
    (h : sc.shape? a = some (.columns columns entity)) :
    sc.flatten schema [] (sc.sourceValue a) = .ok (columns.map fun (p, name) => (p, Node.column a name)) := by
  unfold Scope.sourceValue
  split
  · next name hname =>
    rw [h] at hname
    obtain rfl : columns = [([], name)] := by
      unfold Option.bind SourceShape.single? at hname
      grind
    rfl
  · simp [Scope.flatten, Scope.sourceLeaves, Scope.shape, h, orThrow]

/-- The scope of a select that reads a relation. -/
def Scope.reading (sc : Scope) (r : Relation) : Scope := sc.fresh.2.register sc.fresh.1 (.ofRelation r)

theorem Scope.shape?_reading (sc : Scope) (r : Relation) : (sc.reading r).shape? sc.fresh.1 = some (.ofRelation r) := by
  simp [Scope.reading, Scope.register, Scope.shape?]

/-- A relation can be closed if the columns of its rows are known. -/
theorem yields_closeRelation {r : Relation} {leaves : List (Path × Node)}
    (h : (cx.scope.reading r).flatten schema [] ((cx.scope.reading r).sourceValue cx.scope.fresh.1) = .ok leaves) :
    Yields schema (selectFrom r >>= closeSelect) cx
      ⟨(cx.scope.reading r).fresh.1, { Select.empty with sources := [⟨cx.scope.fresh.1, r, none, none⟩] },
        nameColumns leaves⟩
      { cx with scope := (cx.scope.reading r).fresh.2 } := by
  refine yields_bind.2 ⟨_, { cx with scope := cx.scope.reading r }, yields_update.2 ⟨rfl, rfl⟩, ?_⟩
  refine yields_attempt.2 ⟨_, ?_, rfl⟩
  have hclose : ∀ s : Select, s = { Select.empty with sources := [⟨cx.scope.fresh.1, r, none, none⟩] } →
      s.close schema (cx.scope.reading r) =
        .ok (⟨(cx.scope.reading r).fresh.1, s, nameColumns leaves⟩, (cx.scope.reading r).fresh.2) := by
    rintro s rfl
    simp only [Select.close, Result.bind_eq_ok, Result.pure_eq_ok]
    exact ⟨leaves, h, rfl⟩
  exact hclose _ rfl

variable (schema) in
/-- A union can be closed. The closed select only reads it. -/
theorem yields_closeUnion (items : List UnionItem) (cx : Context) :
    ∃ d cx', Yields schema (selectFrom (.union items) >>= closeSelect) cx d cx' ∧
      d.columns.length = (unionColumnPaths items).length ∧
        ∀ {Row : Type} [DecidableEq Row] (rows : Derived → Multiset Row), d.bag rows = itemsBag rows items := by
  have hleaves := flatten_sourceValue schema (Scope.shape?_reading cx.scope (.union items))
  refine ⟨_, _, yields_closeRelation hleaves, ?_, fun rows => ?_⟩
  · rw [length_nameColumns, length_map]
  · exact bag_of_passes (passesColumns_nameColumns _ _ _)

/-- A table whose columns are known can be closed. -/
theorem yields_closeTable {t : Table} {columns : List Column} (h : schema.columns t.entity = .ok columns)
    (cx : Context) : ∃ d cx', Yields schema (selectFrom (.table t) >>= closeSelect) cx d cx' ∧
      d.columns.length = columns.length := by
  have hshape := Scope.shape?_reading cx.scope (.table t)
  have hvalue : (cx.scope.reading (.table t)).sourceValue cx.scope.fresh.1 = .source cx.scope.fresh.1 := by
    rw [Scope.sourceValue, hshape]
    rfl
  have hleaves : (cx.scope.reading (.table t)).flatten schema []
      ((cx.scope.reading (.table t)).sourceValue cx.scope.fresh.1) =
        .ok (columns.map fun c => ([c.member], Node.column cx.scope.fresh.1 c.column)) := by
    rw [hvalue]
    simp [Scope.flatten, Scope.sourceLeaves, Scope.shape, hshape, orThrow, SourceShape.ofRelation, h]
  refine ⟨_, _, yields_closeRelation hleaves, ?_⟩
  rw [length_nameColumns, length_map]

/-! ## The rows of a union -/

/-- The queries that a union takes from a value. -/
def QueriesOf (schema : Schema) (n : Node) (queries : List UnionItem) : Prop :=
  ∃ kind side cx cx', Yields schema (unionItems kind side n) cx queries cx'

theorem queriesOf_union : QueriesOf schema (.union items) queries ↔ items = queries := by
  constructor
  · rintro ⟨kind, side, cx, cx', h⟩
    exact (yields_pure.1 h).1
  · rintro rfl
    exact ⟨.union, "", .empty, .empty, yields_pure.2 ⟨rfl, rfl⟩⟩

/-- A value that is no union is one query. -/
theorem exists_unionItems_eq {side : String} (hn : ∀ items, n ≠ .union items)
    (h : Yields schema (unionItems kind side n) cx queries cx') : ∃ d, queries = [⟨d, kind⟩] := by
  obtain ⟨closed, mid, hclosed, h⟩ := yields_bind.1 h
  split at h
  · next items =>
    have hunion : n = .union items := by
      unfold closeQuery at hclosed
      split at hclosed
      · simp only [yields_bind, yields_pure] at hclosed
        obtain ⟨_, _, _, ⟨⟩, _⟩ := hclosed
      · simp only [yields_bind, yields_pure] at hclosed
        obtain ⟨_, _, _, _, _, _, ⟨⟩, _⟩ := hclosed
      · exact (yields_pure.1 hclosed).1
    exact absurd hunion (hn items)
  · next d => exact ⟨d, (yields_pure.1 h).1.symm⟩
  · exact absurd h not_yields_throw

/-- The union of two values takes the queries of both. A right side that combines its queries in another
way is one query with their rows. -/
theorem bag_union (h : Yields schema (Lower.union kind n m) cx u cx') :
    ∃ first second items, u = .union items ∧ QueriesOf schema n first ∧ QueriesOf schema m second ∧
      (first ≠ [] → second ≠ [] → items ≠ [] ∧ ∀ (Row : Type) [DecidableEq Row] (rows : Derived → Multiset Row),
          itemsBag rows items = kind.combine (itemsBag rows first) (itemsBag rows second)) := by
  simp only [Lower.union, yields_bind, yields_ofResult, yields_pure] at h
  obtain ⟨first, c₁, hfirst, m', c₂, hm', second, c₃, hsecond, -, -, -, rfl, -⟩ := h
  have hqueries : QueriesOf schema n first := ⟨kind, _, _, _, hfirst⟩
  by_cases hunion : ∃ items, m = .union items
  · obtain ⟨items, rfl⟩ := hunion
    refine ⟨first, items, _, rfl, hqueries, queriesOf_union.2 rfl, fun hne hne' => ⟨by simp [hne], ?_⟩⟩
    intro Row _ rows
    simp only [rightSide] at hm'
    split at hm'
    · next hkind =>
      obtain ⟨rfl, -⟩ := yields_pure.1 hm'
      obtain ⟨rfl, -⟩ := yields_pure.1 hsecond
      exact itemsBag_append hne hne' hkind
    · -- The right side is closed, and the closed select only reads it.
      obtain ⟨d, after, hd, -, hbag⟩ := yields_closeUnion schema items c₁
      simp only [yields_bind] at hm'
      obtain ⟨s, mid, hs, d', after', hd', hm'⟩ := hm'
      obtain ⟨rfl, -⟩ := hd.unique (yields_bind.2 ⟨s, mid, hs, hd'⟩)
      obtain ⟨rfl, -⟩ := yields_pure.1 hm'
      obtain ⟨rfl, -⟩ := yields_pure.1 hsecond
      rw [itemsBag_append hne (by simp) rfl, itemsBag_singleton, hbag]
  · have hm : rightSide kind m = pure m := by
      unfold rightSide
      split
      · next items => exact absurd ⟨items, rfl⟩ hunion
      · rfl
    rw [hm] at hm'
    obtain ⟨rfl, rfl⟩ := yields_pure.1 hm'
    obtain ⟨d, rfl⟩ := exists_unionItems_eq (fun items hitems => hunion ⟨items, hitems⟩) hsecond
    refine ⟨first, _, _, rfl, hqueries, ⟨kind, _, _, _, hsecond⟩, fun hne hne' => ⟨by simp [hne], ?_⟩⟩
    intro Row _ rows
    exact itemsBag_append hne hne' rfl

/-- The tree of union calls that an expression is, with the queries that its leaves are lowered to while the
expression is lowered from a context. -/
inductive UnionOf (schema : Schema) : Expr → Option Nat → Context → UnionTree (List UnionItem) → Prop
  | leaf {e : Expr} {index : Option Nat} {cx cx' : Context} {n : Node} {queries : List UnionItem}
      (he : e.unionCall? = none) (hn : Yields schema (e.visit Recognizer.standard false index) cx n cx')
      (hqueries : QueriesOf schema n queries) : UnionOf schema e index cx (.leaf queries)
  | node {e left right : Expr} {kind : UnionKind} {index : Option Nat} {cx mid : Context} {n : Node}
      {s t : UnionTree (List UnionItem)} (he : e.unionCall? = some (kind, left, right))
      (hleft : UnionOf schema left (some 0) (cx.insideUnion kind e index) s)
      (hn : Yields schema (left.visit Recognizer.standard false (some 0)) (cx.insideUnion kind e index) n mid)
      (hright : UnionOf schema right (some 1) mid t) : UnionOf schema e index cx (.node kind s t)

/-- A lowered union call has the rows of its tree.

**Proof sketch.** By induction on the expression. The union of two values has the rows of their queries, put
together as the call says, and by the induction hypotheses those are the rows of the two sides. -/
theorem bag_visit (e : Expr) : ∀ {index : Option Nat} {cx cx' : Context} {n : Node} {queries : List UnionItem},
      Yields schema (e.run false index) cx n cx' → QueriesOf schema n queries →
        ∃ tree, UnionOf schema e index cx tree ∧ ((∀ q ∈ tree.leaves, q ≠ []) → queries ≠ [] ∧
          ∀ (Row : Type) [DecidableEq Row] (rows : Derived → Multiset Row),
            itemsBag rows queries = tree.bag (itemsBag rows)) := by
  induction e using Expr.induction_on_children with
  | hP e ih =>
    intro index cx cx' u queries hu hqueries
    cases hcall : e.unionCall? with
    | none =>
      refine ⟨.leaf queries, .leaf hcall hu hqueries, fun hleaves => ⟨?_, fun _ _ _ => rfl⟩⟩
      exact hleaves queries (by simp [UnionTree.leaves])
    | some call =>
      obtain ⟨kind, left, right⟩ := call
      have hchildren : e.children = [left, right] := (Expr.unionCall?_eq_some hcall).2
      rw [visit_unionCall hcall, yields_withFrame] at hu
      obtain ⟨after, hu, -⟩ := hu
      simp only [yields_bind] at hu
      obtain ⟨n, mid, hn, m, last, hm, hunion⟩ := hu
      obtain ⟨first, second, items, rfl, hfirst, hsecond, hbag⟩ := bag_union hunion
      obtain rfl := queriesOf_union.1 hqueries
      obtain ⟨s, hs, hleft⟩ := ih left (by simp [hchildren]) hn hfirst
      obtain ⟨t, ht, hright⟩ := ih right (by simp [hchildren]) hm hsecond
      refine ⟨.node kind s t, .node hcall hs hn ht, fun hleaves => ?_⟩
      simp only [UnionTree.leaves, forall_mem_append] at hleaves
      obtain ⟨hne, hrows⟩ := hleft hleaves.1
      obtain ⟨hne', hrows'⟩ := hright hleaves.2
      obtain ⟨hne'', hbag⟩ := hbag hne hne'
      refine ⟨hne'', fun Row _ rows => ?_⟩
      rw [hbag, hrows, hrows', UnionTree.bag]

/-! ## Numbers of columns -/

/-- A value that is a closed query, or a table that can be closed. -/
inductive ClosedQuery (schema : Schema) : Node → Prop
  | derived (d : Derived) : ClosedQuery schema (.derived d)
  | table {t : Table} {columns : List Column} (h : schema.columns t.entity = .ok columns) :
      ClosedQuery schema (.table t)

/-- The numbers of columns of the queries that a union takes from its left side. -/
def columnCounts (schema : Schema) : Node → List Nat
  | .union items => items.map (·.query.columns.length)
  | .derived d => [d.columns.length]
  | .table t => (schema.columns t.entity).toOption.toList.map (·.length)
  | _ => []

/-- The numbers of columns of the queries that a union takes from its right side. A union that combines
its queries in another way is one query, with as many columns as its first one. -/
def rightColumnCounts (schema : Schema) (kind : UnionKind) : Node → List Nat
  | .union items =>
    if combinesOnlyBy kind items then columnCounts schema (.union items)
    else (columnCounts schema (.union items)).take 1
  | n => columnCounts schema n

/-- Two of some numbers differ. -/
def Differ (counts : List Nat) : Prop := ∃ i ∈ counts, ∃ j ∈ counts, i ≠ j

/-- Every leaf that is reached while a tree of union calls is lowered becomes a closed query. -/
inductive LeavesClosed (schema : Schema) : Expr → Option Nat → Context → Prop
  | leaf {e : Expr} {index : Option Nat} {cx cx' : Context} {n : Node} (he : e.unionCall? = none)
      (hn : Yields schema (e.visit Recognizer.standard false index) cx n cx') (hclosed : ClosedQuery schema n) :
      LeavesClosed schema e index cx
  | node {e left right : Expr} {kind : UnionKind} {index : Option Nat} {cx : Context}
      (he : e.unionCall? = some (kind, left, right))
      (hleft : LeavesClosed schema left (some 0) (cx.insideUnion kind e index)) (hright : ∀ n mid,
        Yields schema (left.visit Recognizer.standard false (some 0)) (cx.insideUnion kind e index) n mid →
          LeavesClosed schema right (some 1) mid) : LeavesClosed schema e index cx

/-- At some call of a tree of union calls two of the queries that it puts together have different numbers
of columns. -/
inductive Clashes (schema : Schema) : Expr → Option Nat → Context → Prop
  | left {e left right : Expr} {kind : UnionKind} {index : Option Nat} {cx : Context}
      (he : e.unionCall? = some (kind, left, right))
      (h : Clashes schema left (some 0) (cx.insideUnion kind e index)) : Clashes schema e index cx
  | right {e left right : Expr} {kind : UnionKind} {index : Option Nat} {cx mid : Context} {n : Node}
      (he : e.unionCall? = some (kind, left, right))
      (hn : Yields schema (left.visit Recognizer.standard false (some 0)) (cx.insideUnion kind e index) n mid)
      (h : Clashes schema right (some 1) mid) : Clashes schema e index cx
  | here {e left right : Expr} {kind : UnionKind} {index : Option Nat} {cx mid last : Context} {n m : Node}
      (he : e.unionCall? = some (kind, left, right))
      (hn : Yields schema (left.visit Recognizer.standard false (some 0)) (cx.insideUnion kind e index) n mid)
      (hm : Yields schema (right.visit Recognizer.standard false (some 1)) mid m last)
      (h : Differ (columnCounts schema n ++ rightColumnCounts schema kind m)) : Clashes schema e index cx

theorem exists_unionItems_of_closedQuery {side : String} (hn : ClosedQuery schema n)
    (h : Yields schema (unionItems kind side n) cx queries cx') : ∃ d, queries = [⟨d, kind⟩] :=
  exists_unionItems_eq (by cases hn <;> simp) h

/-- Closed queries are queries: no leaf is a union of nothing. -/
theorem UnionOf.leaves_ne_nil {tree : UnionTree (List UnionItem)} (h : UnionOf schema e index cx tree)
    (hclosed : LeavesClosed schema e index cx) : ∀ queries ∈ tree.leaves, queries ≠ [] := by
  induction h with
  | leaf he hn hqueries =>
    cases hclosed with
    | node he' => simp [he] at he'
    | leaf _ hn' hclosed =>
      obtain ⟨rfl, -⟩ := Yields.unique hn hn'
      obtain ⟨kind, side, c, c', hqueries⟩ := hqueries
      obtain ⟨d, rfl⟩ := exists_unionItems_of_closedQuery hclosed hqueries
      simp [UnionTree.leaves]
  | @node e left right kind index cx mid n s t he hs hn ht ihs iht =>
    cases hclosed with
    | leaf he' => simp [he] at he'
    | node he' hleft hright =>
      obtain ⟨rfl, rfl, rfl⟩ : kind = _ ∧ left = _ ∧ right = _ := by simpa [he] using he'
      simp only [UnionTree.leaves, forall_mem_append]
      exact ⟨ihs hleft, iht (hright n mid hn)⟩

/-- What a tree of union calls over closed queries is lowered to: a closed query, or a union. -/
inductive QueryValue (schema : Schema) : Node → Prop
  | closed {n : Node} (h : ClosedQuery schema n) : QueryValue schema n
  | union {items : List UnionItem} (h : items ≠ []) : QueryValue schema (.union items)

theorem checkColumns_eq_ok_iff : checkColumns items = .ok () ↔ ¬ Differ (items.map (·.query.columns.length)) := by
  cases items with
  | nil => simp [checkColumns, Differ]
  | cons first rest =>
    have hfind : checkColumns (first :: rest) = .ok () ↔
        ∀ i ∈ rest, i.query.columns.length = first.query.columns.length := by
      rw [checkColumns]
      cases hrest : rest.find? (·.query.columns.length != first.query.columns.length) with
      | some i =>
        have hne : i.query.columns.length ≠ first.query.columns.length := by
          simpa using find?_some hrest
        simp only [Result.throw_ne_ok, false_iff, not_forall]
        exact ⟨i, mem_of_find?_eq_some hrest, hne⟩
      | none => simpa using hrest
    rw [hfind, Differ]
    constructor
    · rintro hall ⟨i, hi, j, hj, hne⟩
      have hcount : ∀ k ∈ (first :: rest).map (·.query.columns.length), k = first.query.columns.length := by
        simpa using hall
      exact hne ((hcount i hi).trans (hcount j hj).symm)
    · intro hsame i hi
      by_contra hne
      exact hsame ⟨_, mem_map_of_mem (mem_cons_of_mem _ hi), _, mem_map_of_mem mem_cons_self, hne⟩

/-- Queries that are refused are refused for their numbers of columns. -/
theorem checkColumns_eq_error {error : Error} (h : checkColumns items = .error error) :
    ∃ expected actual, error = .arity "columns of a union member" expected actual := by
  unfold checkColumns at h
  split at h
  · cases h
  · dsimp only at h
    split at h
    · exact ⟨_, _, (Except.error.inj h).symm⟩
    · cases h

theorem yields_unionItems (hn : QueryValue schema n) (kind : UnionKind) (side : String) (cx : Context) :
    ∃ items cx', Yields schema (unionItems kind side n) cx items cx' ∧ items ≠ [] ∧
      items.map (·.query.columns.length) = columnCounts schema n := by
  cases hn with
  | union hne => exact ⟨_, cx, yields_pure.2 ⟨rfl, rfl⟩, hne, rfl⟩
  | closed hclosed =>
    cases hclosed with
    | derived d => exact ⟨_, cx, yields_pure.2 ⟨rfl, rfl⟩, by simp, rfl⟩
    | @table t columns hcolumns =>
      obtain ⟨d, cx', hd, hlength⟩ := yields_closeTable hcolumns cx
      obtain ⟨s, mid, hs, hd⟩ := yields_bind.1 hd
      refine ⟨[⟨d, kind⟩], cx', ?_, by simp, ?_⟩
      · refine yields_bind.2 ⟨.derived d, cx', ?_, yields_pure.2 ⟨rfl, rfl⟩⟩
        exact yields_bind.2 ⟨s, mid, hs, yields_bind.2 ⟨d, cx', hd, yields_pure.2 ⟨rfl, rfl⟩⟩⟩
      · simp [columnCounts, hcolumns, Except.toOption, hlength]

theorem yields_rightSide (hm : QueryValue schema m) (kind : UnionKind) (cx : Context) :
    ∃ m' cx', Yields schema (rightSide kind m) cx m' cx' ∧ QueryValue schema m' ∧
      columnCounts schema m' = rightColumnCounts schema kind m := by
  cases hm with
  | closed hclosed =>
    refine ⟨m, cx, ?_, .closed hclosed, ?_⟩
    · cases hclosed <;> exact yields_pure.2 ⟨rfl, rfl⟩
    · cases hclosed <;> rfl
  | @union items hne =>
    by_cases hkind : combinesOnlyBy kind items = true
    · refine ⟨.union items, cx, ?_, .union hne, ?_⟩
      · rw [rightSide, if_pos hkind]
        exact yields_pure.2 ⟨rfl, rfl⟩
      · rw [rightColumnCounts, if_pos hkind]
    · obtain ⟨d, cx', hd, hlength, -⟩ := yields_closeUnion schema items cx
      obtain ⟨s, mid, hs, hd⟩ := yields_bind.1 hd
      refine ⟨.derived d, cx', ?_, .closed (.derived d), ?_⟩
      · rw [rightSide, if_neg hkind]
        exact yields_bind.2 ⟨s, mid, hs, yields_bind.2 ⟨d, cx', hd, yields_pure.2 ⟨rfl, rfl⟩⟩⟩
      · obtain ⟨first, rest, rfl⟩ := exists_cons_of_ne_nil hne
        rw [rightColumnCounts, if_neg hkind]
        simp [columnCounts, hlength, unionColumnPaths, Derived.columnPaths]

/-- The union of two values that are queries fails exactly if their queries are refused. -/
theorem exec_union (hn : QueryValue schema n) (hm : QueryValue schema m) (kind : UnionKind) (cx : Context) :
    ∃ items cx', items ≠ [] ∧
      items.map (·.query.columns.length) = columnCounts schema n ++ rightColumnCounts schema kind m ∧
        (Lower.union kind n m).exec schema cx = ((checkColumns items).map fun _ => .union items, cx') := by
  obtain ⟨first, c₁, hfirst, hne, hcounts⟩ := yields_unionItems hn kind "left" cx
  obtain ⟨m', c₂, hm', hquery, hside⟩ := yields_rightSide hm kind c₁
  obtain ⟨second, c₃, hsecond, -, hcounts'⟩ := yields_unionItems hquery kind "right" c₂
  have hcombine : (combineFirst kind second).map (·.query.columns.length) = second.map (·.query.columns.length) := by
    cases second <;> rfl
  refine ⟨first ++ combineFirst kind second, c₃, by simp [hne], ?_, ?_⟩
  · rw [map_append, hcombine, hcounts, hcounts', hside]
  · rw [Lower.union, exec_bind_ok _ hfirst, exec_bind_ok _ hm', exec_bind_ok _ hsecond]
    dsimp only
    cases checkColumns (first ++ combineFirst kind second) with
    | ok => rfl
    | error => rfl

theorem exec_visit_unionCall (h : e.unionCall? = some (kind, left, right)) (cx : Context) :
    (e.run false index).exec schema cx =
      let ended := (do
        let n ← left.run false (some 0)
        let m ← right.run false (some 1)
        Lower.union kind n m : Lower Node).exec schema (cx.insideUnion kind e index)
      (ended.1, ended.2.leaveTo cx.frames.length) := by
  rw [visit_unionCall h]
  rfl

/-- A tree of union calls over closed queries is lowered to a query, or two queries with different numbers
of columns are put together and the lowering fails for that.

**Proof sketch.** By induction on the tree along its run. A leaf is a closed query. At a call the left side,
the right side or the union itself may fail; the union fails exactly if the numbers of columns differ. -/
theorem exec_visit_of_leavesClosed (h : LeavesClosed schema e index cx) :
    (∃ n cx', (e.run false index).exec schema cx = (.ok n, cx') ∧ QueryValue schema n ∧ ¬ Clashes schema e index cx) ∨
    (∃ expected actual cx', (e.run false index).exec schema cx =
      (.error (.arity "columns of a union member" expected actual), cx') ∧ Clashes schema e index cx) := by
  induction h with
  | leaf he hn hclosed =>
    refine .inl ⟨_, _, hn, .closed hclosed, fun hclash => ?_⟩
    cases hclash with
    | left he' | right he' | here he' => simp [he] at he'
  | @node e left right kind index cx he hleft hright ihleft ihright =>
    have hsame : ∀ {kind' left' right'}, e.unionCall? = some (kind', left', right') →
        kind' = kind ∧ left' = left ∧ right' = right := by
      intro kind' left' right' he'
      simpa [he, eq_comm] using he'
    rw [exec_visit_unionCall he]
    rcases ihleft with ⟨n, mid, hn, hnquery, hnleft⟩ | ⟨expected, actual, mid, hn, hclash⟩
    · rcases ihright n mid hn with ⟨m, last, hm, hmquery, hnright⟩ | ⟨expected, actual, last, hm, hclash⟩
      · obtain ⟨items, cx', hne, hcounts, hunion⟩ := exec_union hnquery hmquery kind last
        rw [exec_bind_ok _ hn, exec_bind_ok _ hm, hunion]
        cases hcheck : checkColumns items with
        | ok =>
          have hsame' := checkColumns_eq_ok_iff.1 hcheck
          rw [hcounts] at hsame'
          refine .inl ⟨.union items, _, rfl, .union hne, fun hclash => ?_⟩
          cases hclash with
          | left he' hclash =>
            obtain ⟨rfl, rfl, rfl⟩ := hsame he'
            exact hnleft hclash
          | right he' hn' hclash =>
            obtain ⟨rfl, rfl, rfl⟩ := hsame he'
            obtain ⟨rfl, rfl⟩ := Yields.unique hn hn'
            exact hnright hclash
          | here he' hn' hm' hdiffer =>
            obtain ⟨rfl, rfl, rfl⟩ := hsame he'
            obtain ⟨rfl, rfl⟩ := Yields.unique hn hn'
            obtain ⟨rfl, rfl⟩ := Yields.unique hm hm'
            exact hsame' hdiffer
        | error error =>
          obtain ⟨expected, actual, rfl⟩ := checkColumns_eq_error hcheck
          have hdiffer : Differ (columnCounts schema n ++ rightColumnCounts schema kind m) := by
            rw [← hcounts]
            by_contra hsame'
            rw [checkColumns_eq_ok_iff.2 hsame'] at hcheck
            cases hcheck
          exact .inr ⟨expected, actual, _, rfl, .here he hn hm hdiffer⟩
      · rw [exec_bind_ok _ hn, exec_bind_error _ hm]
        exact .inr ⟨expected, actual, _, rfl, .right he hn hclash⟩
    · rw [exec_bind_error _ hn]
      exact .inr ⟨expected, actual, _, rfl, .left he hclash⟩

/-- What a tree of union calls is lowered to. If the lowering succeeds, it has a list of queries that has the
rows of the tree, whatever rows the queries of its leaves have; a leaf has at least one query, as closed
queries do. If every leaf becomes a closed query, the lowering fails exactly if at some call two of the queries
put together have different numbers of columns, and that is the cause it gives. -/
theorem lower_union_calls (schema : Schema) (e : Expr) (cx : Context) :
    (∀ n cx', e.unionCall?.isSome → Yields schema (e.lower Recognizer.standard) cx n cx' →
      ∃ items tree, n = .union items ∧ UnionOf schema e none cx tree ∧
        (LeavesClosed schema e none cx → ∀ queries ∈ tree.leaves, queries ≠ []) ∧
        ((∀ queries ∈ tree.leaves, queries ≠ []) → ∀ (Row : Type) [DecidableEq Row] (rows : Derived → Multiset Row),
            itemsBag rows items = tree.bag (itemsBag rows))) ∧ (LeavesClosed schema e none cx →
      ((∃ error cx', (e.lower Recognizer.standard).exec schema cx = (.error error, cx')) ↔ Clashes schema e none cx) ∧
      ∀ error cx', (e.lower Recognizer.standard).exec schema cx = (.error error, cx') →
        ∃ expected actual, error = .arity "columns of a union member" expected actual) := by
  refine ⟨fun n cx' hcall hn => ?_, fun hclosed => ?_⟩
  · obtain ⟨⟨kind, left, right⟩, hcall⟩ := Option.isSome_iff_exists.1 hcall
    obtain ⟨items, rfl⟩ : ∃ items, n = .union items := by
      have hn : Yields schema (e.run false none) cx n cx' := hn
      rw [visit_unionCall hcall, yields_withFrame] at hn
      obtain ⟨after, hn, -⟩ := hn
      simp only [yields_bind] at hn
      obtain ⟨_, _, -, _, _, -, hunion⟩ := hn
      obtain ⟨_, _, items, rfl, -⟩ := bag_union hunion
      exact ⟨items, rfl⟩
    obtain ⟨tree, htree, hbag⟩ := bag_visit e hn (queriesOf_union.2 rfl)
    exact ⟨items, tree, rfl, htree, htree.leaves_ne_nil, fun hleaves => (hbag hleaves).2⟩
  · rw [Expr.lower]
    rcases exec_visit_of_leavesClosed hclosed with ⟨n, after, hn, -, hclash⟩ | ⟨expected, actual, after, hn, hclash⟩
    · rw [hn]
      simp [hclash]
    · rw [hn]
      simp [hclash]

namespace Sample

/-- A schema of students and courses. -/
def studySchema : Schema := ⟨[student.toEntity, course.toEntity]⟩

/-- All courses without duplicates, from three copies of them. -/
def coursesThrice : Expr :=
  ((Query.ofEntity "Course").union ((Query.ofEntity "Course").unionAll (Query.ofEntity "Course"))).expr

/-- All students and all courses. -/
def studentsAndCourses : Expr := ((Query.ofEntity "Student").unionAll (Query.ofEntity "Course")).expr

theorem leavesClosed_ofEntity {name : String} (hname : name = "Course" ∨ name = "Student") (index : Option Nat)
    (cx : Context) : LeavesClosed studySchema (Query.ofEntity name).expr index cx := by
  rcases hname with rfl | rfl <;> exact .leaf rfl rfl (.table rfl)

theorem leavesClosed_coursesThrice (cx : Context) : LeavesClosed studySchema coursesThrice none cx :=
  .node rfl (leavesClosed_ofEntity (.inl rfl) _ _) fun _ _ _ =>
    .node rfl (leavesClosed_ofEntity (.inl rfl) _ _) fun _ _ _ => leavesClosed_ofEntity (.inl rfl) _ _

theorem leavesClosed_studentsAndCourses (cx : Context) : LeavesClosed studySchema studentsAndCourses none cx :=
  .node rfl (leavesClosed_ofEntity (.inr rfl) _ _) fun _ _ _ => leavesClosed_ofEntity (.inl rfl) _ _

/-- The courses are lowered to queries with the rows of their tree; students and courses have different
numbers of columns. -/
theorem coursesThrice_rows :
    (∃ items tree cx', Yields studySchema (coursesThrice.lower Recognizer.standard) .empty (.union items) cx' ∧
      UnionOf studySchema coursesThrice none .empty tree ∧
        ∀ rows : Derived → Multiset Nat, itemsBag rows items = tree.bag (itemsBag rows)) ∧
    Clashes studySchema studentsAndCourses none .empty := by
  obtain ⟨n, cx', hn, -⟩ : ∃ n cx', Yields studySchema (coursesThrice.lower Recognizer.standard) .empty n cx' ∧ True :=
    exists_yields (by decide +kernel)
  have hfails : ((studentsAndCourses.lower Recognizer.standard).exec studySchema .empty).1.isOk = false := by
    decide +kernel
  constructor
  · obtain ⟨items, tree, rfl, htree, hleaves, hbag⟩ :=
      (lower_union_calls studySchema coursesThrice .empty).1 n cx' rfl hn
    exact ⟨items, tree, cx', hn, htree, hbag (hleaves (leavesClosed_coursesThrice _)) Nat⟩
  · rcases hn : (studentsAndCourses.lower Recognizer.standard).exec studySchema .empty with ⟨error | n, cx'⟩
    · exact ((lower_union_calls studySchema studentsAndCourses .empty).2
        (leavesClosed_studentsAndCourses _)).1.1 ⟨error, cx', hn⟩
    · rw [hn] at hfails
      cases hfails

end Sample

end QueryLowering
