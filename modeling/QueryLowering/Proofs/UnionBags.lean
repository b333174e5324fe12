import Mathlib.Data.Multiset.Dedup
import QueryLowering.Lower.Union

/-!
# The rows of a union

The queries of a union are put together from left to right: `UNION ALL` adds the rows of the next query,
and `UNION` adds them and then drops what is there more than once, whichever query it came from. How the
first query is combined does not count, since nothing stands before it.

A closed select may do nothing but read a union, column by column in their order. Its rows are those of
the union. Every other closed select is taken as it is: its rows are given.

## Main results

* `itemsBag_append`: queries that are all combined in one way can be added one by one.
* `bag_of_passes`: a closed select that only reads a union has its rows.
-/

namespace QueryLowering

namespace Sql

section

variable {Row : Type} [DecidableEq Row]

/-- The rows so far and those of the next query, put together. -/
def UnionKind.combine : UnionKind → Multiset Row → Multiset Row → Multiset Row
  | .unionAll, found, next => found + next
  | .union, found, next => (found + next).dedup

/-- Unions of unions over queries of some kind. -/
inductive UnionTree (α : Type) where
  | leaf (query : α)
  | node (kind : UnionKind) (left right : UnionTree α)

namespace UnionTree

variable {α : Type}

/-- The queries from left to right. -/
def leaves : UnionTree α → List α
  | leaf a => [a]
  | node _ left right => left.leaves ++ right.leaves

/-- The rows of a tree, from the rows of its queries. -/
def bag (rows : α → Multiset Row) : UnionTree α → Multiset Row
  | leaf a => rows a
  | node kind left right => kind.combine (left.bag rows) (right.bag rows)

end UnionTree

/-- Rows that are put together in one way can be put together in any order of steps. -/
theorem UnionKind.combine_assoc (kind : UnionKind) (a b c : Multiset Row) :
    kind.combine (kind.combine a b) c = kind.combine a (kind.combine b c) := by
  cases kind with
  | unionAll => exact Multiset.add_assoc a b c
  | union =>
    simp only [combine]
    rw [Multiset.dedup_ext]
    intro row
    simp only [Multiset.mem_add, Multiset.mem_dedup, or_assoc]

end

/-- Whether columns are those of a data source under the given names, in their order. -/
def passesColumns (a : Alias) : List (Path × String) → List OutputColumn → Bool
  | [], [] => true
  | (_, name) :: names, ⟨_, _, .column b column⟩ :: columns =>
    a == b && name == column && passesColumns a names columns
  | _, _ => false

/-- Whether a select with given output columns does nothing but read a union. -/
def Select.passes (s : Select) (columns : List OutputColumn) : Bool :=
  match s with
  | { sources := [⟨a, .union items, none, none⟩], projection := none, filter := none, groupBy := none,
      groupElement := none, having := none, orderBy := [], top := none, skip := none, distinct := false,
      defaultIfEmpty := false, ctes := [] } => passesColumns a (unionColumnPaths items) columns
  | _ => false

section

variable {Row : Type} [DecidableEq Row] (rows : Derived → Multiset Row)

mutual

/-- The rows of the queries of a union. -/
def itemsBag (items : List UnionItem) : Multiset Row :=
  match items with
  | [] => 0
  | { query, .. } :: rest => furtherBag (query.bag) rest
termination_by structural items

/-- The rows so far and those of further queries of a union. -/
def furtherBag (found : Multiset Row) (items : List UnionItem) : Multiset Row :=
  match items with
  | [] => found
  | { query, kind } :: rest => furtherBag (kind.combine found query.bag) rest
termination_by structural items

/-- The rows of a closed select. -/
def Derived.bag (d : Derived) : Multiset Row :=
  match d with
  | { id, select, columns } =>
    if select.passes columns then select.bag else rows { id, select, columns }
termination_by structural d

/-- The rows of the union that a select reads. -/
def Select.bag (s : Select) : Multiset Row :=
  match s with
  | { sources, .. } => sourcesBag sources
termination_by structural s

/-- The rows of the union that the first of some data sources reads. -/
def sourcesBag (sources : List DataSource) : Multiset Row :=
  match sources with
  | { relation, .. } :: _ => relation.bag
  | [] => 0
termination_by structural sources

/-- The rows of a relation that is a union. -/
def Relation.bag (r : Relation) : Multiset Row :=
  match r with
  | .union items => itemsBag items
  | _ => 0
termination_by structural r

end

variable {rows}

/-! ## Adding queries -/

@[simp]
theorem furtherBag_nil (found : Multiset Row) : furtherBag rows found [] = found := by
  rw [furtherBag]

@[simp]
theorem furtherBag_cons (found : Multiset Row) (i : UnionItem) (rest : List UnionItem) :
    furtherBag rows found (i :: rest) = furtherBag rows (i.kind.combine found (i.query.bag rows)) rest := by
  cases i
  rw [furtherBag]

@[simp]
theorem itemsBag_cons (i : UnionItem) (rest : List UnionItem) :
    itemsBag rows (i :: rest) = furtherBag rows (i.query.bag rows) rest := by
  cases i
  rw [itemsBag]

theorem furtherBag_append (found : Multiset Row) (first second : List UnionItem) :
    furtherBag rows found (first ++ second) = furtherBag rows (furtherBag rows found first) second := by
  induction first generalizing found with
  | nil => rw [List.nil_append, furtherBag_nil]
  | cons i rest ih =>
    rw [List.cons_append, furtherBag_cons, furtherBag_cons]
    exact ih _

/-- Queries that are all combined in one way can be put together before they are added. -/
theorem furtherBag_combine {kind : UnionKind} {items : List UnionItem} (h : ∀ i ∈ items, i.kind = kind)
    (found next : Multiset Row) :
    furtherBag rows (kind.combine found next) items = kind.combine found (furtherBag rows next items) := by
  induction items generalizing next with
  | nil => rw [furtherBag_nil, furtherBag_nil]
  | cons i rest ih =>
    rw [List.forall_mem_cons] at h
    obtain ⟨rfl, hrest⟩ := h
    rw [furtherBag_cons, furtherBag_cons, UnionKind.combine_assoc]
    exact ih hrest _

/-- The queries of a union whose queries are all combined in one way, added to other queries in that
way. -/
theorem itemsBag_append {kind : UnionKind} {first second : List UnionItem} (hfirst : first ≠ [])
    (hsecond : second ≠ []) (hkind : combinesOnlyBy kind second = true) :
    itemsBag rows (first ++ combineFirst kind second) = kind.combine (itemsBag rows first) (itemsBag rows second) := by
  obtain ⟨i, first, rfl⟩ := List.exists_cons_of_ne_nil hfirst
  obtain ⟨j, second, rfl⟩ := List.exists_cons_of_ne_nil hsecond
  have hrest : ∀ i ∈ second, i.kind = kind := by
    simpa [combinesOnlyBy] using hkind
  calc itemsBag rows (i :: first ++ combineFirst kind (j :: second))
      = furtherBag rows (furtherBag rows (i.query.bag rows) first) ({ j with kind := kind } :: second) := by
        rw [combineFirst, List.cons_append, itemsBag_cons, furtherBag_append]
    _ = furtherBag rows (kind.combine (itemsBag rows (i :: first)) (j.query.bag rows)) second := by
        rw [furtherBag_cons, itemsBag_cons]
    _ = kind.combine (itemsBag rows (i :: first)) (itemsBag rows (j :: second)) := by
        rw [furtherBag_combine hrest, itemsBag_cons j second]

theorem itemsBag_singleton (d : Derived) (kind : UnionKind) : itemsBag rows [⟨d, kind⟩] = d.bag rows := by
  rw [itemsBag_cons, furtherBag_nil]

/-! ## Reading a union -/

theorem passesColumns_nameColumns (a : Alias) (names : List (Path × String)) (used : List String) :
    passesColumns a names (nameColumnsFrom used (names.map fun (p, name) => (p, Node.column a name))) = true := by
  induction names generalizing used with
  | nil => rfl
  | cons n rest ih =>
    simp only [List.map_cons, nameColumnsFrom, passesColumns, beq_self_eq_true, Bool.true_and]
    exact ih _

/-- A closed select that only reads a union has the rows of the union. -/
theorem bag_of_passes {id a : Alias} {items : List UnionItem} {columns : List OutputColumn}
    (h : passesColumns a (unionColumnPaths items) columns = true) :
    (Derived.mk id { Select.empty with sources := [⟨a, .union items, none, none⟩] } columns).bag rows =
      itemsBag rows items := by
  have hpasses : Select.passes { Select.empty with sources := [⟨a, .union items, none, none⟩] } columns = true := h
  rw [Derived.bag, if_pos hpasses, Select.bag, sourcesBag, Relation.bag]

end

end Sql

end QueryLowering
