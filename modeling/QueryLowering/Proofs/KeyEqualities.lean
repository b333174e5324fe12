import Mathlib.Data.List.Induction
import QueryLowering.Proofs.Wrapping
import QueryLowering.Schema.Sample

/-!
# Equality column by column

Two values are equal if their columns are, paired by their places. A row of an entity has the columns of its primary
key for that, if there are any, and any other value has all of its columns. This file says what these columns are
without the paths that flattening keeps, and that no column of either side is left out of the condition.

## Main definitions

* `Scope.Columns`: the single columns of a value, at any nesting.
* `Scope.Keys`: the columns by which a value is compared.
* `Sql.Compares`, `Sql.Conjoins`: the comparison of two columns, and conditions joined from the left.

## Main results

* `Scope.columns_of_flatten`: flattening finds the columns of a value.
* `Scope.keys_of_keyLeaves`: the columns that are found are those by which a value is compared.
* `Scope.equality_of_keys`: the condition that two values are equal, and when there is none.
-/

namespace QueryLowering

open Sql Result

variable {a : Alias} {l r n : Node} {ls rs : List Node}

/-! ## The columns of a value -/

namespace Scope

section

variable (schema : Schema) (sc : Scope)

/-- The single columns of a value, in their order. A row has the columns of its table or of the query that it comes
from, a group has those of its key, and a query is one column. -/
inductive Columns : Node → List Node → Prop
  | nil : Columns (.composite []) []
  | cons {path : Path} {n : Node} {rest : List (Path × Node)} {ls ms : List Node} (hn : Columns n ls)
      (hrest : Columns (.composite rest) ms) : Columns (.composite ((path, n) :: rest)) (ls ++ ms)
  | entity {a : Alias} {entity : String} {columns : List Column} (ha : sc.shape? a = some (.entity entity))
      (hcolumns : schema.columns entity = .ok columns) : Columns (.source a) (columns.map fun c => .column a c.column)
  | row {a : Alias} {columns : List (Path × String)} {entity : Option String}
      (ha : sc.shape? a = some (.columns columns entity)) : Columns (.source a) (columns.map fun c => .column a c.2)
  | group {key element : Node} {ls : List Node} (hkey : Columns key ls) : Columns (.grouping key element) ls
  | query (d : Derived) : Columns (.derived d) [.subquery d]
  | single {n : Node} (hn : n.isSingle = true) : Columns n [n]

/-- The columns by which a value is compared. -/
inductive Keys : Node → List Node → Prop
  /-- A row of an entity with a primary key has the columns of that. -/
  | key {a : Alias} {shape : SourceShape} {entity : String} {keys : List String} {ls : List Node}
      (ha : sc.shape? a = some shape) (hentity : shape.entity? = some entity)
      (hkeys : schema.primaryKeys entity = .ok keys) (hne : keys ≠ [])
      (hls : List.Forall₂ (fun k n => sc.resolvePath schema a [k] = .ok n) keys ls) : Keys (.source a) ls
  /-- Any other row has all of its columns. -/
  | row {a : Alias} {shape : SourceShape} {ls : List Node} (ha : sc.shape? a = some shape)
      (hkeys : ∀ entity ∈ shape.entity?, schema.primaryKeys entity = .ok []) (hls : Columns schema sc (.source a) ls) :
      Keys (.source a) ls
  | composite {entries : List (Path × Node)} {ls : List Node} (hls : Columns schema sc (.composite entries) ls) :
      Keys (.composite entries) ls
  | value {n : Node} (hn : n.isMultiColumn = false) : Keys n [n]

end

variable {schema : Schema} {sc : Scope}

theorem shape_eq_ok {shape : SourceShape} : sc.shape a = .ok shape ↔ sc.shape? a = some shape := orThrow_eq_ok

theorem columns_sourceLeaves {leaves : List (Path × Node)} (h : sc.sourceLeaves schema a = .ok leaves) :
    Columns schema sc (.source a) (leaves.map (·.2)) := by
  simp only [sourceLeaves, bind_eq_ok] at h
  obtain ⟨shape, hshape, h⟩ := h
  rw [shape_eq_ok] at hshape
  split at h
  · simp only [bind_eq_ok, pure_eq_ok] at h
    obtain ⟨columns, hcolumns, rfl⟩ := h
    rw [List.map_map]
    exact .entity hshape hcolumns
  · obtain rfl := pure_eq_ok.1 h
    rw [List.map_map]
    exact .row hshape

mutual

/-- Flattening finds the columns of a value. -/
theorem columns_of_flatten {base : Path} {n : Node} {out : List (Path × Node)}
    (h : sc.flatten schema base n = .ok out) : Columns schema sc n (out.map (·.2)) := by
  cases n with
  | composite entries => exact columns_of_flattenEntries h
  | source a =>
    simp only [flatten, bind_eq_ok, pure_eq_ok] at h
    obtain ⟨leaves, hleaves, rfl⟩ := h
    rw [List.map_map]
    exact columns_sourceLeaves hleaves
  | grouping key element => exact .group (columns_of_flatten h)
  | derived d =>
    obtain rfl := pure_eq_ok.1 h
    exact .query d
  | select | placeholder | table | union | update | delete => exact absurd h throw_ne_ok
  | _ =>
    obtain rfl := pure_eq_ok.1 h
    exact .single rfl

theorem columns_of_flattenEntries {base : Path} {entries out : List (Path × Node)}
    (h : sc.flattenEntries schema base entries = .ok out) : Columns schema sc (.composite entries) (out.map (·.2)) := by
  cases entries with
  | nil =>
    obtain rfl := pure_eq_ok.1 h
    exact .nil
  | cons entry rest =>
    obtain ⟨path, n⟩ := entry
    simp only [flattenEntries, bind_eq_ok, pure_eq_ok] at h
    obtain ⟨first, hfirst, others, hothers, rfl⟩ := h
    rw [List.map_append]
    exact .cons (columns_of_flatten hfirst) (columns_of_flattenEntries hothers)

end

/-- The columns by which a row is compared are those of its key, or all of them. -/
theorem keys_source (h : sc.keyLeaves schema (.source a) = .ok ls) :
    Keys schema sc (.source a) ls := by
  simp only [keyLeaves, rowKey?, bind_eq_ok, shape_eq_ok] at h
  obtain ⟨found, ⟨shape, ha, hfound⟩, h⟩ := h
  have hall : found = none → Columns schema sc (.source a) ls := by
    rintro rfl
    simp only [Node.isMultiColumn, ↓reduceIte, bind_eq_ok, pure_eq_ok] at h
    obtain ⟨out, hout, rfl⟩ := h
    exact columns_of_flatten hout
  cases hentity : shape.entity? with
  | none =>
    rw [hentity] at hfound
    exact .row ha (by simp [hentity]) (hall (pure_eq_ok.1 hfound).symm)
  | some entity =>
    simp only [hentity, bind_eq_ok] at hfound
    obtain ⟨keys, hkeys, hfound⟩ := hfound
    cases keys with
    | nil => exact .row ha (by simpa [hentity] using hkeys) (hall (pure_eq_ok.1 hfound).symm)
    | cons k rest =>
      simp only [bind_eq_ok, pure_eq_ok, mapM_eq_ok] at hfound
      obtain ⟨ls', hls, rfl⟩ := hfound
      obtain rfl := pure_eq_ok.1 h
      exact .key ha hentity hkeys (List.cons_ne_nil k rest) hls

/-- The columns that are found are those by which a value is compared. -/
theorem keys_of_keyLeaves (h : sc.keyLeaves schema n = .ok ls) : Keys schema sc n ls := by
  cases n with
  | source a => exact keys_source h
  | composite entries =>
    simp only [keyLeaves, rowKey?, Node.isMultiColumn, pure_bind, ↓reduceIte, bind_eq_ok, pure_eq_ok] at h
    obtain ⟨out, hout, rfl⟩ := h
    exact .composite (columns_of_flatten hout)
  | _ =>
    obtain rfl := pure_eq_ok.1 h
    exact .value rfl

end Scope

/-! ## Conditions -/

namespace Sql

/-- The comparison of two columns. With the null literal it is a test of the other side. -/
inductive Compares : Node → Node → Node → Prop
  | nullRight (l : Node) : Compares l (.literal .null) (.isNull l false)
  | nullLeft (r : Node) : Compares (.literal .null) r (.isNull r false)
  | equal {l r : Node} (hl : l ≠ .literal .null) (hr : r ≠ .literal .null) : Compares l r (.binary .eq l r)

/-- Conditions joined by conjunctions that nest to the left. -/
inductive Conjoins : List Node → Node → Prop
  | single (c : Node) : Conjoins [c] c
  | snoc {cs : List Node} {n : Node} (h : Conjoins cs n) (c : Node) : Conjoins (cs ++ [c]) (.binary .and n c)

theorem ne_null_of_isNullLiteral (h : n.isNullLiteral = false) : n ≠ .literal .null := by
  rintro rfl
  cases h

theorem eq_null_of_isNullLiteral (h : n.isNullLiteral = true) : n = .literal .null := by
  unfold Node.isNullLiteral at h
  split at h
  · rfl
  · cases h

theorem compares_operation (l r : Node) : Compares l r (Node.operation .eq l r) := by
  cases hr : r.isNullLiteral with
  | true =>
    obtain rfl := eq_null_of_isNullLiteral hr
    exact .nullRight l
  | false =>
    cases hl : l.isNullLiteral with
    | true =>
      obtain rfl := eq_null_of_isNullLiteral hl
      have htest : Node.operation .eq (.literal .null) r = .isNull r false := by
        simp [Node.operation, hr, hl, Node.isEquality]
      rw [htest]
      exact .nullLeft r
    | false =>
      have hequal : Node.operation .eq l r = .binary .eq l r := by simp [Node.operation, hr, hl]
      rw [hequal]
      exact .equal (ne_null_of_isNullLiteral hl) (ne_null_of_isNullLiteral hr)

/-- A conjunction joins all of its conditions in their order. -/
theorem exists_conjoins {cs : List Node} (hcs : cs ≠ []) : ∃ n, conjunction cs = some n ∧ Conjoins cs n := by
  obtain ⟨c, rest, rfl⟩ := List.exists_cons_of_ne_nil hcs
  refine ⟨_, rfl, ?_⟩
  induction rest using List.reverseRec with
  | nil => exact .single c
  | append_singleton rest last ih =>
    rw [List.foldl_append, ← List.cons_append]
    exact (ih (by simp)).snoc last

end Sql

namespace Scope

variable {schema : Schema} {sc : Scope}

/-- The condition that two values are equal, from the columns by which they are compared. -/
theorem equality_eq (hl : sc.keyLeaves schema l = .ok ls) (hr : sc.keyLeaves schema r = .ok rs) :
    sc.equality schema l r =
    if ls.length = rs.length then orThrow (.invalidState .emptyKey)
      (conjunction (List.zipWith (fun l r => Node.operation .eq l.asScalar r.asScalar) ls rs))
    else throw (.arity "key equality" ls.length rs.length) := by
  rw [equality, hl, hr]
  rfl

/-- **Equality drops no column.** Take two values whose columns to be compared are found: those of the primary key of a
row of an entity, or else all columns of a row or of a value of members, or the value itself. If the numbers of
columns differ, the refusal names both. If neither value has a column, that is a breach. In all other cases the condition
is a conjunction, nested to the left, of as many comparisons as there are columns on a side, each between the columns at
its place. A query in the place of a column is compared by its value. -/
theorem equality_of_keys (hl : sc.keyLeaves schema l = .ok ls) (hr : sc.keyLeaves schema r = .ok rs) :
    Keys schema sc l ls ∧ Keys schema sc r rs ∧
    (sc.equality schema l r = .error (.arity "key equality" ls.length rs.length) ↔ ls.length ≠ rs.length) ∧
    ((∃ breach, sc.equality schema l r = .error (.invalidState breach)) ↔ ls.length = 0 ∧ rs.length = 0) ∧
    (ls.length = rs.length → ls.length ≠ 0 → ∃ n cs, sc.equality schema l r = .ok n ∧ Conjoins cs n ∧
      cs.length = ls.length ∧ ∀ (i : Nat) (l r : Node), ls[i]? = some l → rs[i]? = some r →
        ∃ c, cs[i]? = some c ∧ Compares l.asScalar r.asScalar c) := by
  have hequality := equality_eq hl hr
  refine ⟨keys_of_keyLeaves hl, keys_of_keyLeaves hr, ?_⟩
  by_cases hlength : ls.length = rs.length
  · rw [if_pos hlength] at hequality
    by_cases hempty : ls.length = 0
    · obtain rfl := List.length_eq_zero_iff.1 hempty
      have hbreach : sc.equality schema l r = .error (.invalidState .emptyKey) := hequality
      refine ⟨⟨fun h => ?_, fun hne => absurd hlength hne⟩, ⟨fun _ => ⟨rfl, hlength.symm⟩, fun _ => ⟨_, hbreach⟩⟩,
        fun _ hne => absurd rfl hne⟩
      cases hbreach.symm.trans h
    · have hcount : (List.zipWith (fun l r => Node.operation .eq l.asScalar r.asScalar) ls rs).length = ls.length := by
        simp [hlength]
      obtain ⟨n, hn, hconjoins⟩ := exists_conjoins (List.ne_nil_of_length_pos (hcount ▸ Nat.pos_of_ne_zero hempty))
      rw [hn] at hequality
      have hok : sc.equality schema l r = .ok n := hequality
      refine ⟨⟨fun h => ?_, fun hne => absurd hlength hne⟩, ⟨?_, fun h => absurd h.1 hempty⟩,
        fun _ _ => ⟨n, _, hok, hconjoins, hcount, fun i l r hi hi' => ?_⟩⟩
      · cases hok.symm.trans h
      · rintro ⟨breach, h⟩
        cases hok.symm.trans h
      · exact ⟨_, by rw [List.getElem?_zipWith, hi, hi'], compares_operation ..⟩
  · rw [if_neg hlength] at hequality
    have hrefused : sc.equality schema l r = .error (.arity "key equality" ls.length rs.length) := hequality
    refine ⟨iff_of_true hrefused hlength, ⟨?_, fun h => absurd (h.1.trans h.2.symm) hlength⟩,
      fun heq => absurd heq hlength⟩
    rintro ⟨breach, h⟩
    cases hrefused.symm.trans h

end Scope

namespace Sample

/-- Enrollments of the table and of a query that names its columns. -/
def enrolledScope : Scope :=
  (Scope.empty.register ⟨1⟩ (.entity "Enrollment")).register ⟨2⟩
    (.columns [(["StudentId"], "S"), (["CourseId"], "C"), (["Grade"], "G")] (some "Enrollment"))

/-- A schema of enrollments only. -/
def enrollmentSchema : Schema := ⟨[enrollment.toEntity]⟩

/-- Rows of a two-column key are equal if both columns are, and inside of other values all columns count. A member
that is null on one side is tested for null on the other. -/
theorem enrolled_equality :
    (∃ n cs, enrolledScope.equality enrollmentSchema (.source ⟨1⟩) (.source ⟨2⟩) = .ok n ∧ Conjoins cs n ∧
      cs.length = 2) ∧ ∃ n cs, enrolledScope.equality enrollmentSchema
        (.composite [(["Of"], .source ⟨1⟩), (["In", "Note"], .literal .null)])
        (.composite [(["Of"], .source ⟨2⟩), (["In", "Note"], .column ⟨3⟩ "Note")]) = .ok n ∧ Conjoins cs n ∧
      cs.length = 4 ∧ cs[3]? = some (.isNull (.column ⟨3⟩ "Note") false) := by
  constructor
  · have hl : enrolledScope.keyLeaves enrollmentSchema (.source ⟨1⟩) =
        .ok [.column ⟨1⟩ "StudentId", .column ⟨1⟩ "CourseId"] := rfl
    have hr : enrolledScope.keyLeaves enrollmentSchema (.source ⟨2⟩) = .ok [.column ⟨2⟩ "S", .column ⟨2⟩ "C"] := rfl
    obtain ⟨-, -, -, -, hok⟩ := Scope.equality_of_keys hl hr
    obtain ⟨n, cs, hn, hcs, hlength, -⟩ := hok rfl (by decide)
    exact ⟨n, cs, hn, hcs, hlength⟩
  · have hl : enrolledScope.keyLeaves enrollmentSchema
        (.composite [(["Of"], .source ⟨1⟩), (["In", "Note"], .literal .null)]) = .ok _ := rfl
    have hr : enrolledScope.keyLeaves enrollmentSchema
        (.composite [(["Of"], .source ⟨2⟩), (["In", "Note"], .column ⟨3⟩ "Note")]) = .ok _ := rfl
    obtain ⟨-, -, -, -, hok⟩ := Scope.equality_of_keys hl hr
    obtain ⟨n, cs, hn, hcs, hlength, hcompares⟩ := hok rfl (by decide)
    obtain ⟨c, hc, hcompare⟩ := hcompares 3 _ _ rfl rfl
    cases hcompare with
    | nullLeft => exact ⟨n, cs, hn, hcs, hlength, hc⟩
    | equal hnull => exact absurd rfl hnull

end Sample

end QueryLowering
