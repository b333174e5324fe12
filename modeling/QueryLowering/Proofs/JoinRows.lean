import QueryLowering.Proofs.Modifications

/-!
# The rows of joins

The data sources of a select are joined one after the other. Each join goes on with the combinations of rows before
it: it adds a row to a combination, leaves a combination without one, or starts a combination with a row that has no
match. The condition on rows comes last.

A condition on the rows before a join can be tested before the join or after it, as long as the join keeps no rows of
its own. A join that does so adds combinations in which the rows before it are missing. Then the condition after the
join drops rows that the condition before it would have let through.

What conditions and other expressions mean is left open, and so are the rows of relations other than tables.

## Main results

* `Sql.JoinKind.perm_filter_combine`: a condition on the rows before a join, tested before the join and after it.
-/

namespace QueryLowering

open Sql List

/-! ## Combinations of rows -/

/-- The row that each alias stands for. It is none for an alias that is not read, and for one whose row is missing. -/
abbrev Combination : Type := Alias → Option (String → Literal)

/-- What tables hold and what conditions mean, and what the other relations and expressions do. -/
structure Meanings extends Conditions (String → Literal) where
  contents : Contents
  /-- The rows of a relation other than a table. They may hang on the rows before it. -/
  rows : Relation → Combination → List (String → Literal)
  /-- The value of an expression other than a column. -/
  value : Node → Combination → Literal

namespace Meanings

variable (k : Meanings)

/-- The rows of a relation. -/
def relationRows : Relation → Combination → List (String → Literal)
  | .table t, _ => k.contents t
  | r, c => k.rows r c

/-- The value of an expression. The columns of a row that is missing are null. -/
def cell : Node → Combination → Literal
  | .column a name, c => (c a).elim .null (· name)
  | n, c => k.value n c

/-- Whether a condition, if there is one, is true. -/
def holds (condition : Option Node) (c : Combination) : Bool := condition.all fun n => k.truth n c == some true

end Meanings

/-- No rows. -/
def Combination.nothing : Combination := fun _ => none

/-- A combination with a row added to it. -/
def Combination.with (c : Combination) (a : Alias) (row : String → Literal) : Combination :=
  Function.update c a (some row)

section

variable (on : Combination → Bool) (a : Alias)

/-- A combination with each row that matches it. -/
def pairings (rows : List (String → Literal)) (c : Combination) : List Combination := (rows.map (c.with a)).filter on

/-- Whether a row matches none of some combinations. -/
def isUnmatched (before : List Combination) (row : String → Literal) : Bool := before.all fun c => !on (c.with a row)

/-- The joined rows that a condition on the rows before the join drops when it is tested after the join. They match no
combination that satisfies the condition, and either they match another one or the condition is not true without
rows. -/
def dropped (keep : Combination → Bool) (before : List Combination) (rows : List (String → Literal)) :
    List (String → Literal) := rows.filter fun row => isUnmatched on a (before.filter keep) row &&
    !(keep .nothing && isUnmatched on a before row)

end

namespace Sql

namespace JoinKind

/-- Whether a join keeps the combinations before it that have no match. -/
def keepsLeft : JoinKind → Bool
  | left | fullOuter | outerApply => true
  | inner | right | cross | crossApply => false

/-- Whether a join keeps the joined rows that have no match. -/
def keepsRight : JoinKind → Bool
  | right | fullOuter => true
  | inner | left | cross | crossApply | outerApply => false

variable (kind : JoinKind) (on : Combination → Bool) (a : Alias)

/-- What a join makes of a combination before it. -/
def extend (rows : List (String → Literal)) (c : Combination) : List Combination :=
  if kind.keepsLeft && (pairings on a rows c).isEmpty then [c] else pairings on a rows c

/-- The combinations that a join makes of those before it. -/
def combine (before : List Combination) (rows : Combination → List (String → Literal)) : List Combination :=
  (before.flatMap fun c => kind.extend on a (rows c) c) ++
    if kind.keepsRight then ((rows .nothing).filter (isUnmatched on a before)).map (Combination.nothing.with a)
    else []

/-- The combinations that are missing from a join of all combinations, if a condition on the rows before the join is
tested after it. -/
def lost (keep : Combination → Bool) (before : List Combination) (rows : List (String → Literal)) : List Combination :=
  if kind.keepsRight then (dropped on a keep before rows).map (Combination.nothing.with a) else []

end JoinKind

/-! ## The rows of a query -/

variable (k : Meanings)

/-- Joins a data source. The first one starts the combinations. -/
def DataSource.joinTo (before : List Combination) (d : DataSource) : List Combination :=
  match d.join with
  | some j => j.kind.combine (k.holds j.condition) d.name before (k.relationRows d.relation)
  | none => JoinKind.cross.combine (fun _ => true) d.name before (k.relationRows d.relation)

/-- The combinations of the rows of data sources. -/
def sourceCombinations (sources : List DataSource) : List Combination := sources.foldl (DataSource.joinTo k) [.nothing]

/-- The combinations of the rows of the data sources of a select. -/
def Select.combinations (s : Select) : List Combination := sourceCombinations k s.sources

/-- The combinations that the condition on rows lets through. -/
def Select.found (s : Select) : List Combination := (s.combinations k).filter (k.holds s.filter)

/-- Whether a select has no clauses but a condition on rows and a projection. -/
def Select.isBasic (s : Select) : Bool := s.isPlain && !s.isPaged && !s.distinct

/-- The output row for a combination, with the value at each path. -/
def outputRow (columns : List OutputColumn) (c : Combination) : List (Path × Literal) :=
  columns.map fun o => (o.path, k.cell o.expr c)

/-- The rows of a query whose select has a condition on rows and a projection only. -/
def Body.rows? : Body → Option (List (List (Path × Literal)))
  | .query d => if d.select.isBasic then some ((d.select.found k).map (outputRow k d.columns)) else none
  | .update _ | .delete _ => none

end Sql

/-! ## Conditions before and after a join -/

section

variable {on keep : Combination → Bool} {a : Alias}

theorem pairings_eq_map (rows : List (String → Literal)) (c : Combination) :
    pairings on a rows c = (rows.filter fun row => on (c.with a row)).map (c.with a) := by
  rw [pairings, filter_map]
  rfl

/-- What a join makes of a combination satisfies a condition on the rows before the join if the combination does. -/
theorem Sql.JoinKind.keep_of_mem_extend (hkeep : ∀ c row, keep (c.with a row) = keep c) {kind : JoinKind}
    {rows : List (String → Literal)} {c c' : Combination} (h : c' ∈ kind.extend on a rows c) : keep c' = keep c := by
  unfold extend at h
  split at h
  · rw [mem_singleton.1 h]
  · rw [pairings_eq_map] at h
    obtain ⟨row, -, rfl⟩ := mem_map.1 h
    exact hkeep c row

theorem filter_flatMap_of_keep {f : Combination → List Combination} (hf : ∀ c, ∀ c' ∈ f c, keep c' = keep c)
    (before : List Combination) : (before.flatMap f).filter keep = (before.filter keep).flatMap f := by
  induction before with
  | nil => rfl
  | cons c rest ih =>
    rw [flatMap_cons, filter_append, ih, filter_cons]
    cases hc : keep c with
    | true =>
      have hall : (f c).filter keep = f c := filter_eq_self.2 fun c' hc' => (hf c c' hc').trans hc
      rw [hall]
      rfl
    | false =>
      have hnone : (f c).filter keep = [] := by
        rw [filter_eq_nil_iff]
        intro c' hc'
        rw [hf c c' hc', hc]
        exact Bool.false_ne_true
      rw [hnone]
      rfl

theorem isUnmatched_of_filter {before : List Combination} {row : String → Literal}
    (h : isUnmatched on a before row = true) : isUnmatched on a (before.filter keep) row = true := by
  rw [isUnmatched, all_eq_true] at h ⊢
  exact fun c hc => h c (mem_of_mem_filter hc)

/-- The joined rows that match no combination that is kept are those that are still there after a condition on the
rows before the join, and those that it drops. -/
theorem perm_unmatched (before : List Combination) (rows : List (String → Literal)) :
    (rows.filter (isUnmatched on a (before.filter keep))).Perm
      ((if keep .nothing then rows.filter (isUnmatched on a before) else []) ++ dropped on a keep before rows) := by
  have hdropped : (rows.filter (isUnmatched on a (before.filter keep))).filter
      (fun row => !(keep .nothing && isUnmatched on a before row)) = dropped on a keep before rows := by
    rw [filter_filter, dropped]
    exact filter_congr fun row _ => Bool.and_comm _ _
  have hleft : (rows.filter (isUnmatched on a (before.filter keep))).filter
      (fun row => keep .nothing && isUnmatched on a before row) =
        if keep .nothing then rows.filter (isUnmatched on a before) else [] := by
    rw [filter_filter]
    cases keep .nothing with
    | true =>
      refine filter_congr fun row _ => ?_
      rw [Bool.true_and, Bool.and_eq_left_iff_imp]
      exact isUnmatched_of_filter
    | false => simp
  rw [← hdropped, ← hleft]
  exact (filter_append_perm _ _).symm

/-- **A condition on the rows before a join.** The join of the combinations that satisfy the condition has the
combinations of the join of all of them that do, and beside them those that are lost.

**Proof sketch.** What the join makes of a combination satisfies the condition if the combination does. A joined row
without a match is left out after the join if it matched a combination that the condition drops, and all of them
are if the condition is not true without rows. -/
theorem Sql.JoinKind.perm_filter_combine (kind : JoinKind) (hkeep : ∀ c row, keep (c.with a row) = keep c)
    (before : List Combination) (rows : List (String → Literal)) :
    (kind.combine on a (before.filter keep) fun _ => rows).Perm
      ((kind.combine on a before fun _ => rows).filter keep ++ kind.lost on a keep before rows) := by
  have hextend : (before.flatMap fun c => kind.extend on a rows c).filter keep =
      (before.filter keep).flatMap fun c => kind.extend on a rows c :=
    filter_flatMap_of_keep (fun c c' hc' => keep_of_mem_extend hkeep hc') before
  rw [combine, combine, lost, filter_append, hextend]
  cases hright : kind.keepsRight with
  | false => simp
  | true =>
    simp only [↓reduceIte]
    rw [append_assoc]
    refine List.Perm.append_left _ ?_
    have hunmatched : ((rows.filter (isUnmatched on a before)).map (Combination.nothing.with a)).filter keep =
        (if keep .nothing then rows.filter (isUnmatched on a before) else []).map (Combination.nothing.with a) := by
      rw [filter_map]
      have hcomp : keep ∘ Combination.nothing.with a = fun _ => keep .nothing := funext fun row => hkeep _ row
      rw [hcomp]
      cases keep .nothing with
      | true => simp
      | false => simp
    rw [hunmatched, ← map_append]
    exact (perm_unmatched before rows).map _

/-- Nothing is lost by a join that keeps no rows of its own, and nothing if the condition is always true. -/
theorem Sql.JoinKind.lost_eq_nil {kind : JoinKind} (h : kind.keepsRight = false ∨ ∀ c, keep c = true)
    (before : List Combination) (rows : List (String → Literal)) : kind.lost on a keep before rows = [] := by
  unfold lost
  split
  · next hright =>
    have hkeep : ∀ c, keep c = true := h.resolve_left (by simp [hright])
    rw [dropped, filter_eq_self.2 fun c _ => hkeep c, hkeep]
    simp
  · rfl

end

end QueryLowering
