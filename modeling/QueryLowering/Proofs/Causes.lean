import QueryLowering.Lower.Rule
import QueryLowering.Proofs.Result

/-!
# Causes of failure

A step that looks nothing up among the lent selects never fails because of them. The causes are found
by following each computation to the places where it can fail: a sequence of steps fails for a cause of
one of its steps.

## Main results

* `Modification.trace_keeps`: what an update or a deletion is traced back to.
* `Expr.plain_evaluate`, `Modification.plain_toUpdate`, …: what the lowering computes without a context.
-/

namespace QueryLowering

open Sql

variable {e : Error} {s schema : Schema} {entity name : String} {sc : Scope} {m : Modification}
variable {Q : Modification → Prop} {a : Alias}

/-- A select was taken back that is not the latest one lent, or one was looked up that is not lent. -/
@[simp]
def Error.OfLending : Error → Prop
  | .invalidState .reclaimedOutOfOrder => True
  | .invalidState .noQueryLent => True
  | .invalidState .ticketNotOutstanding => True
  | _ => False

namespace Result

variable {α β : Type}

/-- A result that is there, or whose absence has nothing to do with the lent selects. -/
def Plain (r : Result α) : Prop := ∀ e, r = .error e → ¬ e.OfLending

@[simp]
theorem plain_ok {a : α} : Plain (.ok a) := failsBy_ok

@[simp]
theorem plain_error : Plain (.error e : Result α) ↔ ¬ e.OfLending := failsBy_error

@[simp]
theorem plain_pure {a : α} : Plain (pure a) := failsBy_pure

@[simp]
theorem plain_throw : Plain (throw e : Result α) ↔ ¬ e.OfLending := failsBy_throw

@[simp]
theorem plain_breach {b : Breach} : Plain (breach b : Result α) ↔ ¬ (Error.invalidState b).OfLending := failsBy_breach

@[simp]
theorem plain_orThrow {o : Option α} : Plain (orThrow e o : Result α) ↔ (o = none → ¬ e.OfLending) := failsBy_orThrow

/-- A sequence of steps fails for a cause of its steps. -/
@[simp]
theorem plain_bind {x : Result α} {f : α → Result β} :
    Plain (x >>= f) ↔ Plain x ∧ ∀ a, x = .ok a → Plain (f a) := failsBy_bind

@[simp]
theorem plain_map {x : Result α} {f : α → β} : Plain (f <$> x) ↔ Plain x := failsBy_map

end Result

open Result

/-- A result that satisfies a condition, or whose absence has nothing to do with the lent selects. -/
abbrev OrPlain {α : Type} (P : α → Prop) (r : Result α) : Prop := Ensures (fun e => ¬ e.OfLending) P r

theorem Result.Plain.orPlain {α : Type} {r : Result α} (h : r.Plain) : OrPlain (fun a => r = .ok a) r := by
  cases r with
  | error e => exact h e rfl
  | ok a => rfl

/-! ## The schema and the scope -/

namespace Schema

@[simp]
theorem plain_entity : Plain (s.entity name) := by
  simp [Schema.entity, Error.OfLending]

@[simp]
theorem plain_table : Plain (s.table name) := by
  simp [table]

@[simp]
theorem plain_columns : Plain (s.columns name) := by
  simp [columns]

@[simp]
theorem plain_primaryKeys : Plain (s.primaryKeys name) := by
  simp [primaryKeys]

@[simp]
theorem plain_columnName {member : String} : Plain (s.columnName entity member) := by
  simp [columnName, Error.OfLending]

@[simp]
theorem plain_navigation : Plain (s.navigation entity name) := by
  simp [navigation, Error.OfLending]

end Schema

namespace Scope

@[simp]
theorem plain_shape : Plain (sc.shape a) := by
  simp [shape, Error.OfLending]

end Scope

theorem Sql.Select.plain_setCondition {s : Select} {condition : Node} :
    Plain (s.setCondition a condition) := by
  have hsources : ∀ sources : List DataSource, Plain (setConditionIn a condition sources) := by
    intro sources
    induction sources with
    | nil => simp [setConditionIn, Error.OfLending]
    | cons d rest ih =>
      unfold setConditionIn
      split
      · split <;> simp [Error.OfLending]
      · simp [ih]
  simp [setCondition, hsources]

/-! ## Values -/

namespace Expr

@[simp]
theorem plain_memberOfValue {v : Value} : Plain (memberOfValue name v) := by
  unfold memberOfValue
  split
  · split <;> simp [Error.OfLending]
  · split <;> simp [Error.OfLending]
  · split <;> simp [Error.OfLending]
  · simp [Error.OfLending]

theorem plain_sequence {α : Type} {results : List (Result α)} (h : ∀ r ∈ results, Plain r) :
    Plain (sequence results) := by
  induction results with
  | nil => simp [sequence]
  | cons r rest ih =>
    rw [List.forall_mem_cons] at h
    simp [sequence, h.1, ih h.2]

/-- The value of an expression fails for a cause of its parts, or because it has no value. -/
theorem plain_evaluate (e : Expr) : Plain e.evaluate := by
  induction e using induction_on_children with
  | hP e ih =>
    have hparts : ∀ r ∈ e.children.map evaluate, Plain r := List.forall_mem_map.2 ih
    rw [evaluate, fold_eq, ← evaluate]
    split
    · exact plain_pure
    · exact plain_pure
    · next target heq =>
      have htarget : Plain target := hparts target (heq ▸ List.mem_singleton_self target)
      simp [htarget]
    · simp [plain_sequence hparts]
    · simp [Error.OfLending]

end Expr

theorem plain_checked {op : Arithmetic} {n : Int} : Plain (op.checked n) := by
  unfold Arithmetic.checked
  split <;> simp [Error.OfLending]

theorem plain_checkColumns {items : List UnionItem} : Plain (checkColumns items) := by
  unfold checkColumns
  split
  · exact plain_pure
  · dsimp only
    split <;> simp [Error.OfLending]

/-! ## Updates and deletions -/

namespace Modification

theorem plain_targetAlias {statement : String} {n : Node} : Plain (targetAlias statement n) := by
  unfold targetAlias
  split <;> simp [Error.OfLending]

/-- The select inside a closed select keeps its data sources. -/
theorem sources_inner (a : Alias) (d : Derived) : (m.inner a d sc).select.sources = d.select.sources := by
  simp only [inner]
  split
  · unfold Select.addFilter
    split <;> rfl
  · rfl

/-- A condition that passes from a modification to that of the select inside the closed select which its
only data source reads. -/
def KeptInside (sc : Scope) (Q : Modification → Prop) : Prop :=
  ∀ (m : Modification) (d : DataSource) (q : Derived), m.select.sources = [d] → d.relation = .derived q →
    Q m → Q (m.inner d.name q sc)

theorem ofTable_keeps {sources : List DataSource} (hm : Q m) :
    OrPlain (fun r => Q r.1) (m.ofTable sources a) := by
  unfold ofTable
  split
  · exact ensures_pure hm
  · exact ensures_throw (by simp [notTraceable, Error.OfLending])
  · exact ensures_throw (by simp [Error.OfLending])

mutual

/-- What passes to the select inside passes to the modification of the table.

**Proof sketch.** Along the recursion of the trace: the data sources that the trace looks at are those of
the select of the modification. -/
theorem traceFrom_keeps (hQ : KeptInside sc Q) (sources : List DataSource) (m : Modification)
    (hsources : m.select.sources = sources) (hm : Q m) : OrPlain (fun r => Q r.1) (traceFrom sc sources m) := by
  match sources, hsources with
  | [], _ =>
    rw [traceFrom]
    exact plain_targetAlias.orPlain.bind fun _ _ => ofTable_keeps hm
  | [{ name, relation, join, navigation }], hsources =>
    rw [traceFrom]
    refine plain_targetAlias.orPlain.bind fun a _ => ?_
    split
    · next hname =>
      subst hname
      exact traceRelation_keeps hQ relation m ⟨name, relation, join, navigation⟩ hsources rfl hm
    · exact ensures_throw (by simp [Error.OfLending])
  | first :: second :: rest, _ =>
    rw [traceFrom]
    exact plain_targetAlias.orPlain.bind fun _ _ => ofTable_keeps hm
termination_by structural sources

theorem traceRelation_keeps (hQ : KeptInside sc Q) (r : Relation) (m : Modification) (d : DataSource)
    (hsources : m.select.sources = [d]) (hd : d.relation = r) (hm : Q m) :
    OrPlain (fun r => Q r.1) (traceRelation sc r m d.name) := by
  match r, hd with
  | .table t, _ => exact ensures_pure hm
  | .derived q, hd =>
    rw [traceRelation]
    exact traceDerived_keeps hQ q m d hsources hd hm
  | .union _, _ | .cte .., _ => exact ensures_throw (by simp [notTraceable, Error.OfLending])
termination_by structural r

theorem traceDerived_keeps (hQ : KeptInside sc Q) (q : Derived) (m : Modification) (d : DataSource)
    (hsources : m.select.sources = [d]) (hd : d.relation = .derived q) (hm : Q m) :
    OrPlain (fun r => Q r.1) (traceDerived sc q m d.name) := by
  match q, hd with
  | { id, select, columns }, hd =>
    rw [traceDerived]
    unfold unwrap
    split
    · exact ensures_throw (by simp [notTraceable, Error.OfLending])
    · split
      · exact ensures_throw (by simp [Error.OfLending])
      · exact traceSelect_keeps hQ select _ (sources_inner _ _) (hQ m d _ hsources hd hm)
termination_by structural q

theorem traceSelect_keeps (hQ : KeptInside sc Q) (s : Select) (m : Modification)
    (hsources : m.select.sources = s.sources) (hm : Q m) : OrPlain (fun r => Q r.1) (traceSelect sc s m) := by
  match s, hsources with
  | { sources, .. }, hsources =>
    rw [traceSelect]
    exact traceFrom_keeps hQ sources m hsources hm
termination_by structural s

end

theorem trace_keeps (hQ : KeptInside sc Q) (hm : Q m) : OrPlain (fun r => Q r.1) (m.trace sc) :=
  traceFrom_keeps hQ m.select.sources m rfl hm

@[simp]
theorem plain_trace : Plain (m.trace sc) :=
  (trace_keeps (Q := fun _ => True) (fun _ _ _ _ _ _ => trivial) trivial).failsBy

theorem plain_toDelete : Plain (m.toDelete sc) := by
  simp [toDelete]

theorem plain_toUpdate : Plain (m.toUpdate schema sc) := by
  have hassignments : ∀ (entity : String) (values : List (Path × Node)), Plain (assignments schema entity values) := by
    intro entity values
    induction values with
    | nil => simp [assignments]
    | cons v rest ih =>
      unfold assignments
      split <;> simp_all [Error.OfLending]
  simp [toUpdate, hassignments]

end Modification

end QueryLowering
