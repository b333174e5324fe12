import QueryLowering.Proofs.History
import QueryLowering.Proofs.UpheldRuns

/-!
# Marks of what is lowered

The marks of all values that a lowering makes are accepted by one history, which goes on while the lowering does. An
update or a deletion is traced back to the table whose rows it changes. On the way expressions take the place of the
columns that stand for them, and this keeps accepted marks, too.

## Main results

* `Modification.every_trace`: what an update or a deletion is traced back to.
* `Lower.yields_modification`: what an update or a deletion is made of.
* `History.admits_regime`: updates and deletions have accepted marks.
-/

namespace QueryLowering

open Sql Result Node List

variable {r : Relation} {s : Select} {values : List (Path × Node)} {n : Node} {delete : Bool} {h k : History}
variable {cx cx' : Context} {schema : Schema} {A : Mark → Prop} {m m' : Modification} {sc : Scope} {a b : Alias}
variable {entity : String} {args : List Node}

/-! ## Histories that go on -/

namespace Sql

theorem Relation.Holds.every (h : r.Holds (Node.Every A)) : r.Every A := by
  cases r with
  | table t => exact Relation.every_table
  | derived d => exact h
  | union items => exact Relation.every_union.2 (every_union.1 h)
  | cte a columns => exact h.elim

theorem Select.every_iff_clauses : s.Every A ↔ s.Clauses (Node.Every A) ∧ s.frame.Every A := by
  constructor
  · intro h
    refine ⟨h.clauses, h.withClauses { Select.clauses_empty with } rfl rfl⟩
  · rintro ⟨hclauses, hframe⟩
    exact hframe.withClauses hclauses rfl rfl

theorem Node.every_select_iff : (Node.select s).Every A ↔ s.Clauses (Node.Every A) ∧ (Node.select s.frame).Every A := by
  refine Iff.trans every_select (Iff.trans Select.every_iff_clauses ?_)
  exact and_congr_right fun _ => every_select.symm

end Sql

namespace History

theorem admitsSources (h : History) : AdmitsSources h.Accepts := fun _ hl d hd => hl.known d hd

/-- A data source with the next alias is added to a select. -/
theorem every_addSource (hs : s.Every h.Accepts) {d : DataSource} (hd : d.name.index = h.last + 1)
    (hr : d.relation.Every h.Accepts) (hcondition : ∀ j ∈ d.join, ∀ n ∈ j.condition, n.Every h.Accepts) :
    (s.addSource d).Every (h.advance s.aliases).Accepts := by
  have hext := h.extends_advance s.aliases
  refine { hs.mono hext.accepts with own := Grown.append hs.own hs.sources hd hr, sources := ?_ }
  refine forall_mem_append.2 ⟨fun x hx => (hs.sources x hx).mono hext.accepts, ?_⟩
  exact forall_mem_singleton.2 ⟨hr.mono hext.accepts, fun j hj n hn => (hcondition j hj n hn).mono hext.accepts⟩

/-- A select that reads a relation under the next alias. -/
theorem every_ofRelation (hr : r.Every h.Accepts) (ha : a.index = h.last + 1) :
    ({ Select.empty with sources := [⟨a, r, none, none⟩] } : Select).Every (h.advance []).Accepts :=
  every_addSource (Select.every_empty grown_nil) (d := ⟨a, r, none, none⟩) ha hr nofun

/-- The marks of values are accepted by a history, which ends with the alias handed out last. -/
def regime (schema : Schema) : Regime where
  watch := ⟨schema, []⟩
  World := History
  Grows := Extends
  Fits h sc := sc.lastAlias.index = h.last
  node h n := n.Every h.Accepts
  strict := False
  placed := True

instance (schema : Schema) : (regime schema).Lawful where
  refl := Extends.refl
  trans := Extends.trans
  compositional h := inferInstanceAs (Compositional (Node.Every h.Accepts))
  mono hgrows hn := Node.Every.mono hn hgrows.accepts
  params h := h
  issued {h _} hfits := ⟨h.advance [], h.extends_advance [], congrArg (· + 1) hfits⟩
  owned _ := not_mem_nil
  past _ hfits ha := Nat.le_trans (every_source.1 ha) (Nat.le_of_eq hfits.symm)
  row {h _ x} hs hx := every_source.2 (Grown.known (every_select.1 hs).own x hx)
  select := every_select_iff
  empty := every_select.2 (Select.every_empty grown_nil)
  opened {h _ _} hfits hr := ⟨h.advance [], h.extends_advance [], congrArg (· + 1) hfits,
    every_select.2 (every_ofRelation (Relation.Holds.every hr) (congrArg (· + 1) hfits))⟩
  joined {h _ s _ _} hfits hs hr := by
    refine ⟨h.advance s.aliases, h.extends_advance _, congrArg (· + 1) hfits, every_select.2 ?_⟩
    refine every_addSource (every_select.1 hs) (congrArg (· + 1) hfits) (Relation.Holds.every hr) ?_
    rintro _ ⟨⟩
    exact nofun
  navigated {h _ s _ _ _ _} hfits hs _ := by
    refine ⟨h.advance s.aliases, h.extends_advance _, congrArg (· + 1) hfits, every_select.2 ?_⟩
    refine every_addSource (every_select.1 hs) (congrArg (· + 1) hfits) Relation.every_table ?_
    rintro _ ⟨⟩ n hn
    exact Option.mem_some_iff.1 hn ▸ every_literal
  conditioned {h s t a condition} hs hc hplace ht := by
    have hs := every_select.1 hs
    obtain ⟨i, d, j, hd, hname, -, rfl⟩ := Select.setCondition_eq_ok ht
    obtain ⟨i', d', hd', hname', hplain, hnav⟩ := hplace trivial
    -- The aliases of a select differ, so the place found is the place that can be given a condition.
    obtain rfl := Grown.index_eq hs.own hd' hd (hname'.trans hname.symm)
    obtain rfl := Option.mem_unique hd hd'
    refine every_select.2 { hs with own := Grown.set hs.own hd hplain hnav, sources := fun x hx => ?_ }
    rcases mem_or_eq_of_mem_set hx with hx | rfl
    · exact hs.sources x hx
    · refine ⟨(hs.sources d (mem_of_getElem? hd)).relation, ?_⟩
      rintro _ ⟨⟩ n hn
      exact Option.mem_some_iff.1 hn ▸ hc
  closed _ _ _ hselect hcolumns := every_derived.2 (Derived.every_iff.2 ⟨every_select.1 hselect, hcolumns⟩)
  inside hd := every_select.2 (Derived.every_iff.1 (every_derived.1 hd)).1
  existence hd := hd
  union := every_union
  recursion {h _ a anchor member columns} hfits hanchor hmember := by
    have hext := h.extends_advance []
    refine ⟨h.advance [], hext, congrArg (· + 1) hfits, every_select.2 ?_⟩
    refine (every_ofRelation Relation.every_cte (congrArg (· + 1) hfits)).addCte
      ⟨Derived.Every.mono hanchor hext.accepts, ?_⟩
    rintro _ ⟨⟩
    exact member.every_change keeps_reference (Derived.Every.mono hmember hext.accepts)

/-- Before anything has been done, no alias has been handed out. -/
theorem upheld_regime (schema : Schema) : Context.empty.Upheld (regime schema) (⟨0, fun _ => []⟩ : History) :=
  Context.upheld_empty rfl rfl

end History

/-! ## Updates and deletions -/

namespace Modification

/-- Every mark of a modification satisfies a condition. -/
structure Every (A : Mark → Prop) (m : Modification) : Prop where
  select : m.select.Every A
  target : m.target.Every A
  values : ∀ v ∈ m.values, v.2.Every A

/-- The modification of the select inside a closed select that was there before the data source that
reads it. -/
theorem Every.inner (hm : m.Every h.Accepts) {d : Derived} (hd : d.Every h.Accepts)
    (hearly : d.Every (Mark.Below a.index)) : (m.inner a d sc).Every h.Accepts := by
  have hkeeps := History.keeps_outputs hd hearly
  have hselect := (Derived.every_iff.1 hd).1
  have hinside : ∀ filtered : Select, filtered.Every h.Accepts → Every h.Accepts { m with
          select := { filtered with ctes := filtered.ctes ++ m.select.ctes }
          target := if isRowOf a m.target then filtered.currentShape sc else m.target.inline a d
          values := m.values.map fun v => (v.1, v.2.inline a d) } := by
    intro filtered hfiltered
    refine ⟨{ hfiltered with ctes := ?_ }, ?_, fun v hv => ?_⟩
    · exact forall_mem_append.2 ⟨hfiltered.ctes, hm.select.ctes⟩
    · change Node.Every _ (if _ then _ else _)
      split
      · exact hfiltered.currentShape h.admitsSources
      · exact m.target.every_change hkeeps hm.target
    · obtain ⟨w, hw, rfl⟩ := mem_map.1 hv
      exact w.2.every_change hkeeps (hm.values w hw)
  simp only [Modification.inner]
  split
  · next f hf => exact hinside _ (hselect.addFilter (f.every_change hkeeps (hm.select.filter f hf)))
  · exact hinside _ hselect

/-- A modification that is traced back to a table keeps accepted marks: what a data source reads mentions
smaller aliases than its own, so putting output expressions in the place of its columns mentions no later
alias. -/
theorem every_trace (hm : m.Every h.Accepts) (hr : m.trace sc = .ok (m', b, entity)) : m'.Every h.Accepts := by
  refine (trace_keeps (fun m d q hsources hd hm => ?_) hm).of_eq_ok hr
  have hmem : d ∈ m.select.sources := hsources ▸ mem_singleton_self d
  have hq : q.Every h.Accepts := by
    have hrelation := (hm.select.sources d hmem).relation
    rwa [hd] at hrelation
  refine hm.inner hq fun mark hmark => ?_
  cases mark with
  | mention x =>
    refine History.Grown.relations hm.select.own d hmem x ?_
    rw [hd]
    exact hmark
  | sources _ => trivial

theorem Every.rows (hm : m.Every A) : m.rows.Every A :=
  { hm.select with projection := by simp [Modification.rows], orderBy := forall_mem_nil _ }

theorem holds_assignments {P : Node → Prop} [Compositional P] (hv : ∀ v ∈ values, P v.2) {result : List (String × Node)}
    (hr : assignments schema entity values = .ok result) : ∀ x ∈ result, P x.2 := by
  fun_induction assignments schema entity values generalizing result with
  | case1 =>
    rw [pure_eq_ok] at hr
    subst hr
    exact forall_mem_nil _
  | case2 member n rest ih =>
    simp only [bind_eq_ok, pure_eq_ok] at hr
    obtain ⟨column, -, others, hothers, rfl⟩ := hr
    rw [forall_mem_cons] at hv
    exact forall_mem_cons.2 ⟨holds_asScalar hv.1, ih hv.2 hothers⟩
  | case3 => exact absurd hr throw_ne_ok

theorem every_toDelete (hm : m.Every h.Accepts) (hn : m.toDelete sc = .ok n) : n.Every h.Accepts := by
  simp only [toDelete, bind_eq_ok, pure_eq_ok] at hn
  obtain ⟨⟨m', a, entity⟩, htrace, rfl⟩ := hn
  exact every_delete.2 (every_trace hm htrace).rows

theorem every_toUpdate (hm : m.Every h.Accepts) (hn : m.toUpdate schema sc = .ok n) : n.Every h.Accepts := by
  simp only [toUpdate, bind_eq_ok, pure_eq_ok] at hn
  obtain ⟨⟨m', a, entity⟩, htrace, assigned, hassigned, rfl⟩ := hn
  have hm' := every_trace hm htrace
  exact every_update.2 ⟨hm'.rows, holds_assignments (P := Node.Every _) hm'.values hassigned⟩

/-- The rows that the arguments of an update or a deletion name, or else all rows of the select. -/
def requestedTarget? (s : Select) (args : List Node) (sc : Scope) : Option Node :=
  if args.length ≤ 1 then some (s.currentShape sc) else args[1]?

/-- The values that the arguments of an update assign. -/
def requestedValues? (args : List Node) : Option (List (Path × Node)) := args[2]?.bind fun
    | .composite values => some values
    | _ => none

/-- The modification that an update or a deletion of the rows of a select asks for by its arguments. -/
def requested? (delete : Bool) (s : Select) (args : List Node) (sc : Scope) : Option Modification := do
  let target ← requestedTarget? s args sc
  if delete then return ⟨"DELETE", s, target, []⟩
  else return ⟨"UPDATE", s, target, ← requestedValues? args⟩

/-- The update or the deletion of the rows. -/
def toNode (delete : Bool) (m : Modification) (schema : Schema) (sc : Scope) : Result Node :=
  if delete then m.toDelete sc else m.toUpdate schema sc

theorem requestedValues?_eq_some :
    requestedValues? args = some values ↔ args[2]? = some (.composite values) := by
  unfold requestedValues?
  cases args[2]? with
  | none => simp
  | some n =>
    cases n with
    | composite entries => simp
    | _ => simp

theorem requested?_delete : requested? true s args sc = some m ↔
    ∃ target, requestedTarget? s args sc = some target ∧ ⟨"DELETE", s, target, []⟩ = m := by
  simp [requested?, Option.bind_eq_some_iff]

theorem requested?_update : requested? false s args sc = some m ↔ ∃ target, requestedTarget? s args sc = some target ∧
      ∃ values, requestedValues? args = some values ∧ ⟨"UPDATE", s, target, values⟩ = m := by
  simp [requested?, Option.bind_eq_some_iff]

/-- The parts of a modification come from the select and the arguments. -/
theorem parts_of_requested? (hm : requested? delete s args sc = some m) : m.select = s ∧
    (m.target = s.currentShape sc ∨ m.target ∈ args) ∧ (m.values = [] ∨ Node.composite m.values ∈ args) := by
  have htarget : ∀ {target : Node}, requestedTarget? s args sc = some target →
      target = s.currentShape sc ∨ target ∈ args := by
    intro target ht
    unfold requestedTarget? at ht
    split at ht
    · exact .inl (Option.some.inj ht).symm
    · exact .inr (mem_of_getElem? ht)
  cases delete with
  | true =>
    obtain ⟨target, ht, rfl⟩ := requested?_delete.1 hm
    exact ⟨rfl, htarget ht, .inl rfl⟩
  | false =>
    obtain ⟨target, ht, values, hv, rfl⟩ := requested?_update.1 hm
    exact ⟨rfl, htarget ht, .inr (mem_of_getElem? (requestedValues?_eq_some.1 hv))⟩

theorem every_of_requested? (hs : s.Every h.Accepts) (hargs : ∀ n ∈ args, n.Every h.Accepts)
    (hm : requested? delete s args sc = some m) : m.Every h.Accepts := by
  obtain ⟨rfl, htarget, hvalues⟩ := parts_of_requested? hm
  refine ⟨hs, ?_, ?_⟩
  · rcases htarget with htarget | htarget
    · exact htarget ▸ hs.currentShape h.admitsSources
    · exact hargs _ htarget
  · rcases hvalues with hvalues | hvalues
    · rw [hvalues]
      exact forall_mem_nil _
    · exact every_composite.1 (hargs _ hvalues)

end Modification

namespace Lower

theorem yields_modificationTarget : Yields schema (modificationTarget s args) cx n cx' ↔
    Modification.requestedTarget? s args cx.scope = some n ∧ cx = cx' := by
  unfold modificationTarget Modification.requestedTarget?
  split
  · simp only [yields_bind, yields_scope, yields_pure, Option.some.injEq]
    constructor
    · rintro ⟨sc, mid, ⟨rfl, rfl⟩, hvalue, hcx⟩
      exact ⟨hvalue, hcx⟩
    · rintro ⟨hvalue, hcx⟩
      exact ⟨_, _, ⟨rfl, rfl⟩, hvalue, hcx⟩
  · exact yields_orThrow

theorem yields_assignedValues : Yields schema (assignedValues args) cx values cx' ↔
    Modification.requestedValues? args = some values ∧ cx = cx' := by
  rw [assignedValues, yields_bind, Modification.requestedValues?_eq_some]
  constructor
  · rintro ⟨m, mid, hm, hvalues⟩
    obtain ⟨hpart, rfl⟩ := yields_orThrow.1 hm
    split at hvalues
    · obtain ⟨rfl, rfl⟩ := yields_pure.1 hvalues
      exact ⟨hpart, rfl⟩
    · exact absurd hvalues not_yields_throw
  · rintro ⟨hpart, rfl⟩
    exact ⟨_, cx, yields_orThrow.2 ⟨hpart, rfl⟩, yields_pure.2 ⟨rfl, rfl⟩⟩

/-- An update or a deletion is what is made of the modification that its arguments ask for. -/
theorem yields_modification : Yields schema (Lower.modify delete s args) cx n cx' ↔
    ∃ m, Modification.requested? delete s args cx.scope = some m ∧ m.toNode delete schema cx.scope = .ok n ∧
      cx = cx' := by
  rw [Lower.modify, yields_bind]
  simp only [yields_modificationTarget]
  cases delete with
  | true =>
    simp only [if_true, yields_look, Modification.requested?_delete, Modification.toNode]
    constructor
    · rintro ⟨target, mid, ⟨ht, rfl⟩, hn, hcx⟩
      exact ⟨_, ⟨target, ht, rfl⟩, hn, hcx⟩
    · rintro ⟨m, ⟨target, ht, rfl⟩, hn, hcx⟩
      exact ⟨target, cx, ⟨ht, rfl⟩, hn, hcx⟩
  | false =>
    simp only [Bool.false_eq_true, if_false, yields_bind, yields_assignedValues, yields_look,
      Modification.requested?_update, Modification.toNode]
    constructor
    · rintro ⟨target, mid, ⟨ht, rfl⟩, values, mid', ⟨hv, rfl⟩, hn, hcx⟩
      exact ⟨_, ⟨target, ht, values, hv, rfl⟩, hn, hcx⟩
    · rintro ⟨m, ⟨target, ht, values, hv, rfl⟩, hn, hcx⟩
      exact ⟨target, cx, ⟨ht, rfl⟩, values, cx, ⟨hv, rfl⟩, hn, hcx⟩

end Lower

/-- Updates and deletions have accepted marks, because a traced modification has. -/
theorem History.admits_regime (schema : Schema) (rs : List Recognizer) :
    (History.regime schema).Admits rs fun _ _ => True := by
  intro e cx delete _ _ h s args mid n after chained index cx' hs hargs _ hn _
  obtain ⟨m, hm, hresult, rfl⟩ := Lower.yields_modification.1 hn
  have hevery : m.Every h.Accepts := Modification.every_of_requested? (every_select.1 hs) hargs hm
  cases delete with
  | true => exact Modification.every_toDelete hevery hresult
  | false => exact Modification.every_toUpdate hevery hresult

end QueryLowering
