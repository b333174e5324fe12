import QueryLowering.Proofs.Agreement

/-!
# What statements keep

A condition on nodes that the lowering keeps holds of the blocks of the statement that comes out.

An update or a deletion is traced back to a table: as long as its target is read from a closed select, the
select takes its place, and its output expressions take the place of the columns. A condition on nodes that
these changes keep holds of the update or the deletion if it holds of what was asked for.

## Main results

* `Modification.Holds.toDelete`, `Modification.Holds.toUpdate`: deletions and updates.
* `Compiler.holds_body`: what a compiled statement does.
-/

namespace QueryLowering

open Sql Lower

namespace Sql

/-- A condition on nodes that is kept where a modification is traced back to a table. -/
structure Traceable (P : Node → Prop) : Prop where
  source : ∀ {a : Alias}, P (.source a)
  select : ∀ {s : Select}, P (.select s) ↔ s.Clauses P ∧ P (.select s.frame)
  derived : ∀ {d : Derived}, P (.derived d) ↔ P (.select d.select) ∧ ∀ c ∈ d.columns, P c.expr
  /-- What a data source reads. -/
  reads : ∀ {s : Select} {x : DataSource} {q : Derived}, P (.select s) → x ∈ s.sources →
    x.relation = .derived q → P (.derived q)
  /-- The common table expressions of another select behind those of a select. -/
  declares : ∀ {s t : Select}, P (.select s) → P (.select t) → P (.select { s with ctes := s.ctes ++ t.ctes })
  inline : ∀ {n : Node} {a : Alias} {d : Derived}, P (.derived d) → P n → P (n.inline a d)
  delete : ∀ {q : Delete}, P (.select q.select) → P (.delete q)
  update : ∀ {u : Update}, P (.select u.select) → (∀ x ∈ u.assignments, P x.2) → P (.update u)

theorem Traceable.withClauses {P : Node → Prop} (hP : Traceable P) {s t : Select} (h : P (.select s))
    (ht : t.Clauses P) (hframe : t.frame = s.frame) : P (.select t) := by
  refine hP.select.2 ⟨ht, ?_⟩
  rw [hframe]
  exact (hP.select.1 h).2

end Sql

namespace Modification

/-- A condition on the parts of a modification. -/
structure Holds (P : Node → Prop) (m : Modification) : Prop where
  select : P (.select m.select)
  target : P m.target
  values : ∀ v ∈ m.values, P v.2

variable {P : Node → Prop} (hP : Traceable P) [Compositional P] {m : Modification} {a : Alias} {d : Derived}
  {sc : Scope} {n : Node}

include hP

theorem Holds.inner (hm : m.Holds P) (hd : P (.derived d)) : (m.inner a d sc).Holds P := by
  have hselect : P (.select d.select) := (hP.derived.1 hd).1
  -- The rest is the same whether the rows are filtered or not.
  have hinside : ∀ filtered : Select, P (.select filtered) → Holds P { m with
          select := { filtered with ctes := filtered.ctes ++ m.select.ctes }
          target := if isRowOf a m.target then filtered.currentShape sc else m.target.inline a d
          values := m.values.map fun v => (v.1, v.2.inline a d) } := by
    intro filtered hfiltered
    refine ⟨hP.declares hfiltered hm.select, ?_, List.forall_mem_map.2 fun v hv => hP.inline hd (hm.values v hv)⟩
    change P (if _ then _ else _)
    split
    · exact (hP.select.1 hfiltered).1.currentShape fun _ _ => hP.source
    · exact hP.inline hd hm.target
  simp only [Modification.inner]
  split
  · next f hf =>
    have hfilter : P (f.inline a d) := hP.inline hd ((hP.select.1 hm.select).1.filter f hf)
    refine hinside _ (hP.withClauses hselect ((hP.select.1 hselect).1.addFilter hfilter) ?_)
    rw [Select.frame, Select.sources_addFilter, Select.ctes_addFilter]
    rfl
  · exact hinside _ hselect

theorem Holds.trace (hm : m.Holds P) {m' : Modification} {entity : String}
    (hr : m.trace sc = .ok (m', a, entity)) : m'.Holds P := by
  refine (trace_keeps (fun m x q hsources hx hm => hm.inner hP ?_) hm).of_eq_ok hr
  exact hP.reads hm.select (hsources ▸ List.mem_singleton_self x) hx

omit [Compositional P] in
theorem Holds.rows (hm : m.Holds P) : P (.select m.rows) := by
  have hclauses := (hP.select.1 hm.select).1
  refine hP.withClauses hm.select ?_ rfl
  exact { hclauses with projection := by simp [Modification.rows], orderBy := List.forall_mem_nil _ }

/-- A deletion. -/
theorem Holds.toDelete (hm : m.Holds P) (hn : m.toDelete sc = .ok n) : P n := by
  simp only [Modification.toDelete, Result.bind_eq_ok, Result.pure_eq_ok] at hn
  obtain ⟨⟨m', a, entity⟩, htrace, rfl⟩ := hn
  exact hP.delete ((hm.trace hP htrace).rows hP)

/-- An update. -/
theorem Holds.toUpdate (hm : m.Holds P) {schema : Schema} (hn : m.toUpdate schema sc = .ok n) : P n := by
  simp only [Modification.toUpdate, Result.bind_eq_ok, Result.pure_eq_ok] at hn
  obtain ⟨⟨m', a, entity⟩, htrace, assigned, hassigned, rfl⟩ := hn
  have hm' := hm.trace hP htrace
  exact hP.update (hm'.rows hP) (holds_assignments hm'.values hassigned)

/-- What an update or a deletion asks for, if the condition holds of its select and of its arguments. -/
theorem Holds.of_requested? {s : Select} {args : List Node} {delete : Bool} (hs : P (.select s))
    (hargs : ∀ n ∈ args, P n) (hm : requested? delete s args sc = some m) : m.Holds P := by
  obtain ⟨rfl, htarget, hvalues⟩ := parts_of_requested? hm
  refine ⟨hs, ?_, ?_⟩
  · rcases htarget with htarget | htarget
    · exact htarget ▸ (hP.select.1 hs).1.currentShape fun _ _ => hP.source
    · exact hargs _ htarget
  · rcases hvalues with hvalues | hvalues
    · rw [hvalues]
      exact List.forall_mem_nil _
    · exact Compositional.composite.1 (hargs _ hvalues)

end Modification

/-! ## Statements -/

theorem Sql.Node.blocks_of_body? {n : Node} {b : Body} (h : n.body? = some b) : blocksOf? n = some [b.block] := by
  unfold Node.body? at h
  split at h <;> cases h <;> rfl

/-- A condition on what a statement does follows from one that the lowering keeps. -/
theorem Compiler.holds_body {P : Node → Prop} [Invariant P] {Q : Body → Prop}
    (hQ : ∀ {n : Node} {b : Body}, blocksOf? n = some [b.block] → P n → Q b) {c : Compiler} {e : Expr} {b : Body}
    (hb : c.body e = .ok b) : Q b := by
  obtain ⟨_, _, -, -, -, h⟩ := upholds_body (R := Invariant.regime c.schema P) (w := ()) (Q := fun _ b => Q b)
    (fun hb hn => hQ (Node.blocks_of_body? hb) hn) rfl rfl (fun _ _ _ _ _ _ => trivial)
    (Invariant.admits c.schema c.recognizers fun _ _ => True) trivial trivial hb
  exact h

end QueryLowering
