import QueryLowering.Proofs.Invariants
import QueryLowering.Proofs.Within

/-!
# The functions that statements call

The lowering makes calls of a few functions only, and nothing that happens to a tree afterwards makes a
call of another one: rows are put in the place of the table that they come from, output expressions in the
place of columns, and common table expressions are moved to the front.

## Main results

* `Compiler.knownCalls`: all calls of a compiled statement are of such functions.
-/

namespace QueryLowering

open Sql Lower Node List

namespace Sql

variable {n : Node}

/-- A node that is a call is one of a function that values are made with. -/
def Node.KnownCall (n : Node) : Prop := ∀ name args, n = .function name args → name ∈ functionNames

theorem Node.knownCall_of_blocks {bs : List Block} (hn : blocksOf? n = some bs) : n.KnownCall := by
  rintro name args rfl
  cases hn

/-- All calls in a query are known if all calls in its blocks are. -/
theorem Node.knownCalls_query {bs : List Block} (hn : blocksOf? n = some bs) :
    n.All KnownCall ↔ ∀ b ∈ bs, ∀ k ∈ b.nodes, k.All KnownCall := by
  rw [all_iff, children_of_some hn, forall_mem_flatMap]
  exact and_iff_right (knownCall_of_blocks hn)

theorem Node.knownCalls_block {b : Block} (hn : blocksOf? n = some [b]) :
    n.All KnownCall ↔ ∀ k ∈ b.nodes, k.All KnownCall := by
  rw [knownCalls_query hn, forall_mem_singleton]

theorem Node.knownCalls_leaf (hblocks : blocksOf? n = none) (hn : n.operands = [])
    (hcall : n.KnownCall) : n.All KnownCall := (all_of_operands hblocks).2 ⟨hcall, by simp [hn]⟩

/-- All calls in a select are known if all calls in its parts are. -/
theorem Node.knownCalls_select {s : Select} : (Node.select s).All KnownCall ↔
    (∀ c ∈ s.ctes, ∀ q ∈ c.queries, (Node.derived q).All KnownCall) ∧
      (∀ d ∈ s.sources, ∀ k ∈ d.nodes, k.All KnownCall) ∧ s.Clauses (Node.All KnownCall) := by
  rw [knownCalls_block rfl, Block.forall_mem_nodes, Select.forall_mem_nodes, Select.clauses_iff]
  exact and_iff_left (forall_mem_nil _)

theorem Node.knownCalls_derived {d : Derived} : (Node.derived d).All KnownCall ↔
    (Node.select d.select).All KnownCall ∧ ∀ c ∈ d.columns, c.expr.All KnownCall := by
  rw [knownCalls_block rfl, Block.forall_mem_nodes, knownCalls_block rfl, Block.forall_mem_nodes]
  exact and_congr (and_iff_left (forall_mem_nil _)).symm forall_mem_map

/-- The calls in a data source that reads no common table expression. -/
theorem DataSource.knownCalls_of_holds {d : DataSource} (hrelation : d.relation.Holds (Node.All Node.KnownCall))
    (hcondition : ∀ n ∈ d.condition?, n.All Node.KnownCall) : ∀ k ∈ d.nodes, k.All Node.KnownCall := by
  refine DataSource.forall_mem_nodes.2 ⟨fun q hq => ?_, hcondition⟩
  obtain ⟨name, relation, join, navigation⟩ := d
  cases relation with
  | table t => cases hq
  | derived q' =>
    obtain rfl := mem_singleton.1 hq
    exact hrelation
  | union items =>
    obtain ⟨i, hi, rfl⟩ := mem_map.1 hq
    have hblocks := (knownCalls_query (n := .union items) rfl).1 hrelation
    exact (knownCalls_block rfl).2 (forall_mem_map.1 hblocks i hi)
  | cte a columns => exact hrelation.elim

instance : Compositional (Node.All Node.KnownCall) :=
  .ofOperands (fun hn h _ _ hcall => (all_of_operands hn).2 ⟨hcall, h⟩)
    (fun hn h => ((all_of_operands hn).1 h).2) ((knownCalls_block rfl).trans (knownCalls_block rfl).symm)
    (fun h => (knownCalls_block rfl).2 ((knownCalls_block rfl).1 h))

/-! ## Changes -/

/-- A change makes no call out of something else. -/
theorem Node.KnownCall.change {c : Change} (hn : c.node n = none) (h : n.KnownCall) : (n.change c).KnownCall := by
  intro name args hchange
  cases n with
  | function name' args' =>
    simp only [Node.change, hn, function.injEq] at hchange
    exact h name args' (hchange.1 ▸ rfl)
  | _ =>
    simp only [Node.change, hn] at hchange
    cases hchange

theorem respects_withoutCtes : withoutCtes.Respects Node.KnownCall where
  node h := by cases h
  query _ := rfl
  relation h := by cases h
  sources _ := rfl
  clauses _ := rfl
  ctes _ := nil_subset _
  keeps := .change

/-- A common table expression in the place of a closed select. -/
theorem respects_substitution (id a : Alias) (columns : List (Path × String)) :
    (substitution id (.cte a columns)).Respects Node.KnownCall where
  node h := by cases h
  query _ := rfl
  relation h := by
    obtain ⟨-, h⟩ := Option.ite_none_right_eq_some.1 h
    obtain rfl := Option.some.inj h
    exact forall_mem_nil _
  sources _ := rfl
  clauses _ := rfl
  ctes _ := List.Subset.refl _
  keeps := .change

/-- The output expressions of a closed select in the place of its columns. -/
theorem respects_inlining {a : Alias} {d : Derived} (hd : ∀ x ∈ d.columns, x.expr.All Node.KnownCall) :
    (inlining a d).Respects Node.KnownCall where
  node {n n'} h := by
    have hcolumn : ∀ b name, (Node.column b name).All Node.KnownCall := fun _ _ =>
      knownCalls_leaf rfl rfl (by rintro _ _ ⟨⟩)
    simp only [inlining] at h
    split at h
    · next b name =>
      split at h
      · obtain rfl := Option.some.inj h
        cases houtput : d.output? name with
        | none => exact hcolumn b name
        | some value =>
          obtain ⟨x, hx, rfl⟩ := Derived.exists_of_output? houtput
          exact hd x hx
      · obtain rfl := Option.some.inj h
        exact hcolumn b name
    · cases h
  query _ := rfl
  relation h := by cases h
  sources _ := rfl
  clauses _ := rfl
  ctes _ := List.Subset.refl _
  keeps := .change

/-- Updates and deletions make no calls. -/
theorem traceable_knownCalls : Traceable (Node.All Node.KnownCall) where
  source := knownCalls_leaf rfl rfl (by rintro _ _ ⟨⟩)
  select {s} := by
    rw [knownCalls_select, knownCalls_select]
    exact ⟨fun ⟨hctes, hsources, hclauses⟩ => ⟨hclauses, hctes, hsources, { Select.clauses_empty with }⟩,
      fun ⟨hclauses, hctes, hsources, _⟩ => ⟨hctes, hsources, hclauses⟩⟩
  derived := knownCalls_derived
  reads {s x q} hs hx hq := by
    refine (DataSource.forall_mem_nodes.1 ((knownCalls_select.1 hs).2.1 x hx)).1 q ?_
    rw [hq]
    exact mem_singleton_self q
  declares {s t} hs ht := by
    obtain ⟨hctes, hsources, hclauses⟩ := knownCalls_select.1 hs
    exact knownCalls_select.2
      ⟨forall_mem_append.2 ⟨hctes, (knownCalls_select.1 ht).1⟩, hsources, { hclauses with }⟩
  inline hd hn := hn.change (respects_inlining (knownCalls_derived.1 hd).2)
  delete h := (knownCalls_block rfl).2 ((knownCalls_block rfl).1 h)
  update {u} h hassignments := by
    have hselect := (Block.forall_mem_nodes.1 ((knownCalls_block rfl).1 h)).1
    refine (knownCalls_block rfl).2 ?_
    exact Block.forall_mem_nodes.2 ⟨hselect, forall_mem_map.2 hassignments⟩

end Sql

instance : Invariant (Node.All Node.KnownCall) where
  source := traceable_knownCalls.source
  select := traceable_knownCalls.select
  empty := knownCalls_select.2 ⟨forall_mem_nil _, forall_mem_nil _, Select.clauses_empty⟩
  opened hr := by
    refine knownCalls_select.2 ⟨forall_mem_nil _, forall_mem_singleton.2 ?_,
      { Select.clauses_empty with }⟩
    exact DataSource.knownCalls_of_holds hr (by simp [DataSource.condition?])
  joined hs hr hcondition := by
    obtain ⟨hctes, hsources, hclauses⟩ := knownCalls_select.1 hs
    refine knownCalls_select.2 ⟨hctes,
      forall_mem_append.2 ⟨hsources, forall_mem_singleton.2 ?_⟩, { hclauses with }⟩
    exact DataSource.knownCalls_of_holds hr hcondition
  conditioned hs hcondition ht := by
    obtain ⟨hctes, hsources, hclauses⟩ := knownCalls_select.1 hs
    obtain ⟨sources, rfl, hsources⟩ := Select.exists_sources_of_setCondition ht hsources fun d j hd =>
      DataSource.forall_mem_nodes.2 ⟨(DataSource.forall_mem_nodes.1 hd).1, fun n hn => Option.some.inj hn ▸ hcondition⟩
    exact knownCalls_select.2 ⟨hctes, hsources, { hclauses with }⟩
  derived := knownCalls_derived
  existence h := (knownCalls_block rfl).2 ((knownCalls_block rfl).1 h)
  union {items} := by
    have hquery : ∀ i : UnionItem, (Node.derived i.query).All Node.KnownCall ↔
        ∀ k ∈ i.query.block.nodes, k.All Node.KnownCall := fun _ => knownCalls_block rfl
    rw [knownCalls_query rfl, forall_mem_map]
    simp only [hquery]
  recursion {a b anchor member columns} hanchor hmember := by
    refine knownCalls_select.2 ⟨forall_mem_singleton.2 fun q hq => ?_, forall_mem_singleton.2 ?_,
      { Select.clauses_empty with }⟩
    · rcases mem_cons.1 hq with rfl | hq
      · exact hanchor
      · obtain rfl := mem_singleton.1 hq
        have hrespects := respects_substitution anchor.id a columns
        have hchange := hmember.change hrespects
        rwa [change_derived hrespects.faithful] at hchange
    · simp [DataSource.nodes, Relation.queries, DataSource.condition?]
  deletion hs htarget hvalues hn := Modification.Holds.toDelete traceable_knownCalls ⟨hs, htarget, hvalues⟩ hn
  updating hs htarget hvalues hn := Modification.Holds.toUpdate traceable_knownCalls ⟨hs, htarget, hvalues⟩ hn

/-- All calls of a compiled statement are of functions that values are made with. -/
theorem Compiler.knownCalls {c : Compiler} {e : Expr} {s : Statement} (hs : c.statement e = .ok s) :
    s.All Node.KnownCall := by
  obtain ⟨e', b, -, hb, rfl⟩ := statement_eq_ok hs
  have hbody : (⟨[], b⟩ : Statement).All Node.KnownCall :=
    c.holds_body (P := Node.All Node.KnownCall) (fun hn h => (knownCalls_block hn).1 h) hb
  split
  · exact hbody.hoist rfl respects_withoutCtes
  · exact hbody

end QueryLowering
