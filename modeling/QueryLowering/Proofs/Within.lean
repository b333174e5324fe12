import QueryLowering.Proofs.CteScopes

/-!
# The nodes of a tree

A node stands in a tree at any depth: below operators, in the clauses of a select, in its data sources
and join conditions, and in its common table expressions. A condition on all nodes of a tree is one on its
root and on the trees directly below it, and it is kept by changes that insert only trees that satisfy it.

## Main results

* `Sql.Node.Within.harvest_subset`: what is collected from a node of a tree.
* `Sql.Node.All.change`: a change that inserts only what satisfies a condition keeps it.
* `Sql.Statement.All.hoist`: so does moving common table expressions to the front.
-/

namespace QueryLowering

open List
open Option (mem_toList)

namespace Sql

variable {k n m : Node} {bs : List Block} {b : Block} {r : Relation} {q q' : Derived} {c : Change} {ctes : List Cte}
variable {Q P : Node → Prop} {s : Select}

/-- The queries that a relation is made of. -/
def Relation.queries : Relation → List Derived
  | .derived d => [d]
  | .union items => items.map (·.query)
  | .table _ | .cte .. => []

/-- The queries of a common table expression. -/
def Cte.queries (c : Cte) : List Derived := c.anchor :: c.recursive.toList

/-- The nodes of a data source: the queries that it reads and the condition of its join. -/
def DataSource.nodes (d : DataSource) : List Node := d.relation.queries.map .derived ++ d.condition?.toList

/-- The nodes directly in a select. -/
def Select.nodes (s : Select) : List Node :=
  (s.ctes.flatMap Cte.queries).map .derived ++ s.sources.flatMap DataSource.nodes ++ s.clauses

/-- The nodes directly in a block. -/
def Block.nodes (b : Block) : List Node := b.select.nodes ++ b.values

/-- The nodes directly below a node: those of its blocks if it is a query, and its operands else. -/
def Node.children (n : Node) : List Node := (blocksOf? n).elim n.operands (·.flatMap Block.nodes)

/-- One node stands in the tree of another one. -/
inductive Node.Within : Node → Node → Prop
  | root (n : Node) : Within n n
  | child {m k n : Node} : k ∈ n.children → Within m k → Within m n

/-- A condition holds of all nodes of a tree. -/
def Node.All (Q : Node → Prop) (n : Node) : Prop := ∀ m : Node, m.Within n → Q m

/-- The nodes directly in a statement. -/
def Statement.nodes (s : Statement) : List Node := (s.ctes.flatMap Cte.queries).map .derived ++ s.body.block.nodes

/-- A condition holds of all nodes of a statement. -/
def Statement.All (Q : Node → Prop) (s : Statement) : Prop := ∀ n ∈ s.nodes, n.All Q

theorem Node.All.root (h : n.All Q) : Q n := h n (.root n)

theorem Node.All.child (h : n.All Q) (hk : k ∈ n.children) : k.All Q := fun m hm => h m (.child hk hm)

/-- A condition on all nodes of a tree is one on its root and on the trees below. -/
theorem Node.all_iff : n.All Q ↔ Q n ∧ ∀ k ∈ n.children, k.All Q := by
  refine ⟨fun h => ⟨h.root, fun k hk => h.child hk⟩, ?_⟩
  rintro ⟨hroot, hchildren⟩ m (_ | ⟨hk, hm⟩)
  · exact hroot
  · exact hchildren _ hk m hm

theorem Node.children_of_none (hn : blocksOf? n = none) : n.children = n.operands := by
  rw [children, hn]
  rfl

theorem Node.children_of_some (hn : blocksOf? n = some bs) : n.children = bs.flatMap Block.nodes := by
  rw [children, hn]
  rfl

theorem Node.children_derived (d : Derived) : (Node.derived d).children = d.block.nodes := by
  rw [children_of_some rfl, flatMap_singleton]

/-- A tree below operators. -/
theorem Node.all_of_operands (hn : blocksOf? n = none) : n.All Q ↔ Q n ∧ ∀ k ∈ n.operands, k.All Q := by
  rw [all_iff, children_of_none hn]

theorem Node.All.operand (h : n.All Q) (hn : blocksOf? n = none) (hk : k ∈ n.operands) : k.All Q :=
  ((all_of_operands hn).1 h).2 k hk

/-- The nodes of a query are nodes of its block. -/
theorem Node.All.block (h : n.All Q) (hn : blocksOf? n = some [b]) : ∀ k ∈ b.nodes, k.All Q := by
  intro k hk
  refine h.child ?_
  rw [children_of_some hn, flatMap_singleton]
  exact hk

/-- A condition on the nodes of a select, part by part. -/
theorem Select.forall_mem_nodes : (∀ k ∈ s.nodes, P k) ↔
    (∀ c ∈ s.ctes, ∀ q ∈ c.queries, P (.derived q)) ∧ (∀ d ∈ s.sources, ∀ k ∈ d.nodes, P k) ∧ ∀ k ∈ s.clauses, P k := by
  simp only [nodes, forall_mem_append, forall_mem_map, forall_mem_flatMap, and_assoc]

theorem Block.forall_mem_nodes : (∀ k ∈ b.nodes, P k) ↔ (∀ k ∈ b.select.nodes, P k) ∧ ∀ k ∈ b.values, P k := by
  rw [nodes, forall_mem_append]

theorem DataSource.forall_mem_nodes {d : DataSource} : (∀ k ∈ d.nodes, P k) ↔
    (∀ q ∈ d.relation.queries, P (.derived q)) ∧ ∀ k ∈ d.condition?, P k := by
  simp only [nodes, forall_mem_append, forall_mem_map, mem_toList, Option.mem_def]

/-! ## What is collected -/

/-- A collection that goes into all queries. It takes nothing as a whole but nodes with nothing below them. -/
structure Harvest.Thorough {α : Type} (g : Harvest α) : Prop where
  node : ∀ {n : Node} {xs : List α}, g.node n = some xs → blocksOf? n = none ∧ n.operands = []
  relation : ∀ r : Relation, r.queries ≠ [] → g.relation r = none

section

variable {α : Type} {g : Harvest α} (hg : g.Thorough)

include hg

theorem Harvest.Thorough.node_of_blocks (hn : blocksOf? n = some bs) : g.node n = none := by
  cases hnode : g.node n with
  | none => rfl
  | some xs =>
    rw [(hg.node hnode).1] at hn
    cases hn

theorem Node.harvest_derived (q : Derived) : (Node.derived q).harvest g = q.block.harvest g := by
  rw [harvest_of_blocks (hg.node_of_blocks rfl) rfl, flatMap_singleton]

theorem Relation.harvest_subset (hq : q ∈ r.queries) : (Node.derived q).harvest g ⊆ r.harvest g := by
  have hr := hg.relation r (ne_nil_of_mem hq)
  intro x hx
  rw [Node.harvest_derived hg, ← q.harvest_block] at hx
  cases r with
  | table _ | cte _ _ => cases hq
  | derived q' =>
    obtain rfl := mem_singleton.1 hq
    simp only [harvest, hr]
    exact hx
  | union items =>
    obtain ⟨i, hi, rfl⟩ := mem_map.1 hq
    simp only [harvest, hr, harvestItems_eq]
    exact mem_flatMap.2 ⟨i.query, mem_map_of_mem hi, hx⟩

theorem Cte.harvest_subset {c : Cte} (hc : c ∈ ctes) (hq : q ∈ c.queries) :
    (Node.derived q).harvest g ⊆ harvestCtes g ctes := by
  intro x hx
  rw [Node.harvest_derived hg] at hx
  rw [harvestCtes_blocks]
  exact mem_flatMap.2 ⟨c, hc, mem_flatMap.2 ⟨q.block, mem_map_of_mem hq, hx⟩⟩

/-- What is collected from a node of a block is collected from the block. -/
theorem Block.harvest_subset (hk : k ∈ b.nodes) : k.harvest g ⊆ b.harvest g := by
  intro x hx
  rw [harvest, Select.harvest_eq, harvestSources_eq, harvestNodes_eq]
  simp only [mem_append]
  rcases mem_append.1 hk with hk | hk
  · left
    simp only [Select.nodes, mem_append, mem_map, mem_flatMap] at hk
    rcases hk with (⟨q, ⟨c, hc, hq⟩, rfl⟩ | ⟨d, hd, hk⟩) | hk
    · exact .inl (.inl (.inl (Cte.harvest_subset hg hc hq hx)))
    · refine .inl (.inl (.inr (mem_flatMap.2 ⟨d, hd, mem_append.2 ?_⟩)))
      rw [DataSource.nodes, mem_append, mem_map] at hk
      rcases hk with ⟨q, hq, rfl⟩ | hk
      · exact .inl (Relation.harvest_subset hg hq hx)
      · exact .inr (mem_flatMap.2 ⟨k, hk, hx⟩)
    · exact .inl (.inr (mem_flatMap.2 ⟨k, hk, hx⟩))
  · exact .inr (mem_flatMap.2 ⟨k, hk, hx⟩)

theorem Node.harvest_subset (hk : k ∈ n.children) : k.harvest g ⊆ n.harvest g := by
  intro x hx
  cases hblocks : blocksOf? n with
  | some bs =>
    rw [children_of_some hblocks] at hk
    obtain ⟨b, hb, hk⟩ := mem_flatMap.1 hk
    rw [harvest_of_blocks (hg.node_of_blocks hblocks) hblocks]
    exact mem_flatMap.2 ⟨b, hb, Block.harvest_subset hg hk hx⟩
  | none =>
    rw [children_of_none hblocks] at hk
    have hnode : g.node n = none := by
      cases hnode : g.node n with
      | none => rfl
      | some xs =>
        rw [(hg.node hnode).2] at hk
        cases hk
    rw [harvest_eq_operands hnode hblocks]
    exact mem_flatMap.2 ⟨k, hk, hx⟩

/-- What is collected from a node of a tree is collected from the tree. -/
theorem Node.Within.harvest_subset (hm : m.Within n) : m.harvest g ⊆ n.harvest g := by
  induction hm with
  | root => exact List.Subset.refl _
  | child hk _ ih => exact List.Subset.trans ih (Node.harvest_subset hg hk)

end

/-! ## Changes -/

/-- A change that inserts only trees with a condition on all nodes, and that keeps this condition of a
node that it does not replace. -/
structure Change.Respects (c : Change) (Q : Node → Prop) : Prop where
  node : ∀ {n n' : Node}, c.node n = some n' → n'.All Q
  query : ∀ d, c.node (.derived d) = none
  relation : ∀ {r r' : Relation}, c.relation r = some r' → ∀ q ∈ r'.queries, (Node.derived q).All Q
  sources : ∀ s, (c.select s).sources = s.sources
  clauses : ∀ s, (c.select s).clauses = s.clauses
  ctes : ∀ s, (c.select s).ctes ⊆ s.ctes
  keeps : ∀ {n : Node}, c.node n = none → Q n → Q (n.change c)

/-- A change that keeps the form of queries: it replaces no closed select as a node, and it takes nothing out of a select
but common table expressions. -/
structure Change.Faithful (c : Change) : Prop where
  query : ∀ d, c.node (.derived d) = none
  sources : ∀ s, (c.select s).sources = s.sources
  clauses : ∀ s, (c.select s).clauses = s.clauses
  ctes : ∀ s, (c.select s).ctes ⊆ s.ctes

theorem Change.Respects.faithful (hc : c.Respects Q) : c.Faithful :=
  ⟨hc.query, hc.sources, hc.clauses, hc.ctes⟩

/-- A query that a change puts in the place of what data sources read. -/
def Change.Puts (c : Change) (k : Node) : Prop := ∃ r r' q, c.relation r = some r' ∧ q ∈ r'.queries ∧ k = .derived q

theorem Change.Respects.all_of_puts (hc : c.Respects Q) (hk : c.Puts k) :
    k.All Q := by
  obtain ⟨r, r', q, hr, hq, rfl⟩ := hk
  exact hc.relation hr q hq

section

variable (hc : c.Faithful)

include hc

theorem Node.change_derived (q : Derived) : (Node.derived q).change c = .derived (q.change c) := by
  simp only [Node.change, hc.query]

omit hc in
/-- A query of a changed relation is a changed query or inserted. -/
theorem Relation.mem_queries_change (hq' : q' ∈ (r.change c).queries) :
    (∃ q ∈ r.queries, q' = q.change c) ∨ c.Puts (.derived q') := by
  cases hr : c.relation r with
  | some r' =>
    rw [change_of_some hr] at hq'
    exact .inr ⟨r, r', q', hr, hq', rfl⟩
  | none =>
    left
    cases r with
    | table _ | cte _ _ =>
      simp only [Relation.change, hr, queries, not_mem_nil] at hq'
    | derived q =>
      simp only [Relation.change, hr, queries, mem_singleton] at hq'
      exact ⟨q, mem_singleton_self q, hq'⟩
    | union items =>
      simp only [Relation.change, hr, queries, changeItems_eq, map_map, mem_map] at hq'
      obtain ⟨x, hx, rfl⟩ := hq'
      exact ⟨x.query, mem_map_of_mem hx, rfl⟩

omit hc in
theorem Cte.mem_queries_change {c' : Cte} (hc' : c' ∈ changeCtes c ctes)
    (hq' : q' ∈ c'.queries) : ∃ x ∈ ctes, ∃ q ∈ x.queries, q' = q.change c := by
  rw [changeCtes_eq] at hc'
  obtain ⟨x, hx, rfl⟩ := mem_map.1 hc'
  refine ⟨x, hx, ?_⟩
  rcases mem_cons.1 hq' with rfl | hq'
  · exact ⟨x.anchor, mem_cons_self, rfl⟩
  · obtain ⟨q, hq, rfl⟩ := Option.map_eq_some_iff.1 (mem_toList.1 hq')
    exact ⟨q, mem_cons_of_mem _ (mem_toList.2 hq), rfl⟩

/-- A node of a changed select is a changed node or inserted. -/
theorem Select.mem_nodes_change (hk : k ∈ (s.change c).nodes) : (∃ m ∈ s.nodes, k = m.change c) ∨ c.Puts k := by
  have hquery : ∀ q : Derived, (Node.derived q).change c = .derived (q.change c) := Node.change_derived hc
  simp only [nodes, mem_append, mem_map, mem_flatMap] at hk
  rcases hk with (⟨q', ⟨c', hc', hq'⟩, rfl⟩ | ⟨d', hd', hk⟩) | hk
  · have hctes : (s.change c).ctes ⊆ changeCtes c s.ctes := by
      cases s
      rw [Select.change]
      exact hc.ctes _
    obtain ⟨x, hx, q, hq, rfl⟩ := Cte.mem_queries_change (hctes hc') hq'
    refine .inl ⟨.derived q, ?_, (hquery q).symm⟩
    simp only [nodes, mem_append, mem_map, mem_flatMap]
    exact .inl (.inl ⟨q, ⟨x, hx, hq⟩, rfl⟩)
  · rw [sources_change hc.sources] at hd'
    obtain ⟨d, hd, hrelation, hcondition⟩ := mem_changeSources hd'
    have hmem : ∀ m ∈ d.nodes, m ∈ s.nodes := fun m hm => by
      simp only [nodes, mem_append, mem_flatMap]
      exact .inl (.inr ⟨d, hd, hm⟩)
    rw [DataSource.nodes, mem_append, mem_map, mem_toList, hrelation, hcondition] at hk
    rcases hk with ⟨q', hq', rfl⟩ | hk
    · rcases Relation.mem_queries_change hq' with ⟨q, hq, rfl⟩ | hputs
      · exact .inl ⟨.derived q, hmem _ (mem_append_left _ (mem_map_of_mem hq)), (hquery q).symm⟩
      · exact .inr hputs
    · obtain ⟨m, hm, rfl⟩ := Option.map_eq_some_iff.1 hk
      exact .inl ⟨m, hmem m (mem_append_right _ (mem_toList.2 hm)), rfl⟩
  · rw [clauses_change hc.clauses] at hk
    obtain ⟨m, hm, rfl⟩ := mem_map.1 hk
    exact .inl ⟨m, mem_append_right _ hm, rfl⟩

theorem Block.mem_nodes_change (hk : k ∈ (b.change c).nodes) : (∃ m ∈ b.nodes, k = m.change c) ∨ c.Puts k := by
  rcases mem_append.1 hk with hk | hk
  · rcases Select.mem_nodes_change hc hk with ⟨m, hm, rfl⟩ | hputs
    · exact .inl ⟨m, mem_append_left _ hm, rfl⟩
    · exact .inr hputs
  · obtain ⟨m, hm, rfl⟩ := mem_map.1 hk
    exact .inl ⟨m, mem_append_right _ hm, rfl⟩

/-- A node directly below a changed node is a changed node or inserted. -/
theorem Node.mem_children_change (hn : c.node n = none) (hk : k ∈ (n.change c).children) :
    (∃ m ∈ n.children, k = m.change c) ∨ c.Puts k := by
  cases hblocks : blocksOf? n with
  | none =>
    obtain ⟨hblocks', hoperands⟩ := operands_change hn hblocks
    rw [children_of_none hblocks', hoperands] at hk
    obtain ⟨m, hm, rfl⟩ := mem_map.1 hk
    exact .inl ⟨m, children_of_none hblocks ▸ hm, rfl⟩
  | some bs =>
    have hblocks' := blocksOf?_change hn
    rw [hblocks, Option.map_some] at hblocks'
    rw [children_of_some hblocks', flatMap_map] at hk
    obtain ⟨b, hb, hk⟩ := mem_flatMap.1 hk
    rcases Block.mem_nodes_change hc hk with ⟨m, hm, rfl⟩ | hputs
    · exact .inl ⟨m, children_of_some hblocks ▸ mem_flatMap.2 ⟨b, hb, hm⟩, rfl⟩
    · exact .inr hputs

/-- What holds of all nodes of a changed tree, if it follows for what a change inserts and for the nodes that it leaves
from what holds of all nodes of the tree.

**Proof sketch.** By induction on the way to a node of the changed tree. As long as nothing was inserted,
the node is one of the tree with its parts changed. -/
theorem Node.All.change_to (hputs : ∀ k, c.Puts k → k.All Q)
    (hnode : ∀ {n n' : Node}, c.node n = some n' → P n → n'.All Q)
    (hkeeps : ∀ {n : Node}, c.node n = none → P n → Q (n.change c)) (h : n.All P) : (n.change c).All Q := by
  intro m hm
  generalize hn' : n.change c = n' at hm
  induction hm generalizing n with
  | root =>
    subst hn'
    cases hn : c.node n with
    | some n' =>
      rw [change_of_some hn]
      exact (hnode hn h.root).root
    | none => exact hkeeps hn h.root
  | child hk hm ih =>
    subst hn'
    cases hn : c.node n with
    | some n' =>
      rw [change_of_some hn] at hk
      exact (hnode hn h.root).child hk _ hm
    | none =>
      rcases mem_children_change hc hn hk with ⟨k, hk', rfl⟩ | hk'
      · exact ih (h.child hk') rfl
      · exact hputs _ hk' _ hm

end

section

variable (hc : c.Respects Q)

include hc

/-- A change that inserts only what satisfies a condition keeps it. -/
theorem Node.All.change (h : n.All Q) : (n.change c).All Q :=
  h.change_to hc.faithful (fun _ hk => hc.all_of_puts hk) (fun hn _ => hc.node hn) hc.keeps

theorem Block.all_change (h : ∀ m ∈ b.nodes, m.All Q) : ∀ m ∈ (b.change c).nodes, m.All Q := by
  intro m hm
  rcases Block.mem_nodes_change hc.faithful hm with ⟨k, hk, rfl⟩ | hputs
  · exact (h k hk).change hc
  · exact hc.all_of_puts hputs

end

/-! ## Hoisting -/

/-- The outermost blocks of a tree have nodes of the tree only. -/
theorem Node.All.outermost (h : n.All Q) : ∀ b ∈ n.harvest outermost, ∀ k ∈ b.nodes, k.All Q := by
  induction n using Node.induction_on_operands with
  | step n ih =>
    intro b hb k hk
    cases hblocks : blocksOf? n with
    | some bs =>
      rw [harvest_of_some (g := Sql.outermost) hblocks] at hb
      exact h.child (children_of_some hblocks ▸ mem_flatMap.2 ⟨b, hb, hk⟩)
    | none =>
      rw [harvest_eq_operands (g := Sql.outermost) hblocks hblocks] at hb
      obtain ⟨m, hm, hb⟩ := mem_flatMap.1 hb
      exact ih m hm (h.child (children_of_none hblocks ▸ hm)) b hb k hk

theorem Relation.all_outermost (h : ∀ q ∈ r.queries, (Node.derived q).All Q) :
    ∀ b ∈ r.harvest outermost, ∀ k ∈ b.nodes, k.All Q := by
  intro b hb k hk
  cases r with
  | table _ | cte _ _ => cases hb
  | derived q =>
    obtain rfl := mem_singleton.1 hb
    exact (h q (mem_singleton_self q)).child (Node.children_derived q ▸ hk)
  | union items =>
    obtain ⟨i, hi, rfl⟩ := mem_map.1 hb
    exact (h i.query (mem_map_of_mem hi)).child (Node.children_derived i.query ▸ hk)

theorem Cte.all_blocks {x : Cte} (h : ∀ q ∈ x.queries, (Node.derived q).All Q) :
    ∀ b ∈ x.blocks, ∀ k ∈ b.nodes, k.All Q := by
  have hqueries : x.blocks = x.queries.map Derived.block := rfl
  intro b hb k hk
  rw [hqueries] at hb
  obtain ⟨q, hq, rfl⟩ := mem_map.1 hb
  exact (h q hq).child (Node.children_derived q ▸ hk)

theorem Block.all_inner (h : ∀ k ∈ b.nodes, k.All Q) : ∀ b' ∈ b.inner, ∀ k ∈ b'.nodes, k.All Q := by
  obtain ⟨hselect, hvalues⟩ := forall_mem_nodes.1 h
  obtain ⟨-, hsources, hclauses⟩ := Select.forall_mem_nodes.1 hselect
  rw [inner_eq, harvestSources_eq, forall_mem_append]
  refine ⟨forall_mem_flatMap.2 fun d hd => ?_, forall_mem_flatMap.2 fun n hn => ?_⟩
  · obtain ⟨hqueries, hcondition⟩ := DataSource.forall_mem_nodes.1 (hsources d hd)
    refine forall_mem_append.2 ⟨Relation.all_outermost hqueries, forall_mem_flatMap.2 fun n hn => ?_⟩
    exact (hcondition n (mem_toList.1 hn)).outermost
  · rcases mem_append.1 hn with hn | hn
    · exact (hclauses n hn).outermost
    · exact (hvalues n hn).outermost

/-- The common table expressions inside a block have nodes of the block only. -/
theorem Block.all_declared (h : ∀ k ∈ b.nodes, k.All Q) :
    ∀ x ∈ b.declared, ∀ q ∈ x.queries, (Node.derived q).All Q := by
  induction b using Block.induction with
  | step b ihinner ihctes =>
    intro x hx
    have hctes := (Select.forall_mem_nodes.1 (forall_mem_nodes.1 h).1).1
    rcases mem_declared.1 hx with hx | ⟨y, hy, b', hb', hx⟩ | ⟨b', hb', hx⟩
    · exact hctes x hx
    · exact ihctes y hy b' hb' (Cte.all_blocks (hctes y hy) b' hb') x hx
    · exact ihinner b' hb' (all_inner h b' hb') x hx

/-- Moving common table expressions to the front keeps a condition on all nodes that they may be taken
out of. -/
theorem Statement.All.hoist {s : Statement} (hs : s.ctes = []) (hc : withoutCtes.Respects Q) (h : s.All Q) :
    s.hoist.All Q := by
  have hbody : ∀ k ∈ s.body.block.nodes, k.All Q := fun k hk => h k (mem_append_right _ hk)
  refine forall_mem_append.2 ⟨forall_mem_map.2 fun q' hq' => ?_, ?_⟩
  · obtain ⟨x', hx', hq'⟩ := mem_flatMap.1 hq'
    obtain ⟨x, hx, rfl⟩ := (mem_ctes_hoist hs).1 hx'
    have hqueries := Block.all_declared hbody x (s.body.declared_block ▸ mem_of_mem_firstOfEach hx)
    have hbare : x.bare ∈ changeCtes withoutCtes [x] := by
      rw [changeCtes_eq, map_singleton, Cte.bare, changeRecursive_eq]
      exact mem_singleton_self _
    obtain ⟨y, hy, q, hq, rfl⟩ := Cte.mem_queries_change hbare hq'
    obtain rfl := mem_singleton.1 hy
    rw [← Node.change_derived hc.faithful]
    exact (hqueries q hq).change hc
  · rw [Statement.hoist, Body.block_bare]
    exact Block.all_change hc hbody

end Sql

end QueryLowering
