import QueryLowering.Proofs.Aliases

/-!
# Blocks inside blocks

Which blocks stand directly inside a block, and what becomes of them when something is collected from a
tree or its common table expressions are taken out.

## Main results

* `Sql.Block.induction`: what holds of a block if it holds of the blocks inside holds of every block.
* `Sql.Block.declared_eq`: the common table expressions of a block, in their order.
* `Sql.Block.inner_bare`: the blocks inside a block without common table expressions.
-/

namespace QueryLowering

open List

namespace Sql

variable (b : Block) (s : Select)

variable {α : Type}

/-- What is collected from a block. A common table expression is no part of the select that declares
it. -/
def Block.gather (g : Harvest α) (b : Block) : List α :=
  { b.select with ctes := [] }.harvest g ++ harvestNodes g b.values

theorem Block.gather_eq {g : Harvest α} (hg : ∀ s, g.select s = []) (b : Block) : b.gather g =
    harvestSources g b.select.sources ++ (b.select.clauses ++ b.values).flatMap (Node.harvest g) := by
  rw [gather, Select.harvest_eq, hg, harvestNodes_eq]
  simp [harvestCtes, Select.clauses]

theorem Block.inner_eq : b.inner = harvestSources outermost b.select.sources
      ++ (b.select.clauses ++ b.values).flatMap (Node.harvest outermost) := gather_eq (fun _ => rfl) b

/-- A block has what it has if the blocks inside it and those of its common table expressions do. -/
theorem Block.induction {P : Block → Prop} (step : ∀ b, (∀ b' ∈ b.inner, P b') →
    (∀ c ∈ b.select.ctes, ∀ b' ∈ c.blocks, P b') → P b) (b : Block) : P b := by
  refine (tree_induction (N := fun n => ∀ b ∈ n.harvest outermost, P b) (fun n ihoperands ihblocks => ?_)
    fun b ihctes ihsources ihnodes => step b ?_ ihctes).2 b
  · cases hn : blocksOf? n with
    | some bs =>
      rw [Node.harvest_of_some (g := outermost) hn]
      exact ihblocks bs hn
    | none =>
      rw [Node.harvest_eq_operands (g := outermost) hn hn]
      exact forall_mem_flatMap.2 ihoperands
  · rw [inner_eq, harvestSources_eq, forall_mem_append, forall_mem_flatMap, forall_mem_flatMap]
    refine ⟨fun d hd => forall_mem_append.2 ⟨?_, ?_⟩, ihnodes⟩
    · cases hr : relationBlocks? d.relation with
      | some bs =>
        rw [Relation.harvest_of_some (g := outermost) hr]
        exact (ihsources d hd).1 bs hr
      | none =>
        rw [Relation.harvest_of_none (g := outermost) hr hr]
        exact forall_mem_nil _
    · exact forall_mem_flatMap.2 fun n hn => (ihsources d hd).2 n (Option.mem_toList.1 hn)

/-! ## Collecting from inner blocks -/

/-- A collection that takes no query as a whole. -/
structure Harvest.Enters (g : Harvest α) : Prop where
  node : ∀ n, g.node n = none
  relation : ∀ {r bs}, relationBlocks? r = some bs → g.relation r = none

section

variable {g : Harvest α}

/-- What is collected from a node is collected from its outermost blocks. -/
theorem Node.harvest_outermost (hg : g.Enters) (n : Node) :
    n.harvest g = (n.harvest outermost).flatMap (Block.harvest g) := by
  induction n using Node.induction_on_operands with
  | step n ih =>
    cases hn : blocksOf? n with
    | some bs =>
      rw [harvest_of_some (g := outermost) hn]
      exact harvest_of_blocks (hg.node n) hn
    | none =>
      rw [harvest_eq_operands (g := outermost) hn hn, harvest_eq_operands (hg.node n) hn, flatMap_assoc]
      exact flatMap_congr ih

/-- What is collected from a relation is taken from it as a whole or collected from its blocks. -/
theorem Relation.harvest_outermost (hg : g.Enters) (r : Relation) :
    r.harvest g = (g.relation r).getD [] ++ (r.harvest outermost).flatMap (Block.harvest g) := by
  cases hr : relationBlocks? r with
  | some bs => simp [harvest_of_blocks (hg.relation hr) hr, harvest_of_some (g := outermost) hr, hg.relation hr]
  | none =>
    rw [harvest_of_none (g := outermost) hr hr, flatMap_nil, append_nil]
    cases hrelation : g.relation r with
    | none => exact harvest_of_none hrelation hr
    | some xs => exact harvest_of_some hrelation

/-- What is collected from a block: from its common table expressions, its data sources and clauses, from
its select itself, and from its values. -/
theorem Block.harvest_eq (hg : g.Enters) (b : Block) : b.harvest g =
    (b.select.ctes.flatMap fun c => c.blocks.flatMap (harvest g))
      ++ (b.select.sources.flatMap fun d => (g.relation d.relation).getD [] ++ (d.relation.harvest outermost
        ++ d.condition?.toList.flatMap (Node.harvest outermost)).flatMap (harvest g))
      ++ (b.select.clauses.flatMap (Node.harvest outermost)).flatMap (harvest g)
      ++ g.select b.select ++ (b.values.flatMap (Node.harvest outermost)).flatMap (harvest g) := by
  have hnodes : ∀ ns : List Node,
      ns.flatMap (Node.harvest g) = (ns.flatMap (Node.harvest outermost)).flatMap (harvest g) := by
    intro ns
    rw [flatMap_assoc]
    exact flatMap_congr fun n _ => n.harvest_outermost hg
  have hsources : harvestSources g b.select.sources = b.select.sources.flatMap fun d =>
      (g.relation d.relation).getD [] ++ (d.relation.harvest outermost
        ++ d.condition?.toList.flatMap (Node.harvest outermost)).flatMap (harvest g) := by
    rw [harvestSources_eq]
    refine flatMap_congr fun d _ => ?_
    rw [Relation.harvest_outermost hg, hnodes, flatMap_append, append_assoc]
  rw [harvest, Select.harvest_eq, harvestCtes_blocks, harvestNodes_eq, hsources, hnodes, hnodes]

theorem Block.mem_harvest (hg : g.Enters) {b : Block} {x : α} : x ∈ b.harvest g ↔
    x ∈ g.select b.select ∨ (∃ d ∈ b.select.sources, ∃ xs ∈ g.relation d.relation, x ∈ xs) ∨
      (∃ c ∈ b.select.ctes, ∃ b' ∈ c.blocks, x ∈ b'.harvest g) ∨ ∃ b' ∈ b.inner, x ∈ b'.harvest g := by
  have htaken : ∀ o : Option (List α), x ∈ o.getD [] ↔ ∃ xs ∈ o, x ∈ xs := by
    intro o
    cases o with
    | none => simp
    | some xs => simp
  rw [harvest_eq hg, inner_eq, harvestSources_eq]
  simp only [flatMap_append, mem_append, mem_flatMap, htaken]
  grind

end

/-! ## Declared common table expressions -/

/-- The common table expressions that are declared inside a block, at any depth. -/
def Block.declared (b : Block) : List Cte := b.harvest declaredCtes

theorem Body.declared_block (x : Body) : x.declared = x.block.declared := by
  cases x with
  | query d => exact d.harvest_block declaredCtes
  | update u => exact u.harvest_block declaredCtes
  | delete d => exact d.harvest_block declaredCtes

theorem enters_declaredCtes : declaredCtes.Enters := ⟨fun _ => rfl, fun _ => rfl⟩

/-- The common table expressions of a block: those inside its common table expressions, those inside
its data sources and clauses, its own ones, and those inside its values. -/
theorem Block.declared_eq : b.declared = (b.select.ctes.flatMap fun c => c.blocks.flatMap declared)
      ++ (harvestSources outermost b.select.sources
        ++ b.select.clauses.flatMap (Node.harvest outermost)).flatMap declared
      ++ b.select.ctes ++ (b.values.flatMap (Node.harvest outermost)).flatMap declared := by
  rw [show declared = harvest declaredCtes from rfl, harvest_eq enters_declaredCtes, harvestSources_eq]
  simp [declaredCtes, flatMap_assoc]

theorem Block.mem_declared {b : Block} {c : Cte} : c ∈ b.declared ↔
    c ∈ b.select.ctes ∨ (∃ d ∈ b.select.ctes, ∃ b' ∈ d.blocks, c ∈ b'.declared) ∨ ∃ b' ∈ b.inner, c ∈ b'.declared := by
  rw [declared, mem_harvest enters_declaredCtes]
  simp [declaredCtes, declared]

/-! ## Changed blocks -/

section

variable {c : Change}

/-- A changed data source reads a changed relation under a changed condition. -/
theorem mem_changeSources {l : List DataSource} {d' : DataSource} (hd' : d' ∈ changeSources c l) :
    ∃ d ∈ l, d'.relation = d.relation.change c ∧ d'.condition? = d.condition?.map (Node.change c) := by
  rw [changeSources_eq] at hd'
  obtain ⟨d, hd, rfl⟩ := mem_map.1 hd'
  exact ⟨d, hd, rfl, d.condition?_change _⟩

theorem Select.clauses_change (hc : ∀ s, (c.select s).clauses = s.clauses) (s : Select) :
    (s.change c).clauses = s.clauses.map (Node.change c) := by
  rw [Select.change_eq, hc, Select.clauses_changeParts]

theorem Select.sources_change (hc : ∀ s, (c.select s).sources = s.sources) (s : Select) :
    (s.change c).sources = changeSources c s.sources := by
  cases s
  rw [Select.change, hc]

end

/-! ## Blocks without common table expressions -/

/-- A block without the common table expressions that are declared inside. -/
def Block.bare (b : Block) : Block := b.change withoutCtes

theorem Derived.block_bare (d : Derived) : (d.change withoutCtes).block = d.block.bare := d.block_change withoutCtes

theorem Body.block_bare (x : Body) : x.bare.block = x.block.bare := by
  cases x with
  | query d => exact d.block_bare
  | update u => exact u.block_change withoutCtes
  | delete d => exact d.block_change withoutCtes

theorem Cte.blocks_bare (c : Cte) : c.bare.blocks = c.blocks.map Block.bare := by
  obtain ⟨name, anchor, recursive⟩ := c
  cases recursive <;> simp [blocks, bare, changeRecursive, Derived.block_bare]

theorem Select.clauses_bare : (s.change withoutCtes).clauses = s.clauses.map (Node.change withoutCtes) :=
  clauses_change (c := withoutCtes) (fun _ => rfl) s

theorem Select.sources_bare : (s.change withoutCtes).sources = changeSources withoutCtes s.sources :=
  sources_change (fun _ => rfl) s

theorem Select.projection_bare : (s.change withoutCtes).projection = changeOption withoutCtes s.projection := by
  cases s
  rfl

theorem Select.filter_bare : (s.change withoutCtes).filter = changeOption withoutCtes s.filter := by
  cases s
  rfl

theorem Select.orderBy_bare : (s.change withoutCtes).orderBy = changeOrder withoutCtes s.orderBy := by
  cases s
  rfl

theorem Block.aliases_bare : b.bare.aliases = b.aliases := by
  rw [aliases, Select.aliases, bare, change, Select.sources_bare, History.map_name_changeSources]
  rfl

theorem Block.ctes_bare : b.bare.select.ctes = [] := by
  obtain ⟨⟨⟩, values⟩ := b
  rfl

/-- A collection that takes nothing from inside a query, and that takes corresponding items from a tree
and from the tree without common table expressions. -/
structure Harvest.Follows (g : Harvest α) (f : α → α) : Prop where
  node : ∀ n, g.node (n.change withoutCtes) = (g.node n).map (List.map f)
  relation : ∀ r, g.relation (r.change withoutCtes) = (g.relation r).map (List.map f)
  query : ∀ n, g.node n = none → blocksOf? n = none
  joined : ∀ r, g.relation r = none → relationBlocks? r = none
  select : ∀ s, g.select s = []

section

variable {g : Harvest α} {f : α → α}

theorem Node.harvest_bare (hg : g.Follows f) (n : Node) : (n.change withoutCtes).harvest g = (n.harvest g).map f := by
  induction n using Node.induction_on_operands with
  | step n ih =>
    cases hnode : g.node n with
    | some xs =>
      have hnode' : g.node (n.change withoutCtes) = some (xs.map f) := by rw [hg.node, hnode, Option.map_some]
      rw [harvest_of_some hnode, harvest_of_some hnode']
    | none =>
      have hnode' : g.node (n.change withoutCtes) = none := by rw [hg.node, hnode, Option.map_none]
      have hn := hg.query n hnode
      obtain ⟨hn', hoperands⟩ := operands_change (c := withoutCtes) rfl hn
      rw [harvest_eq_operands hnode hn, harvest_eq_operands hnode' hn', hoperands, flatMap_map, map_flatMap]
      exact flatMap_congr ih

theorem Relation.harvest_bare (hg : g.Follows f) (r : Relation) :
    (r.change withoutCtes).harvest g = (r.harvest g).map f := by
  cases hrelation : g.relation r with
  | some xs =>
    have hrelation' : g.relation (r.change withoutCtes) = some (xs.map f) := by
      rw [hg.relation, hrelation, Option.map_some]
    rw [harvest_of_some hrelation, harvest_of_some hrelation']
  | none =>
    have hrelation' : g.relation (r.change withoutCtes) = none := by
      rw [hg.relation, hrelation, Option.map_none]
    have hr := hg.joined r hrelation
    cases r with
    | derived _ | union _ => cases hr
    | table t | cte a columns =>
      simp only [Relation.change, withoutCtes] at hrelation'
      simp [Relation.change, withoutCtes, Relation.harvest, hrelation]

/-- What is collected from a block without common table expressions. -/
theorem Block.gather_bare (hg : g.Follows f) (b : Block) : b.bare.gather g = (b.gather g).map f := by
  have hnodes : ∀ ns : List Node, (ns.map (Node.change withoutCtes)).flatMap (Node.harvest g) =
      (ns.flatMap (Node.harvest g)).map f := by
    intro ns
    rw [flatMap_map, map_flatMap]
    exact flatMap_congr fun n _ => n.harvest_bare hg
  have hsources : ∀ l : List DataSource, harvestSources g (changeSources withoutCtes l) =
      (harvestSources g l).map f := by
    intro l
    induction l with
    | nil => rfl
    | cons d rest ih =>
      obtain ⟨name, relation, join, navigation⟩ := d
      rw [changeSources, harvestSources, harvestSources, ih, Relation.harvest_bare hg]
      cases join with
      | none => simp [changeJoin, harvestJoin]
      | some join =>
        obtain ⟨kind, condition⟩ := join
        cases condition with
        | none => simp [changeJoin, harvestJoin, changeOption, harvestOption]
        | some n => simp [changeJoin, harvestJoin, changeOption, harvestOption, n.harvest_bare hg]
  rw [gather_eq hg.select, gather_eq hg.select, bare, change, Select.sources_bare, Select.clauses_bare, hsources,
    ← map_append, hnodes, map_append]

end

theorem follows_outermost : outermost.Follows Block.bare where
  node _ := blocksOf?_change rfl
  relation _ := relationBlocks?_change rfl
  query _ h := h
  joined _ h := h
  select _ := rfl

theorem Block.inner_bare : b.bare.inner = b.inner.map Block.bare := gather_bare follows_outermost b

end Sql

end QueryLowering
