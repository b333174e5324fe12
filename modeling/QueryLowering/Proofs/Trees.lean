import QueryLowering.Sql.Substitute
import QueryLowering.Sql.Hoist

/-!
# SQL trees

A tree is made of nodes and of blocks, which are selects with the values that are written in them: a node
is put together from other nodes or is a query made of blocks, and a block has nodes in its clauses and
values, and blocks in its data sources and common table expressions. What is collected from a tree, and
what becomes of it when it is changed, follows this structure, and so does induction over trees.

## Main results

* `Sql.tree_induction`: what holds of nodes and blocks if it holds of their parts holds of all trees.
-/

namespace QueryLowering

open List

namespace Sql

variable {α β γ : Type} {r : Relation} {n : Node}

/-- A select with the values that are written in it: a closed select with its output columns, or the
select of an update with the values that it assigns. -/
structure Block where
  select : Select
  values : List Node

/-- A closed select as a block. -/
def Derived.block (d : Derived) : Block := ⟨d.select, d.columns.map (·.expr)⟩

/-- The select of an update as a block. -/
def Update.block (u : Update) : Block := ⟨u.select, u.assignments.map (·.2)⟩

/-- The select of a deletion as a block. -/
def Delete.block (d : Delete) : Block := ⟨d.select, []⟩

/-- The blocks of a common table expression. -/
def Cte.blocks (c : Cte) : List Block := c.anchor.block :: c.recursive.toList.map Derived.block

/-- The block of what a statement does. -/
def Body.block : Body → Block
  | .query d => d.block
  | .update u => u.block
  | .delete d => d.block

/-- The blocks that a node is made of, if it is a query. -/
def blocksOf? : Node → Option (List Block)
  | .select s => some [⟨s, []⟩]
  | .derived d => some [d.block]
  | .rows d => some [d.block]
  | .existence d => some [d.block]
  | .subquery d => some [d.block]
  | .union items => some (items.map (·.query.block))
  | .update u => some [u.block]
  | .delete d => some [d.block]
  | _ => none

/-- The blocks that a relation is made of, if it is a query. -/
def relationBlocks? : Relation → Option (List Block)
  | .derived d => some [d.block]
  | .union items => some (items.map (·.query.block))
  | _ => none

variable {bs : List Block}

/-! ## Lists of parts -/

/-- A function of lists that goes from element to element maps them. -/
theorem eq_map_of_cons {f : List β → List γ} {g : β → γ} (hnil : f [] = [])
    (hcons : ∀ x rest, f (x :: rest) = g x :: f rest) (l : List β) : f l = l.map g := by
  induction l with
  | nil => exact hnil
  | cons x rest ih => rw [hcons, ih, map_cons]

/-- A function of lists that goes from element to element puts together what it makes of them. -/
theorem eq_flatMap_of_cons {f : List β → List γ} {g : β → List γ} (hnil : f [] = [])
    (hcons : ∀ x rest, f (x :: rest) = g x ++ f rest) (l : List β) : f l = l.flatMap g := by
  induction l with
  | nil => exact hnil
  | cons x rest ih => rw [hcons, ih, flatMap_cons]

section

variable (g : Harvest α)

theorem harvestNodes_eq (ns : List Node) : harvestNodes g ns = ns.flatMap (Node.harvest g) :=
  eq_flatMap_of_cons rfl (fun _ _ => rfl) ns

theorem harvestOption_eq (o : Option Node) : harvestOption g o = o.toList.flatMap (Node.harvest g) := by
  cases o with
  | none => rfl
  | some n => simp [harvestOption]

theorem harvestEntries_eq (entries : List (Path × Node)) :
    harvestEntries g entries = (entries.map (·.2)).flatMap (Node.harvest g) := by
  rw [flatMap_map]
  exact eq_flatMap_of_cons rfl (fun _ _ => rfl) entries

theorem harvestAssignments_eq (assignments : List (String × Node)) :
    harvestAssignments g assignments = (assignments.map (·.2)).flatMap (Node.harvest g) := by
  rw [flatMap_map]
  exact eq_flatMap_of_cons rfl (fun _ _ => rfl) assignments

theorem harvestColumns_eq (columns : List OutputColumn) :
    harvestColumns g columns = (columns.map (·.expr)).flatMap (Node.harvest g) := by
  rw [flatMap_map]
  exact eq_flatMap_of_cons rfl (fun ⟨_, _, _⟩ _ => rfl) columns

theorem harvestOrder_eq (keys : List OrderItem) :
    harvestOrder g keys = (keys.map (·.expr)).flatMap (Node.harvest g) := by
  rw [flatMap_map]
  exact eq_flatMap_of_cons rfl (fun ⟨_, _⟩ _ => rfl) keys

theorem harvestItems_eq (items : List UnionItem) :
    harvestItems g items = (items.map (·.query)).flatMap (Derived.harvest g) := by
  rw [flatMap_map]
  exact eq_flatMap_of_cons rfl (fun ⟨_, _⟩ _ => rfl) items

end

section

variable (c : Change)

theorem changeNodes_eq (ns : List Node) : changeNodes c ns = ns.map (Node.change c) :=
  eq_map_of_cons rfl (fun _ _ => rfl) ns

theorem changeOption_eq (o : Option Node) : changeOption c o = o.map (Node.change c) := by
  cases o <;> rfl

theorem changeEntries_eq (entries : List (Path × Node)) :
    changeEntries c entries = entries.map fun e => (e.1, e.2.change c) := eq_map_of_cons rfl (fun _ _ => rfl) entries

theorem changeAssignments_eq (assignments : List (String × Node)) :
    changeAssignments c assignments = assignments.map fun a => (a.1, a.2.change c) :=
  eq_map_of_cons rfl (fun _ _ => rfl) assignments

theorem changeColumns_eq (columns : List OutputColumn) :
    changeColumns c columns = columns.map fun x => { x with expr := x.expr.change c } :=
  eq_map_of_cons rfl (fun ⟨_, _, _⟩ _ => rfl) columns

theorem changeOrder_eq (keys : List OrderItem) :
    changeOrder c keys = keys.map fun x => { x with expr := x.expr.change c } :=
  eq_map_of_cons rfl (fun ⟨_, _⟩ _ => rfl) keys

theorem changeItems_eq (items : List UnionItem) :
    changeItems c items = items.map fun x => { x with query := x.query.change c } :=
  eq_map_of_cons rfl (fun ⟨_, _⟩ _ => rfl) items

theorem changeSources_eq (sources : List DataSource) : changeSources c sources = sources.map fun d =>
    { d with relation := d.relation.change c, join := changeJoin c d.join } :=
  eq_map_of_cons rfl (fun ⟨_, _, _, _⟩ _ => rfl) sources

theorem changeRecursive_eq (o : Option Derived) : changeRecursive c o = o.map (Derived.change c) := by
  cases o <;> rfl

theorem changeCtes_eq (ctes : List Cte) : changeCtes c ctes = ctes.map fun x =>
    ⟨x.name, x.anchor.change c, x.recursive.map (Derived.change c)⟩ := by
  simp only [← changeRecursive_eq]
  exact eq_map_of_cons rfl (fun ⟨_, _, _⟩ _ => rfl) ctes

end

/-! ## Operands -/

namespace Node

/-- The nodes that a node is put together from. A query has none. -/
def operands : Node → List Node
  | composite entries => entries.map (·.2)
  | grouping key element => [key, element]
  | list items => items
  | binary _ l r => [l, r]
  | unary _ e | isNull e _ | cast e _ | datePart _ e => [e]
  | choice t a b => [t, a, b]
  | function _ args => args
  | aggregate _ arg => arg.toList
  | dateAdd _ a e => [a, e]
  | dateDiff _ a b => [a, b]
  | inValues e values _ => e :: values
  | _ => []

variable {g : Harvest α} {c : Change} {n : Node}

theorem harvest_of_some {xs : List α} (h : g.node n = some xs) : n.harvest g = xs := by
  cases n <;> simp only [harvest, h]

/-- What is collected from a node that is no query and of which nothing is taken as a whole. -/
theorem harvest_eq_operands (h : g.node n = none) (hn : blocksOf? n = none) :
    n.harvest g = n.operands.flatMap (harvest g) := by
  cases n with
  | select _ | derived _ | rows _ | existence _ | subquery _ | union _ | update _ | delete _ => cases hn
  | _ =>
    simp [harvest, h, operands, harvestNodes_eq, harvestOption_eq, harvestEntries_eq]

/-- A node that is no query and that no other node takes the place of changes in its operands only. -/
theorem operands_change (h : c.node n = none) (hn : blocksOf? n = none) :
    blocksOf? (n.change c) = none ∧ (n.change c).operands = n.operands.map (change c) := by
  cases n with
  | select _ | derived _ | rows _ | existence _ | subquery _ | union _ | update _ | delete _ => cases hn
  | aggregate f arg =>
    cases arg <;> simp [change, h, operands, blocksOf?, changeOption]
  | _ => simp [change, h, operands, blocksOf?, changeNodes_eq, changeEntries_eq]

end Node

theorem Relation.harvest_of_some {g : Harvest α} {xs : List α} (h : g.relation r = some xs) :
    r.harvest g = xs := by
  cases r <;> simp only [Relation.harvest, h]

/-! ## Clauses -/

/-- The nodes of the clauses of a select. -/
def Select.clauses (s : Select) : List Node :=
  s.projection.toList ++ s.filter.toList ++ s.groupBy.toList ++ s.groupElement.toList ++ s.having.toList
    ++ s.top.toList ++ s.skip.toList ++ s.orderBy.map (·.expr)

/-- The condition of the join of a data source. -/
def DataSource.condition? (d : DataSource) : Option Node := d.join.bind (·.condition)

section

variable (g : Harvest α)

theorem harvestSources_eq (sources : List DataSource) : harvestSources g sources =
    sources.flatMap fun d => d.relation.harvest g ++ d.condition?.toList.flatMap (Node.harvest g) := by
  induction sources with
  | nil => rfl
  | cons d rest ih =>
    obtain ⟨name, relation, join, navigation⟩ := d
    rw [harvestSources, ih, flatMap_cons]
    cases join with
    | none => rfl
    | some join =>
      cases join
      simp [harvestJoin, harvestOption_eq, DataSource.condition?]

theorem Select.harvest_eq (s : Select) : s.harvest g =
    harvestCtes g s.ctes ++ harvestSources g s.sources ++ s.clauses.flatMap (Node.harvest g) ++ g.select s := by
  obtain ⟨sources, projection, filter, groupBy, groupElement, having, orderBy, top, skip, distinct,
    defaultIfEmpty, ctes⟩ := s
  simp [Select.harvest, clauses, harvestOption_eq, harvestOrder_eq]

end

/-! ## Collecting from blocks -/

/-- What is collected from a block and from all that is declared and read inside it. -/
def Block.harvest (g : Harvest α) (b : Block) : List α := b.select.harvest g ++ harvestNodes g b.values

section

variable (g : Harvest α)

theorem Derived.harvest_block (d : Derived) : d.harvest g = d.block.harvest g := by
  obtain ⟨id, select, columns⟩ := d
  rw [Derived.harvest, harvestColumns_eq, Block.harvest, harvestNodes_eq, block]

theorem Update.harvest_block (u : Update) : u.harvest g = u.block.harvest g := by
  obtain ⟨target, select, assignments⟩ := u
  rw [Update.harvest, harvestAssignments_eq, Block.harvest, harvestNodes_eq, block]

theorem Delete.harvest_block (d : Delete) : d.harvest g = d.block.harvest g := by
  obtain ⟨target, select⟩ := d
  simp [Delete.harvest, Block.harvest, harvestNodes, block]

theorem harvestItems_blocks (items : List UnionItem) :
    harvestItems g items = (items.map (·.query.block)).flatMap (Block.harvest g) := by
  simp only [harvestItems_eq, flatMap_map, Derived.harvest_block]

theorem harvestCtes_blocks (ctes : List Cte) :
    harvestCtes g ctes = ctes.flatMap fun c => c.blocks.flatMap (Block.harvest g) := by
  induction ctes with
  | nil => rfl
  | cons c rest ih =>
    obtain ⟨name, anchor, recursive⟩ := c
    rw [harvestCtes, ih, flatMap_cons, anchor.harvest_block]
    cases recursive with
    | none => simp [harvestRecursive, Cte.blocks]
    | some d => simp [harvestRecursive, Cte.blocks, d.harvest_block]

end

section

variable {g : Harvest α}

/-- A query of which nothing is taken as a whole gives what its blocks give. -/
theorem Node.harvest_of_blocks (h : g.node n = none) (hn : blocksOf? n = some bs) :
    n.harvest g = bs.flatMap (Block.harvest g) := by
  cases n with cases hn
  | select s =>
    simp [Node.harvest, h, Block.harvest, harvestNodes]
  | derived d | rows d | existence d | subquery d | update d | delete d =>
    rw [flatMap_singleton, ← d.harvest_block]
    simp only [Node.harvest, h]
  | union items =>
    rw [← harvestItems_blocks]
    simp only [Node.harvest, h]

theorem Relation.harvest_of_none (h : g.relation r = none) (hr : relationBlocks? r = none) :
    r.harvest g = [] := by
  cases r with
  | table _ | cte _ _ => simp only [Relation.harvest, h]
  | derived _ | union _ => cases hr

/-- A relation of which nothing is taken as a whole gives what its blocks give. -/
theorem Relation.harvest_of_blocks (h : g.relation r = none)
    (hr : relationBlocks? r = some bs) : r.harvest g = bs.flatMap (Block.harvest g) := by
  cases r with
  | table _ | cte _ _ => cases hr
  | derived d =>
    obtain rfl := Option.some.inj hr
    rw [flatMap_singleton, ← d.harvest_block]
    simp only [Relation.harvest, h]
  | union items =>
    obtain rfl := Option.some.inj hr
    rw [← harvestItems_blocks]
    simp only [Relation.harvest, h]

end

/-! ## Changed blocks -/

/-- A block with its parts changed. -/
def Block.change (c : Change) (b : Block) : Block := ⟨b.select.change c, b.values.map (Node.change c)⟩

section

variable (c : Change)

theorem Derived.block_change (d : Derived) : (d.change c).block = d.block.change c := by
  obtain ⟨id, select, columns⟩ := d
  simp [Derived.change, block, Block.change, changeColumns_eq]

theorem Update.block_change (u : Update) : (u.change c).block = u.block.change c := by
  obtain ⟨target, select, assignments⟩ := u
  simp [Update.change, block, Block.change, changeAssignments_eq]

theorem Delete.block_change (d : Delete) : (d.change c).block = d.block.change c := by
  obtain ⟨target, select⟩ := d
  rfl

theorem map_block_changeItems (items : List UnionItem) :
    (changeItems c items).map (·.query.block) = (items.map (·.query.block)).map (Block.change c) := by
  simp [changeItems_eq, Derived.block_change]

end

section

variable {c : Change}

theorem Node.change_of_some {n' : Node} (h : c.node n = some n') : n.change c = n' := by
  cases n <;> simp only [Node.change, h]

theorem Relation.change_of_some {r' : Relation} (h : c.relation r = some r') : r.change c = r' := by
  cases r <;> simp only [Relation.change, h]

/-- The blocks of a query that no other node takes the place of. -/
theorem blocksOf?_change (h : c.node n = none) :
    blocksOf? (n.change c) = (blocksOf? n).map (List.map (Block.change c)) := by
  cases n with
  | derived d | rows d | existence d | subquery d | update d | delete d =>
    simp only [Node.change, h]
    exact congrArg (fun b => some [b]) (d.block_change c)
  | union items =>
    simp only [Node.change, h]
    exact congrArg some (map_block_changeItems c items)
  | _ =>
    simp only [Node.change, h]
    rfl

/-- The blocks of a relation that no other one takes the place of. -/
theorem relationBlocks?_change (h : c.relation r = none) :
    relationBlocks? (r.change c) = (relationBlocks? r).map (List.map (Block.change c)) := by
  cases r with simp only [Relation.change, h]
  | table _ | cte _ _ => rfl
  | derived d => exact congrArg (fun b => some [b]) (d.block_change c)
  | union items => exact congrArg some (map_block_changeItems c items)

/-- A select with its parts changed, before it is changed as a whole. -/
def Select.changeParts (c : Change) (s : Select) : Select := { s with
    sources := changeSources c s.sources
    projection := changeOption c s.projection
    filter := changeOption c s.filter
    groupBy := changeOption c s.groupBy
    groupElement := changeOption c s.groupElement
    having := changeOption c s.having
    orderBy := changeOrder c s.orderBy
    top := changeOption c s.top
    skip := changeOption c s.skip
    ctes := changeCtes c s.ctes }

theorem Select.change_eq (s : Select) : s.change c = c.select (s.changeParts c) := by
  cases s
  rfl

theorem Select.clauses_changeParts (s : Select) : (s.changeParts c).clauses = s.clauses.map (Node.change c) := by
  have hoption : ∀ o : Option Node, (changeOption c o).toList = o.toList.map (Node.change c) := by
    intro o
    cases o with
    | none => rfl
    | some n => rfl
  simp [changeParts, clauses, changeOrder_eq, hoption]

theorem DataSource.condition?_change (d : DataSource) (r : Relation) :
    ({ d with relation := r, join := changeJoin c d.join } : DataSource).condition? =
      d.condition?.map (Node.change c) := by
  obtain ⟨name, relation, join, navigation⟩ := d
  cases join with
  | none => rfl
  | some join =>
    obtain ⟨kind, condition⟩ := join
    exact changeOption_eq c condition

theorem Cte.blocks_change (x : Cte) :
    Cte.blocks ⟨x.name, x.anchor.change c, x.recursive.map (Derived.change c)⟩ = x.blocks.map (Block.change c) := by
  obtain ⟨name, anchor, recursive⟩ := x
  cases recursive <;> simp [blocks, Derived.block_change]

end

/-! ## Induction -/

section

variable {N : Node → Prop} {B : Block → Prop}
variable (node : ∀ n, (∀ m ∈ n.operands, N m) → (∀ bs ∈ blocksOf? n, ∀ b ∈ bs, B b) → N n)
variable (block : ∀ b : Block, (∀ c ∈ b.select.ctes, ∀ b' ∈ c.blocks, B b') →
  (∀ d ∈ b.select.sources, (∀ bs ∈ relationBlocks? d.relation, ∀ b' ∈ bs, B b') ∧ ∀ n ∈ d.condition?, N n) →
  (∀ n ∈ b.select.clauses ++ b.values, N n) → B b)

include node

theorem Tree.ofBlocks (hn : blocksOf? n = some bs) (hbs : ∀ b ∈ bs, B b) : N n := by
  refine node n ?_ (by simpa [hn] using hbs)
  cases n <;> first | cases hn; done | exact forall_mem_nil _

theorem Tree.ofOperands (hn : blocksOf? n = none) (h : ∀ m ∈ n.operands, N m) : N n := node n h (by simp [hn])

include block

-- The theorems below share the two steps and pass them on to each other.
set_option linter.unusedSectionVars false

mutual

theorem Tree.ofNode (n : Node) : N n := by
  match n with
  | .select s => exact ofBlocks node rfl (forall_mem_singleton.2 (ofSelect s (forall_mem_nil _)))
  | .derived d | .rows d | .existence d | .subquery d =>
    exact ofBlocks node rfl (forall_mem_singleton.2 (ofDerived d))
  | .union items => exact ofBlocks node rfl (ofItems items)
  | .update ⟨_, select, assignments⟩ =>
    exact ofBlocks node rfl (forall_mem_singleton.2 (ofSelect select (ofAssignments assignments)))
  | .delete ⟨_, select⟩ => exact ofBlocks node rfl (forall_mem_singleton.2 (ofSelect select (forall_mem_nil _)))
  | .composite entries => exact ofOperands node rfl (ofEntries entries)
  | .list items | .function _ items => exact ofOperands node rfl (ofNodes items)
  | .grouping a b | .binary _ a b | .dateAdd _ a b | .dateDiff _ a b =>
    exact ofOperands node rfl (forall_mem_cons.2 ⟨ofNode a, forall_mem_singleton.2 (ofNode b)⟩)
  | .unary _ e | .isNull e _ | .cast e _ | .datePart _ e =>
    exact ofOperands node rfl (forall_mem_singleton.2 (ofNode e))
  | .choice t a b =>
    have hab := forall_mem_cons.2 ⟨ofNode a, forall_mem_singleton.2 (ofNode b)⟩
    exact ofOperands node rfl (forall_mem_cons.2 ⟨ofNode t, hab⟩)
  | .aggregate _ arg => exact ofOperands node rfl (ofOption arg)
  | .inValues e values _ => exact ofOperands node rfl (forall_mem_cons.2 ⟨ofNode e, ofNodes values⟩)
  | .placeholder | .table _ | .source _ | .column .. | .literal _ | .parameter .. =>
    exact ofOperands node rfl (forall_mem_nil _)

theorem Tree.ofNodes (ns : List Node) : ∀ n ∈ ns, N n := by
  match ns with
  | [] => exact forall_mem_nil _
  | n :: rest => exact forall_mem_cons.2 ⟨ofNode n, ofNodes rest⟩

theorem Tree.ofOption (o : Option Node) : ∀ n ∈ o.toList, N n := by
  match o with
  | none => exact forall_mem_nil _
  | some n => exact forall_mem_singleton.2 (ofNode n)

theorem Tree.ofEntries (entries : List (Path × Node)) : ∀ n ∈ entries.map (·.2), N n := by
  match entries with
  | [] => exact forall_mem_nil _
  | (_, n) :: rest => exact forall_mem_cons.2 ⟨ofNode n, ofEntries rest⟩

theorem Tree.ofAssignments (assignments : List (String × Node)) : ∀ n ∈ assignments.map (·.2), N n := by
  match assignments with
  | [] => exact forall_mem_nil _
  | (_, n) :: rest => exact forall_mem_cons.2 ⟨ofNode n, ofAssignments rest⟩

theorem Tree.ofColumns (columns : List OutputColumn) : ∀ n ∈ columns.map (·.expr), N n := by
  match columns with
  | [] => exact forall_mem_nil _
  | ⟨_, _, n⟩ :: rest => exact forall_mem_cons.2 ⟨ofNode n, ofColumns rest⟩

theorem Tree.ofOrder (keys : List OrderItem) : ∀ n ∈ keys.map (·.expr), N n := by
  match keys with
  | [] => exact forall_mem_nil _
  | ⟨n, _⟩ :: rest => exact forall_mem_cons.2 ⟨ofNode n, ofOrder rest⟩

theorem Tree.ofSelect (s : Select) {values : List Node} (hvalues : ∀ n ∈ values, N n) : B ⟨s, values⟩ := by
  match s with
  | ⟨sources, projection, filter, groupBy, groupElement, having, orderBy, top, skip, _, _, ctes⟩ =>
    refine block _ (ofCtes ctes) (ofSources sources) ?_
    simp only [Select.clauses, forall_mem_append]
    exact ⟨⟨⟨⟨⟨⟨⟨⟨ofOption projection, ofOption filter⟩, ofOption groupBy⟩, ofOption groupElement⟩, ofOption having⟩,
      ofOption top⟩, ofOption skip⟩, ofOrder orderBy⟩, hvalues⟩

theorem Tree.ofDerived (d : Derived) : B d.block := by
  match d with
  | ⟨_, select, columns⟩ => exact ofSelect select (ofColumns columns)

theorem Tree.ofItems (items : List UnionItem) : ∀ b ∈ items.map (·.query.block), B b := by
  match items with
  | [] => exact forall_mem_nil _
  | ⟨d, _⟩ :: rest => exact forall_mem_cons.2 ⟨ofDerived d, ofItems rest⟩

theorem Tree.ofCtes (ctes : List Cte) : ∀ c ∈ ctes, ∀ b ∈ c.blocks, B b := by
  match ctes with
  | [] => exact forall_mem_nil _
  | ⟨_, anchor, recursive⟩ :: rest =>
    exact forall_mem_cons.2 ⟨forall_mem_cons.2 ⟨ofDerived anchor, ofRecursive recursive⟩, ofCtes rest⟩

theorem Tree.ofRecursive (o : Option Derived) : ∀ b ∈ o.toList.map Derived.block, B b := by
  match o with
  | none => exact forall_mem_nil _
  | some d => exact forall_mem_singleton.2 (ofDerived d)

theorem Tree.ofSources (sources : List DataSource) : ∀ d ∈ sources,
    (∀ bs ∈ relationBlocks? d.relation, ∀ b ∈ bs, B b) ∧ ∀ n ∈ d.condition?, N n := by
  match sources with
  | [] => exact forall_mem_nil _
  | ⟨_, relation, join, _⟩ :: rest => exact forall_mem_cons.2 ⟨⟨ofRelation relation, ofJoin join⟩, ofSources rest⟩

theorem Tree.ofRelation (r : Relation) : ∀ bs ∈ relationBlocks? r, ∀ b ∈ bs, B b := by
  match r with
  | .table _ | .cte .. => simp [relationBlocks?]
  | .derived d => simpa [relationBlocks?] using ofDerived d
  | .union items => simpa [relationBlocks?] using ofItems items

theorem Tree.ofJoin (o : Option Join) : ∀ n ∈ o.bind (·.condition), N n := by
  match o with
  | none => simp
  | some ⟨_, condition⟩ => exact fun n hn => ofOption condition n (Option.mem_toList.2 hn)

end

/-- What holds of nodes and blocks if it holds of their parts holds of all trees. -/
theorem tree_induction : (∀ n, N n) ∧ ∀ b, B b :=
  ⟨Tree.ofNode node block, fun b => Tree.ofSelect node block b.select (Tree.ofNodes node block b.values)⟩

end

theorem Node.induction_on_operands {P : Node → Prop} (step : ∀ n, (∀ m ∈ n.operands, P m) → P n) (n : Node) : P n :=
  (tree_induction (B := fun _ => True) (fun n ih _ => step n ih) fun _ _ _ _ => trivial).1 n

end Sql

end QueryLowering
