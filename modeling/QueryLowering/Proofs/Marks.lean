import QueryLowering.Proofs.Trees

/-!
# Marks of SQL trees

What invariants of the lowering speak about are two kinds of marks that a tree has: the aliases that
it mentions, in columns and in whole rows, and the lists of data sources of its selects, at any depth.
A condition on marks holds of a tree if every mark of the tree satisfies it. The lemmas of this file
take such conditions apart along the constructors, carry them over changes of trees, and say what is
collected from trees that satisfy them.

## Main results

* `Sql.Change.Keeps.tree`: a change that keeps a condition keeps it on whole trees.
* `Sql.Harvest.Takes.tree`: what a harvest takes from whole trees.
-/

namespace QueryLowering

open List

namespace Sql

variable {items : List UnionItem} {s : Select} {d : Derived} {u : Update} {n a e b : Node} {bs : List Block}
variable {r : Relation} {t : Table} {negated : Bool} {part : DatePart} {name : String} {c : Change}

/-- What invariants speak about. -/
inductive Mark where
  /-- An alias that a column or a whole row mentions. -/
  | mention (a : Alias)
  /-- The data sources of a select. -/
  | sources (l : List DataSource)

/-- The mark of a node that mentions an alias. -/
def mentionOf? : Node → Option (List Mark)
  | .source a => some [.mention a]
  | .column a _ => some [.mention a]
  | _ => none

/-- Collects the marks of a tree. -/
def marks : Harvest Mark := { node := mentionOf?, select := fun s => [.sources s.sources] }

@[simp]
theorem marks_node (n : Node) : marks.node n = mentionOf? n := rfl

@[simp]
theorem marks_select (s : Select) : marks.select s = [.sources s.sources] := rfl

/-! ## Conditions on all marks -/

section

variable (A : Mark → Prop)

/-- Every mark of a node satisfies a condition. -/
def Node.Every (n : Node) : Prop := ∀ m ∈ n.harvest marks, A m

/-- Every mark of a relation satisfies a condition. -/
def Relation.Every (r : Relation) : Prop := ∀ m ∈ r.harvest marks, A m

/-- Every mark of a data source, of what it reads and of the condition of its join, satisfies a
condition. -/
structure DataSource.Every (d : DataSource) : Prop where
  relation : d.relation.Every A
  condition : ∀ j ∈ d.join, ∀ n ∈ j.condition, n.Every A

/-- Every mark of a closed select satisfies a condition. -/
def Derived.Every (d : Derived) : Prop := ∀ m ∈ d.harvest marks, A m

/-- Every mark of a common table expression satisfies a condition. -/
structure Cte.Every (c : Cte) : Prop where
  anchor : c.anchor.Every A
  recursive : ∀ d ∈ c.recursive, d.Every A

/-- Every mark of a select satisfies a condition. -/
structure Select.Every (s : Select) : Prop where
  own : A (.sources s.sources)
  ctes : ∀ c ∈ s.ctes, c.Every A
  sources : ∀ d ∈ s.sources, d.Every A
  projection : ∀ n ∈ s.projection, n.Every A
  filter : ∀ n ∈ s.filter, n.Every A
  groupBy : ∀ n ∈ s.groupBy, n.Every A
  groupElement : ∀ n ∈ s.groupElement, n.Every A
  having : ∀ n ∈ s.having, n.Every A
  orderBy : ∀ k ∈ s.orderBy, k.expr.Every A
  top : ∀ n ∈ s.top, n.Every A
  skip : ∀ n ∈ s.skip, n.Every A

/-- Every mark of a block satisfies a condition. -/
structure Block.Every (b : Block) : Prop where
  select : b.select.Every A
  values : ∀ n ∈ b.values, n.Every A

/-- Every mark of an update satisfies a condition. -/
structure Update.Every (u : Update) : Prop where
  select : u.select.Every A
  assignments : ∀ a ∈ u.assignments, a.2.Every A

end

section

variable {A : Mark → Prop}

theorem forall_mem_harvestNodes {ns : List Node} : (∀ m ∈ harvestNodes marks ns, A m) ↔ ∀ n ∈ ns, n.Every A := by
  simp only [harvestNodes_eq, forall_mem_flatMap, Node.Every]

theorem forall_mem_harvestItems : (∀ m ∈ harvestItems marks items, A m) ↔ ∀ i ∈ items, i.query.Every A := by
  simp only [harvestItems_eq, forall_mem_flatMap, forall_mem_map, Derived.Every]

theorem forall_mem_harvestJoin {o : Option Join} :
    (∀ m ∈ harvestJoin marks o, A m) ↔ ∀ j ∈ o, ∀ n ∈ j.condition, n.Every A := by
  rcases o with _ | ⟨kind, condition⟩
  · simp [harvestJoin]
  · simp only [harvestJoin, harvestOption_eq, forall_mem_flatMap, Option.mem_toList, Option.mem_some_iff,
      forall_eq']
    exact Iff.rfl

theorem Select.every_iff : s.Every A ↔ A (.sources s.sources) ∧ (∀ c ∈ s.ctes, c.Every A) ∧
    (∀ d ∈ s.sources, d.Every A) ∧ ∀ n ∈ s.clauses, n.Every A := by
  simp only [clauses, forall_mem_append, Option.mem_toList, forall_mem_map]
  constructor
  · rintro ⟨hown, hctes, hsources, hprojection, hfilter, hgroupBy, helement, hhaving, horder, htop, hskip⟩
    exact ⟨hown, hctes, hsources, ⟨⟨⟨⟨⟨⟨hprojection, hfilter⟩, hgroupBy⟩, helement⟩, hhaving⟩, htop⟩, hskip⟩, horder⟩
  · rintro ⟨hown, hctes, hsources, ⟨⟨⟨⟨⟨⟨hprojection, hfilter⟩, hgroupBy⟩, helement⟩, hhaving⟩, htop⟩, hskip⟩, horder⟩
    exact ⟨hown, hctes, hsources, hprojection, hfilter, hgroupBy, helement, hhaving, horder, htop, hskip⟩

theorem DataSource.every_iff {d : DataSource} : d.Every A ↔ d.relation.Every A ∧ ∀ n ∈ d.condition?, n.Every A := by
  simp only [condition?, Option.mem_def, Option.bind_eq_some_iff]
  constructor
  · intro h
    refine ⟨h.relation, ?_⟩
    rintro n ⟨j, hj, hn⟩
    exact h.condition j hj n hn
  · exact fun h => ⟨h.1, fun j hj n hn => h.2 n ⟨j, hj, hn⟩⟩

theorem Select.forall_mem_harvest : (∀ m ∈ s.harvest marks, A m) ↔ s.Every A := by
  have hctes : (∀ m ∈ harvestCtes marks s.ctes, A m) ↔ ∀ c ∈ s.ctes, c.Every A := by
    induction s.ctes with
    | nil => simp [harvestCtes]
    | cons c rest ih =>
      obtain ⟨name, anchor, recursive⟩ := c
      have hrecursive : (∀ m ∈ harvestRecursive marks recursive, A m) ↔ ∀ d ∈ recursive, d.Every A := by
        cases recursive <;> simp [harvestRecursive, Derived.Every]
      simp only [harvestCtes, forall_mem_append, hrecursive, ih, forall_mem_cons]
      exact and_congr_left fun _ => ⟨fun h => ⟨h.1, h.2⟩, fun h => ⟨h.anchor, h.recursive⟩⟩
  rw [every_iff, Select.harvest_eq, harvestSources_eq]
  simp only [forall_mem_append, forall_mem_flatMap, hctes, Option.mem_toList, marks_select,
    forall_mem_singleton, DataSource.every_iff]
  constructor
  · rintro ⟨⟨⟨hctes, hsources⟩, hclauses⟩, hown⟩
    exact ⟨hown, hctes, hsources, hclauses⟩
  · rintro ⟨hown, hctes, hsources, hclauses⟩
    exact ⟨⟨⟨hctes, hsources⟩, hclauses⟩, hown⟩

theorem Derived.every_iff : d.Every A ↔ d.select.Every A ∧ ∀ c ∈ d.columns, c.expr.Every A := by
  cases d
  simp only [Derived.Every, Derived.harvest, forall_mem_append, Select.forall_mem_harvest,
    harvestColumns_eq, forall_mem_flatMap, forall_mem_map, Node.Every]

theorem Update.forall_mem_harvest : (∀ m ∈ u.harvest marks, A m) ↔ u.Every A := by
  cases u
  simp only [Update.harvest, forall_mem_append, Select.forall_mem_harvest,
    harvestAssignments_eq, forall_mem_flatMap, forall_mem_map]
  exact ⟨fun h => ⟨h.1, h.2⟩, fun h => ⟨h.select, h.assignments⟩⟩

theorem Delete.forall_mem_harvest {d : Delete} : (∀ m ∈ d.harvest marks, A m) ↔ d.select.Every A := by
  cases d
  simp only [Delete.harvest, Select.forall_mem_harvest]

/-! ### Along the structure of trees -/

theorem Block.forall_mem_harvest {b : Block} : (∀ m ∈ b.harvest marks, A m) ↔ b.Every A := by
  rw [Block.harvest, forall_mem_append, Select.forall_mem_harvest, forall_mem_harvestNodes]
  exact ⟨fun h => ⟨h.1, h.2⟩, fun h => ⟨h.select, h.values⟩⟩

theorem Derived.every_block : d.block.Every A ↔ d.Every A := by
  rw [Derived.Every, d.harvest_block, Block.forall_mem_harvest]

theorem Update.every_block : u.block.Every A ↔ u.Every A := by
  rw [← Block.forall_mem_harvest, ← u.harvest_block, Update.forall_mem_harvest]

theorem Node.every_of_blocks (hn : blocksOf? n = some bs) :
    n.Every A ↔ ∀ b ∈ bs, b.Every A := by
  have hnode : marks.node n = none := by
    cases n with
    | source _ | column _ _ => cases hn
    | _ => rfl
  simp only [Every, harvest_of_blocks hnode hn, forall_mem_flatMap, Block.forall_mem_harvest]

theorem Node.every_of_operands (hn : blocksOf? n = none) :
    n.Every A ↔ (∀ ms ∈ mentionOf? n, ∀ m ∈ ms, A m) ∧ ∀ m ∈ n.operands, m.Every A := by
  cases hmention : mentionOf? n with
  | some ms =>
    have hoperands : n.operands = [] := by
      cases n with
      | source _ | column _ _ => rfl
      | _ => cases hmention
    simp [Every, harvest_of_some (g := marks) hmention, hoperands]
  | none =>
    simp only [Every, harvest_eq_operands (g := marks) hmention hn, forall_mem_flatMap]
    simp

theorem Relation.every_of_blocks (hr : relationBlocks? r = some bs) :
    r.Every A ↔ ∀ b ∈ bs, b.Every A := by
  simp only [Every, harvest_of_blocks (g := marks) rfl hr, forall_mem_flatMap, Block.forall_mem_harvest]

theorem Cte.every_iff {c : Cte} : c.Every A ↔ ∀ b ∈ c.blocks, b.Every A := by
  simp only [Cte.blocks, forall_mem_cons, forall_mem_map, Option.mem_toList, Derived.every_block]
  exact ⟨fun h => ⟨h.anchor, h.recursive⟩, fun h => ⟨h.1, h.2⟩⟩

/-! ### Along the constructors -/

namespace Relation

@[simp]
theorem every_table : (table t).Every A := forall_mem_nil _

@[simp]
theorem every_derived : (derived d).Every A ↔ d.Every A := Iff.rfl

@[simp]
theorem every_union : (union items).Every A ↔ ∀ i ∈ items, i.query.Every A := forall_mem_harvestItems

@[simp]
theorem every_cte {a : Alias} {columns : List (Path × String)} : (cte a columns).Every A := forall_mem_nil _

end Relation

namespace Node

@[simp]
theorem every_placeholder : placeholder.Every A := forall_mem_nil _

@[simp]
theorem every_table : (table t).Every A := forall_mem_nil _

@[simp]
theorem every_literal {l : Literal} : (literal l).Every A := forall_mem_nil _

@[simp]
theorem every_parameter {v : Value} : (parameter name v).Every A := forall_mem_nil _

@[simp]
theorem every_source {a : Alias} : (source a).Every A ↔ A (.mention a) := forall_mem_singleton

@[simp]
theorem every_column {a : Alias} : (column a name).Every A ↔ A (.mention a) := forall_mem_singleton

@[simp]
theorem every_select : (select s).Every A ↔ s.Every A := Select.forall_mem_harvest

@[simp]
theorem every_derived : (derived d).Every A ↔ d.Every A := Iff.rfl

@[simp]
theorem every_union : (union items).Every A ↔ ∀ i ∈ items, i.query.Every A := forall_mem_harvestItems

@[simp]
theorem every_composite {entries : List (Path × Node)} :
    (composite entries).Every A ↔ ∀ entry ∈ entries, entry.2.Every A := by
  refine (every_of_operands rfl).trans ?_
  simp only [mentionOf?, operands, forall_mem_map]
  simp

@[simp]
theorem every_grouping {key element : Node} :
    (grouping key element).Every A ↔ key.Every A ∧ element.Every A := forall_mem_append

@[simp]
theorem every_list {items : List Node} : (list items).Every A ↔ ∀ n ∈ items, n.Every A := forall_mem_harvestNodes

@[simp]
theorem every_binary {op : BinaryOperator} {l r : Node} :
    (binary op l r).Every A ↔ l.Every A ∧ r.Every A := forall_mem_append

@[simp]
theorem every_isNull : (isNull e negated).Every A ↔ e.Every A := Iff.rfl

@[simp]
theorem every_choice {t : Node} : (choice t a b).Every A ↔ (t.Every A ∧ a.Every A) ∧ b.Every A :=
  forall_mem_append.trans (and_congr_left fun _ => forall_mem_append)

@[simp]
theorem every_function {args : List Node} :
    (function name args).Every A ↔ ∀ n ∈ args, n.Every A := forall_mem_harvestNodes

@[simp]
theorem every_aggregate {f : AggregateFunction} {arg : Option Node} :
    (aggregate f arg).Every A ↔ ∀ n ∈ arg, n.Every A := (every_of_operands rfl).trans (by simp [mentionOf?, operands])

@[simp]
theorem every_dateAdd : (dateAdd part a e).Every A ↔ a.Every A ∧ e.Every A := forall_mem_append

@[simp]
theorem every_dateDiff : (dateDiff part a b).Every A ↔ a.Every A ∧ b.Every A := forall_mem_append

@[simp]
theorem every_inValues {values : List Node} :
    (inValues e values negated).Every A ↔ e.Every A ∧ ∀ n ∈ values, n.Every A :=
  forall_mem_append.trans (and_congr_right fun _ => forall_mem_harvestNodes)

@[simp]
theorem every_update : (update u).Every A ↔ u.Every A := Update.forall_mem_harvest

@[simp]
theorem every_delete {d : Delete} : (delete d).Every A ↔ d.select.Every A := Delete.forall_mem_harvest

end Node

end

/-! ### Weaker conditions -/

section

variable {A B : Mark → Prop}

theorem Node.Every.mono (h : n.Every A) (hAB : ∀ m, A m → B m) : n.Every B := fun m hm => hAB m (h m hm)

theorem Relation.Every.mono (h : r.Every A) (hAB : ∀ m, A m → B m) : r.Every B :=
  fun m hm => hAB m (h m hm)

theorem Derived.Every.mono (h : d.Every A) (hAB : ∀ m, A m → B m) : d.Every B :=
  fun m hm => hAB m (h m hm)

theorem Select.Every.mono (h : s.Every A) (hAB : ∀ m, A m → B m) : s.Every B :=
  Select.forall_mem_harvest.1 fun m hm => hAB m (Select.forall_mem_harvest.2 h m hm)

theorem DataSource.Every.mono {d : DataSource} (h : d.Every A) (hAB : ∀ m, A m → B m) : d.Every B :=
  ⟨h.relation.mono hAB, fun j hj n hn => (h.condition j hj n hn).mono hAB⟩

end

/-! ## Changes -/

/-- A change that puts parts whose marks satisfy a condition in the place of such parts, and whose
changes of data sources the condition bears. -/
structure Change.Keeps (c : Change) (A : Mark → Prop) : Prop where
  relation : ∀ r r', c.relation r = some r' → r.Every A → r'.Every A
  node : ∀ n n', c.node n = some n' → n.Every A → n'.Every A
  select : ∀ s, s.Every A → (c.select s).Every A
  sources : ∀ l, A (.sources l) → (∀ d ∈ l, d.Every A) → A (.sources (changeSources c l))

section

variable {A : Mark → Prop}

variable (hc : c.Keeps A)

include hc

/-- A relation is changed as a whole or in its blocks. -/
theorem Change.Keeps.relations
    (ih : ∀ bs ∈ relationBlocks? r, ∀ b ∈ bs, b.Every A → (b.change c).Every A) (h : r.Every A) :
    (r.change c).Every A := by
  cases hrelation : c.relation r with
  | some r' =>
    rw [Relation.change_of_some hrelation]
    exact hc.relation r r' hrelation h
  | none =>
    have hchange := relationBlocks?_change hrelation
    cases hr : relationBlocks? r with
    | none =>
      rw [hr, Option.map_none] at hchange
      rw [Relation.Every, Relation.harvest_of_none (g := marks) rfl hchange]
      exact forall_mem_nil _
    | some bs =>
      rw [hr, Option.map_some] at hchange
      rw [Relation.every_of_blocks hr] at h
      rw [Relation.every_of_blocks hchange, forall_mem_map]
      exact fun b hb => ih bs hr b hb (h b hb)

/-- A change that keeps a condition keeps it on every tree. -/
theorem Change.Keeps.tree :
    (∀ n : Node, n.Every A → (n.change c).Every A) ∧ ∀ b : Block, b.Every A → (b.change c).Every A := by
  refine tree_induction (fun n ihoperands ihblocks h => ?_) fun b ihctes ihsources ihnodes h => ?_
  · cases hnode : c.node n with
    | some n' =>
      rw [Node.change_of_some hnode]
      exact hc.node n n' hnode h
    | none =>
      cases hn : blocksOf? n with
      | some bs =>
        have hchange : blocksOf? (n.change c) = some (bs.map (Block.change c)) := by
          rw [blocksOf?_change hnode, hn, Option.map_some]
        rw [Node.every_of_blocks hn] at h
        rw [Node.every_of_blocks hchange, forall_mem_map]
        exact fun b hb => ihblocks bs hn b hb (h b hb)
      | none =>
        obtain ⟨hchange, hoperands⟩ := Node.operands_change hnode hn
        have hmention : mentionOf? (n.change c) = mentionOf? n := by
          cases n <;> simp [Node.change, hnode, mentionOf?]
        rw [Node.every_of_operands hn] at h
        rw [Node.every_of_operands hchange, hmention, hoperands, forall_mem_map]
        exact ⟨h.1, fun m hm => ihoperands m hm (h.2 m hm)⟩
  · rw [forall_mem_append] at ihnodes
    obtain ⟨hown, hctes, hsources, hclauses⟩ := Select.every_iff.1 h.select
    refine ⟨?_, forall_mem_map.2 fun n hn => ihnodes.2 n hn (h.values n hn)⟩
    rw [Block.change, Select.change_eq]
    refine hc.select _ (Select.every_iff.2 ⟨hc.sources _ hown hsources, ?_, ?_, ?_⟩)
    · simp only [Select.changeParts, changeCtes_eq, forall_mem_map]
      intro x hx
      rw [Cte.every_iff, Cte.blocks_change, forall_mem_map]
      exact fun b' hb' => ihctes x hx b' hb' (Cte.every_iff.1 (hctes x hx) b' hb')
    · simp only [Select.changeParts, changeSources_eq, forall_mem_map]
      intro d hd
      obtain ⟨hrelation, hcondition⟩ := DataSource.every_iff.1 (hsources d hd)
      obtain ⟨ihrelation, ihcondition⟩ := ihsources d hd
      refine DataSource.every_iff.2 ⟨hc.relations ihrelation hrelation, ?_⟩
      rw [DataSource.condition?_change]
      intro n' hn'
      obtain ⟨n, hn, rfl⟩ := Option.map_eq_some_iff.1 hn'
      exact ihcondition n hn (hcondition n hn)
    · rw [Select.clauses_changeParts, forall_mem_map]
      exact fun n hn => ihnodes.1 n hn (hclauses n hn)

theorem Node.every_change (n : Node) (h : n.Every A) : (n.change c).Every A := hc.tree.1 n h

theorem Relation.every_change (r : Relation) (h : r.Every A) : (r.change c).Every A :=
  hc.relations (fun _ _ b _ => hc.tree.2 b) h

theorem Select.every_change (s : Select) (h : s.Every A) : (s.change c).Every A :=
  (hc.tree.2 ⟨s, []⟩ ⟨h, forall_mem_nil _⟩).select

theorem Derived.every_change (d : Derived) (h : d.Every A) : (d.change c).Every A := by
  rw [← Derived.every_block, Derived.block_change]
  exact hc.tree.2 d.block (Derived.every_block.2 h)

theorem Update.every_change (u : Update) (h : u.Every A) : (u.change c).Every A := by
  rw [← Update.every_block, Update.block_change]
  exact hc.tree.2 u.block (Update.every_block.2 h)

theorem every_changeOption (o : Option Node) (h : ∀ n ∈ o, n.Every A) :
    ∀ n ∈ changeOption c o, n.Every A := by
  rw [changeOption_eq]
  intro n' hn'
  obtain ⟨n, hn, rfl⟩ := Option.map_eq_some_iff.1 hn'
  exact n.every_change hc (h n hn)

theorem every_changeJoin (o : Option Join) (h : ∀ j ∈ o, ∀ n ∈ j.condition, n.Every A) :
    ∀ j ∈ changeJoin c o, ∀ n ∈ j.condition, n.Every A := by
  rcases o with _ | ⟨kind, condition⟩
  · simp [changeJoin]
  · intro j hj
    obtain rfl := Option.some.inj hj
    exact every_changeOption hc condition (h _ rfl)

theorem every_changeRecursive (o : Option Derived) (h : ∀ d ∈ o, d.Every A) :
    ∀ d ∈ changeRecursive c o, d.Every A := by
  rw [changeRecursive_eq]
  intro d' hd'
  obtain ⟨d, hd, rfl⟩ := Option.map_eq_some_iff.1 hd'
  exact d.every_change hc (h d hd)

end

/-! ## Harvests -/

/-- A harvest that takes only items that satisfy a condition from parts whose marks satisfy one. -/
structure Harvest.Takes {α : Type} (g : Harvest α) (A : Mark → Prop) (P : α → Prop) : Prop where
  relation : ∀ r xs, g.relation r = some xs → r.Every A → ∀ x ∈ xs, P x
  node : ∀ n xs, g.node n = some xs → n.Every A → ∀ x ∈ xs, P x
  select : ∀ s, s.Every A → ∀ x ∈ g.select s, P x

section

variable {α : Type} {A : Mark → Prop} {g : Harvest α} {P : α → Prop}

/-- What a harvest takes from trees. -/
theorem Harvest.Takes.tree (hg : g.Takes A P) :
    (∀ n : Node, n.Every A → ∀ x ∈ n.harvest g, P x) ∧ ∀ b : Block, b.Every A → ∀ x ∈ b.harvest g, P x := by
  refine tree_induction (fun n ihoperands ihblocks h => ?_) fun b ihctes ihsources ihnodes h => ?_
  · cases hnode : g.node n with
    | some xs =>
      rw [Node.harvest_of_some hnode]
      exact hg.node n xs hnode h
    | none =>
      cases hn : blocksOf? n with
      | some bs =>
        rw [Node.harvest_of_blocks hnode hn, forall_mem_flatMap]
        exact fun b hb => ihblocks bs hn b hb ((Node.every_of_blocks hn).1 h b hb)
      | none =>
        rw [Node.harvest_eq_operands hnode hn, forall_mem_flatMap]
        exact fun m hm => ihoperands m hm (((Node.every_of_operands hn).1 h).2 m hm)
  · rw [forall_mem_append] at ihnodes
    obtain ⟨-, hctes, hsources, hclauses⟩ := Select.every_iff.1 h.select
    rw [Block.harvest, Select.harvest_eq, harvestCtes_blocks, harvestSources_eq, harvestNodes_eq]
    simp only [forall_mem_append, forall_mem_flatMap]
    refine ⟨⟨⟨⟨fun c hc b' hb' => ?_, fun d hd => ⟨?_, fun n hn => ?_⟩⟩, fun n hn => ?_⟩, ?_⟩, fun n hn => ?_⟩
    · exact ihctes c hc b' hb' (Cte.every_iff.1 (hctes c hc) b' hb')
    · have hrelation := (hsources d hd).relation
      cases hnode : g.relation d.relation with
      | some xs =>
        rw [Relation.harvest_of_some hnode]
        exact hg.relation _ xs hnode hrelation
      | none =>
        cases hr : relationBlocks? d.relation with
        | some bs =>
          rw [Relation.harvest_of_blocks hnode hr, forall_mem_flatMap]
          exact fun b' hb' => (ihsources d hd).1 bs hr b' hb' ((Relation.every_of_blocks hr).1 hrelation b' hb')
        | none =>
          rw [Relation.harvest_of_none hnode hr]
          exact forall_mem_nil _
    · have hn := Option.mem_toList.1 hn
      exact (ihsources d hd).2 n hn ((DataSource.every_iff.1 (hsources d hd)).2 n hn)
    · exact ihnodes.1 n hn (hclauses n hn)
    · exact hg.select _ h.select
    · exact ihnodes.2 n hn (h.values n hn)

theorem Select.Every.harvest (hg : g.Takes A P) (s : Select) (h : s.Every A) : ∀ x ∈ s.harvest g, P x :=
  (forall_mem_append.1 (hg.tree.2 ⟨s, []⟩ ⟨h, forall_mem_nil _⟩)).1

theorem Derived.Every.harvest (hg : g.Takes A P) (d : Derived) (h : d.Every A) : ∀ x ∈ d.harvest g, P x := by
  rw [d.harvest_block]
  exact hg.tree.2 d.block (Derived.every_block.2 h)

theorem Update.Every.harvest (hg : g.Takes A P) (u : Update) (h : u.Every A) : ∀ x ∈ u.harvest g, P x := by
  rw [u.harvest_block]
  exact hg.tree.2 u.block (Update.every_block.2 h)

theorem every_harvestNodes (hg : g.Takes A P) (ns : List Node) (h : ∀ n ∈ ns, n.Every A) :
    ∀ x ∈ harvestNodes g ns, P x := by
  rw [harvestNodes_eq, forall_mem_flatMap]
  exact fun n hn => hg.tree.1 n (h n hn)

end

end Sql

end QueryLowering
