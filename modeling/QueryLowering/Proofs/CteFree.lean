import QueryLowering.Proofs.Within

/-!
# Statements with all common table expressions at the front

Hoisting takes the common table expressions out of every select of a statement, wherever in the tree
the select stands, and declares each alias once at the front. Where selects stand is said by the nodes
of a tree, which do not depend on the traversals that hoisting is made of.

## Main results

* `Sql.Statement.mem_declared`: what hoisting collects is what the selects of a statement declare.
* `Sql.Node.bare_bare`: a tree without common table expressions has none to take out.
* `hoist_complete`: hoisting leaves no declarations inside, declares every alias once, and has nothing
  left to do afterwards.
-/

namespace QueryLowering

open List

namespace Sql

/-! ## Where selects stand -/

/-- The selects that a node is made of: those of its blocks if it is a query. -/
def Node.selects (n : Node) : List Select := ((blocksOf? n).getD []).map (·.select)

/-- A select stands in a statement: it is the one of what the statement does, or one of a query that
stands anywhere inside, be it in a clause, a data source, a join condition, a value or the query of a
common table expression. -/
inductive Statement.HasSelect (s : Statement) : Select → Prop
  | body : HasSelect s s.body.block.select
  | inside {n m : Node} {q : Select} : n ∈ s.nodes → m.Within n → q ∈ m.selects → HasSelect s q

section

variable {n m : Node} {b b' : Block} {c : Cte}

theorem Node.selects_of_some {bs : List Block} (hn : blocksOf? n = some bs) : n.selects = bs.map (·.select) := by
  rw [selects, hn, Option.getD_some]

/-- A node below one that stands in a tree stands in the tree. -/
theorem Node.Within.trans {k : Node} (hm : m.Within k) (hk : k.Within n) : m.Within n := by
  induction hk with
  | root => exact hm
  | child hchild _ ih => exact .child hchild ih

/-- An outermost block of a tree is one of a query in it. -/
theorem Node.exists_within_of_mem_outermost (hb : b ∈ n.harvest outermost) :
    ∃ m : Node, m.Within n ∧ ∃ bs, blocksOf? m = some bs ∧ b ∈ bs := by
  induction n using Node.induction_on_operands with
  | step n ih =>
    cases hn : blocksOf? n with
    | some bs =>
      rw [harvest_of_some (g := outermost) hn] at hb
      exact ⟨n, .root n, bs, hn, hb⟩
    | none =>
      rw [harvest_eq_operands (g := outermost) hn hn] at hb
      obtain ⟨k, hk, hb⟩ := mem_flatMap.1 hb
      obtain ⟨m, hm, hblocks⟩ := ih k hk hb
      exact ⟨m, .child (children_of_none hn ▸ hk) hm, hblocks⟩

theorem Relation.exists_query_of_mem_outermost {r : Relation} (hb : b ∈ r.harvest outermost) :
    ∃ q ∈ r.queries, b = q.block := by
  cases r with
  | table _ | cte _ _ => cases hb
  | derived d => exact ⟨d, mem_singleton_self d, mem_singleton.1 hb⟩
  | union items =>
    obtain ⟨i, hi, rfl⟩ := mem_map.1 hb
    exact ⟨i.query, mem_map_of_mem hi, rfl⟩

/-- A block directly inside another one is one of a query in a node of it. -/
theorem Block.exists_within_of_mem_inner (hb' : b' ∈ b.inner) :
    ∃ n ∈ b.nodes, ∃ m : Node, m.Within n ∧ ∃ bs, blocksOf? m = some bs ∧ b' ∈ bs := by
  have hnode : ∀ n ∈ b.nodes, b' ∈ n.harvest outermost →
      ∃ n ∈ b.nodes, ∃ m : Node, m.Within n ∧ ∃ bs, blocksOf? m = some bs ∧ b' ∈ bs :=
    fun n hn hb' => ⟨n, hn, Node.exists_within_of_mem_outermost hb'⟩
  rw [inner_eq, harvestSources_eq, mem_append] at hb'
  rcases hb' with hb' | hb'
  · obtain ⟨d, hd, hb'⟩ := mem_flatMap.1 hb'
    have hmem : ∀ n ∈ d.nodes, n ∈ b.nodes := fun n hn => by
      simp only [nodes, Select.nodes, mem_append, mem_flatMap]
      exact .inl (.inl (.inr ⟨d, hd, hn⟩))
    rcases mem_append.1 hb' with hb' | hb'
    · obtain ⟨q, hq, rfl⟩ := Relation.exists_query_of_mem_outermost hb'
      refine ⟨.derived q, hmem _ (mem_append_left _ (mem_map_of_mem hq)), .derived q, .root _, ?_⟩
      exact ⟨_, rfl, mem_singleton_self _⟩
    · obtain ⟨n, hn, hb'⟩ := mem_flatMap.1 hb'
      exact hnode n (hmem n (mem_append_right _ hn)) hb'
  · obtain ⟨n, hn, hb'⟩ := mem_flatMap.1 hb'
    refine hnode n ?_ hb'
    rcases mem_append.1 hn with hn | hn
    · exact mem_append_left _ (mem_append_right _ hn)
    · exact mem_append_right _ hn

/-! ## What is declared -/

/-- A common table expression inside a block is declared by its select or by a select of a query inside. -/
theorem Block.exists_select_of_mem_declared (hc : c ∈ b.declared) :
    c ∈ b.select.ctes ∨ ∃ n ∈ b.nodes, ∃ m : Node, m.Within n ∧ ∃ q ∈ m.selects, c ∈ q.ctes := by
  induction b using Block.induction with
  | step b ihinner ihctes =>
    -- What is declared inside a block of a query in `b` is declared by a select in `b`.
    have hquery : ∀ n ∈ b.nodes, ∀ m : Node, m.Within n → ∀ bs, blocksOf? m = some bs → ∀ b' ∈ bs,
        (c ∈ b'.select.ctes ∨ ∃ k ∈ b'.nodes, ∃ m : Node, m.Within k ∧ ∃ q ∈ m.selects, c ∈ q.ctes) →
          ∃ n ∈ b.nodes, ∃ m : Node, m.Within n ∧ ∃ q ∈ m.selects, c ∈ q.ctes := by
      rintro n hn m hm bs hbs b' hb' (hc | ⟨k, hk, m', hm', hq⟩)
      · refine ⟨n, hn, m, hm, b'.select, ?_, hc⟩
        rw [Node.selects_of_some hbs]
        exact mem_map_of_mem hb'
      · have hchild : k ∈ m.children := by
          rw [Node.children_of_some hbs]
          exact mem_flatMap.2 ⟨b', hb', hk⟩
        exact ⟨n, hn, m', (Node.Within.child hchild hm').trans hm, hq⟩
    rcases mem_declared.1 hc with hc | ⟨d, hd, b', hb', hc⟩ | ⟨b', hb', hc⟩
    · exact .inl hc
    · obtain ⟨x, hx, rfl⟩ : ∃ x ∈ d.queries, x.block = b' := mem_map.1 hb'
      have hmem : Node.derived x ∈ b.nodes := by
        simp only [nodes, Select.nodes, mem_append, mem_map, mem_flatMap]
        exact .inl (.inl (.inl ⟨x, ⟨d, hd, hx⟩, rfl⟩))
      exact .inr (hquery _ hmem _ (.root _) _ rfl _ (mem_singleton_self _) (ihctes d hd _ hb' hc))
    · obtain ⟨n, hn, m, hm, bs, hbs, hmem⟩ := exists_within_of_mem_inner hb'
      exact .inr (hquery n hn m hm bs hbs b' hmem (ihinner b' hb' hc))

theorem Harvest.Enters.thorough {α : Type} {g : Harvest α} (hg : g.Enters) : g.Thorough where
  node {n xs} h := by
    rw [hg.node n] at h
    cases h
  relation r hr := by
    cases r with
    | table _ | cte _ _ => exact absurd rfl hr
    | derived _ | union _ => exact hg.relation rfl

/-- What a select of a query in a tree declares is collected from the tree. -/
theorem Node.mem_harvest_of_within {q : Select} (hm : m.Within n) (hq : q ∈ m.selects) (hc : c ∈ q.ctes) :
    c ∈ n.harvest declaredCtes := by
  refine hm.harvest_subset enters_declaredCtes.thorough ?_
  cases hm : blocksOf? m with
  | none => simp [selects, hm] at hq
  | some bs =>
    rw [selects_of_some hm] at hq
    obtain ⟨b, hb, rfl⟩ := mem_map.1 hq
    rw [harvest_of_blocks (enters_declaredCtes.node m) hm]
    exact mem_flatMap.2 ⟨b, hb, Block.mem_declared.2 (.inl hc)⟩

/-- In a statement with no common table expressions at its front, what hoisting collects is what the
selects of the statement declare. -/
theorem Statement.mem_declared {s : Statement} (hs : s.ctes = []) :
    c ∈ s.body.declared ↔ ∃ q, s.HasSelect q ∧ c ∈ q.ctes := by
  have hnodes : s.nodes = s.body.block.nodes := by simp [nodes, hs]
  rw [Body.declared_block]
  constructor
  · intro hc
    rcases Block.exists_select_of_mem_declared hc with hc | ⟨n, hn, m, hm, q, hq, hc⟩
    · exact ⟨_, .body, hc⟩
    · exact ⟨q, .inside (hnodes ▸ hn) hm hq, hc⟩
  · rintro ⟨q, hq, hc⟩
    cases hq with
    | body => exact Block.mem_declared.2 (.inl hc)
    | inside hn hm hq =>
      exact Block.harvest_subset enters_declaredCtes.thorough (hnodes ▸ hn) (Node.mem_harvest_of_within hm hq hc)

end

/-! ## Trees without common table expressions -/

/-- No select of a query declares a common table expression. -/
def Node.DeclaresNone (n : Node) : Prop := ∀ q ∈ n.selects, q.ctes = []

/-- Taking common table expressions out replaces no nodes, so it may be asked to keep a condition that
nothing satisfies. -/
theorem withoutCtes_inserts_none : withoutCtes.Respects fun _ => False where
  node h := by cases h
  query _ := rfl
  relation h := by cases h
  sources _ := rfl
  clauses _ := rfl
  ctes _ := nil_subset _
  keeps _ h := h

theorem Node.declaresNone_bare (n : Node) : (n.change withoutCtes).DeclaresNone := by
  intro q hq
  rw [selects, blocksOf?_change (c := withoutCtes) rfl] at hq
  cases hn : blocksOf? n with
  | none => simp [hn] at hq
  | some bs =>
    rw [hn, Option.map_some, Option.getD_some, map_map] at hq
    obtain ⟨b, -, rfl⟩ := mem_map.1 hq
    exact b.ctes_bare

/-- No query in a tree that common table expressions were taken out of declares one.

**Proof sketch.** By induction on the way to the query: a node below the tree is one of the tree before
with common table expressions taken out. -/
theorem Node.all_declaresNone_bare (n : Node) : (n.change withoutCtes).All DeclaresNone := by
  intro m hm
  generalize hn' : n.change withoutCtes = n' at hm
  induction hm generalizing n with
  | root => exact hn' ▸ n.declaresNone_bare
  | child hk _ ih =>
    subst hn'
    rcases mem_children_change withoutCtes_inserts_none.faithful rfl hk with ⟨k, -, rfl⟩ | hputs
    · exact ih k rfl
    · exact (withoutCtes_inserts_none.all_of_puts hputs).root.elim

theorem Statement.HasSelect.ctes_hoist {s : Statement} (hs : s.ctes = []) {q : Select}
    (hq : s.hoist.HasSelect q) : q.ctes = [] := by
  cases hq with
  | body =>
    rw [Statement.hoist, Body.block_bare]
    exact Block.ctes_bare _
  | @inside n m q hn hm hq =>
    suffices hbare : ∃ k : Node, n = k.change withoutCtes by
      obtain ⟨k, rfl⟩ := hbare
      exact k.all_declaresNone_bare m hm q hq
    rcases mem_append.1 hn with hn | hn
    · obtain ⟨d', hd', rfl⟩ := mem_map.1 hn
      obtain ⟨x', hx', hd'⟩ := mem_flatMap.1 hd'
      obtain ⟨x, -, rfl⟩ := (mem_ctes_hoist hs).1 hx'
      rcases mem_cons.1 hd' with rfl | hd'
      · exact ⟨.derived x.anchor, rfl⟩
      · rw [Option.mem_toList, Cte.bare, changeRecursive_eq] at hd'
        obtain ⟨d, -, rfl⟩ := Option.map_eq_some_iff.1 hd'
        exact ⟨.derived d, rfl⟩
    · rw [Statement.hoist, Body.block_bare] at hn
      rcases Block.mem_nodes_change withoutCtes_inserts_none.faithful hn with ⟨k, -, rfl⟩ | hputs
      · exact ⟨k, rfl⟩
      · exact (withoutCtes_inserts_none.all_of_puts hputs).root.elim

/-- A block without common table expressions has none inside to collect. -/
theorem Block.declared_bare (b : Block) : b.bare.declared = [] := by
  induction b using Block.induction with
  | step b ihinner _ =>
    refine eq_nil_iff_forall_not_mem.2 fun c hc => ?_
    rw [mem_declared, ctes_bare, inner_bare] at hc
    rcases hc with hc | ⟨d, hd, -⟩ | ⟨b', hb', hc⟩
    · cases hc
    · cases hd
    · obtain ⟨x, hx, rfl⟩ := mem_map.1 hb'
      rw [ihinner x hx] at hc
      cases hc

mutual

/-- A tree without common table expressions has none to take out. -/
theorem Node.bare_bare (n : Node) : (n.change withoutCtes).change withoutCtes = n.change withoutCtes := by
  have hnode : ∀ n, withoutCtes.node n = none := fun _ => rfl
  cases n <;> simp only [Node.change, hnode, Node.bare_bare, bare_bareNodes, bare_bareOption, bare_bareEntries,
    Select.bare_bare, Derived.bare_bare, bare_bareItems, Update.bare_bare, Delete.bare_bare]

theorem bare_bareNodes (ns : List Node) :
    changeNodes withoutCtes (changeNodes withoutCtes ns) = changeNodes withoutCtes ns := by
  cases ns <;> simp only [changeNodes, Node.bare_bare, bare_bareNodes]

theorem bare_bareOption (o : Option Node) :
    changeOption withoutCtes (changeOption withoutCtes o) = changeOption withoutCtes o := by
  cases o <;> simp only [changeOption, Node.bare_bare]

theorem bare_bareEntries (entries : List (Path × Node)) :
    changeEntries withoutCtes (changeEntries withoutCtes entries) = changeEntries withoutCtes entries := by
  rcases entries with _ | ⟨⟨_, _⟩, _⟩ <;> simp only [changeEntries, Node.bare_bare, bare_bareEntries]

theorem bare_bareAssignments (assignments : List (String × Node)) :
    changeAssignments withoutCtes (changeAssignments withoutCtes assignments) =
      changeAssignments withoutCtes assignments := by
  rcases assignments with _ | ⟨⟨_, _⟩, _⟩ <;> simp only [changeAssignments, Node.bare_bare, bare_bareAssignments]

theorem Select.bare_bare (s : Select) : (s.change withoutCtes).change withoutCtes = s.change withoutCtes := by
  have hselect : ∀ s, withoutCtes.select s = { s with ctes := [] } := fun _ => rfl
  cases s
  simp only [Select.change, hselect, bare_bareSources, bare_bareOption, bare_bareOrder]

theorem Derived.bare_bare (d : Derived) : (d.change withoutCtes).change withoutCtes = d.change withoutCtes := by
  cases d
  simp only [Derived.change, Select.bare_bare, bare_bareColumns]

theorem bare_bareColumns (columns : List OutputColumn) :
    changeColumns withoutCtes (changeColumns withoutCtes columns) = changeColumns withoutCtes columns := by
  rcases columns with _ | ⟨⟨_, _, _⟩, _⟩ <;> simp only [changeColumns, Node.bare_bare, bare_bareColumns]

theorem bare_bareItems (items : List UnionItem) :
    changeItems withoutCtes (changeItems withoutCtes items) = changeItems withoutCtes items := by
  rcases items with _ | ⟨⟨_, _⟩, _⟩ <;> simp only [changeItems, Derived.bare_bare, bare_bareItems]

theorem Relation.bare_bare (r : Relation) : (r.change withoutCtes).change withoutCtes = r.change withoutCtes := by
  have hrelation : ∀ r, withoutCtes.relation r = none := fun _ => rfl
  cases r <;> simp only [Relation.change, hrelation, Derived.bare_bare, bare_bareItems]

theorem bare_bareSources (sources : List DataSource) :
    changeSources withoutCtes (changeSources withoutCtes sources) = changeSources withoutCtes sources := by
  rcases sources with _ | ⟨⟨_, _, _, _⟩, _⟩ <;>
    simp only [changeSources, Relation.bare_bare, bare_bareJoin, bare_bareSources]

theorem bare_bareJoin (join : Option Join) :
    changeJoin withoutCtes (changeJoin withoutCtes join) = changeJoin withoutCtes join := by
  rcases join with _ | ⟨_, _⟩ <;> simp only [changeJoin, bare_bareOption]

theorem bare_bareOrder (items : List OrderItem) :
    changeOrder withoutCtes (changeOrder withoutCtes items) = changeOrder withoutCtes items := by
  rcases items with _ | ⟨⟨_, _⟩, _⟩ <;> simp only [changeOrder, Node.bare_bare, bare_bareOrder]

theorem Update.bare_bare (u : Update) : (u.change withoutCtes).change withoutCtes = u.change withoutCtes := by
  cases u
  simp only [Update.change, Select.bare_bare, bare_bareAssignments]

theorem Delete.bare_bare (d : Delete) : (d.change withoutCtes).change withoutCtes = d.change withoutCtes := by
  cases d
  simp only [Delete.change, Select.bare_bare]

end

theorem Body.bare_bare (x : Body) : x.bare.bare = x.bare := by
  cases x with
  | query d => exact congrArg query d.bare_bare
  | update u => exact congrArg update u.bare_bare
  | delete d => exact congrArg delete d.bare_bare

/-! ## Aliases at the front -/

/-- The first ones of each alias have different aliases, and none of those seen before. -/
theorem nodup_firstOfEach (seen : List Alias) (l : List Cte) :
    ((firstOfEach seen l).map (·.name)).Nodup ∧ ∀ c ∈ firstOfEach seen l, c.name ∉ seen := by
  induction l generalizing seen with
  | nil => simp [firstOfEach]
  | cons x rest ih =>
    rw [firstOfEach]
    split
    · exact ih seen
    · next hx =>
      obtain ⟨hnodup, hfresh⟩ := ih (x.name :: seen)
      refine ⟨nodup_cons.2 ⟨fun hmem => ?_, hnodup⟩, forall_mem_cons.2 ⟨?_, fun c hc hseen => ?_⟩⟩
      · obtain ⟨c, hc, hname⟩ := mem_map.1 hmem
        exact hfresh c hc (hname ▸ mem_cons_self)
      · exact fun hseen => hx (contains_iff_mem.2 hseen)
      · exact hfresh c hc (mem_cons_of_mem _ hseen)

/-- The aliases at the front of a hoisted statement are those of the ones that were kept. -/
theorem Statement.names_hoist {s : Statement} (hs : s.ctes = []) :
    s.hoist.ctes.map (·.name) = (firstOfEach [] s.body.declared).map (·.name) := by
  simp [hoist, hs, Cte.bare]

end Sql

open Sql

/-- After hoisting, no select anywhere in the statement declares a common table expression of its own,
the aliases at the front are different from each other, they are the aliases that any select of the
statement declared before, and hoisting once more changes nothing.

**Proof sketch.** Taking common table expressions out reaches every node of a tree, and collecting them
reaches every select, so neither leaves one behind. A tree without common table expressions has none to
take out and none to collect. -/
theorem hoist_complete (s : Statement) (hs : s.ctes = []) : (∀ q, s.hoist.HasSelect q → q.ctes = []) ∧
    (s.hoist.ctes.map (·.name)).Nodup ∧
    (∀ a, a ∈ s.hoist.ctes.map (·.name) ↔ ∃ q, s.HasSelect q ∧ ∃ c ∈ q.ctes, c.name = a) ∧ s.hoist.hoist = s.hoist := by
  refine ⟨fun q hq => hq.ctes_hoist hs, ?_, fun a => ?_, ?_⟩
  · rw [Statement.names_hoist hs]
    exact (nodup_firstOfEach [] _).1
  · rw [Statement.names_hoist hs, mem_map]
    constructor
    · rintro ⟨c, hc, rfl⟩
      obtain ⟨q, hq, hmem⟩ := (Statement.mem_declared hs).1 (mem_of_mem_firstOfEach hc)
      exact ⟨q, hq, c, hmem, rfl⟩
    · rintro ⟨q, hq, c, hc, rfl⟩
      exact exists_mem_firstOfEach ((Statement.mem_declared hs).2 ⟨q, hq, hc⟩) not_mem_nil
  · have hdeclared : s.body.bare.declared = [] := by
      rw [Body.declared_block, Body.block_bare, Block.declared_bare]
    simp [Statement.hoist, hdeclared, firstOfEach, Body.bare_bare]

namespace Sample

/-- A common table expression with others declared inside. -/
def cteWith (name : Alias) (inside : List Cte) : Cte :=
  { name
    anchor := { id := name, select := { Select.empty with ctes := inside }, columns := [] }
    recursive := none }

/-- A deletion whose condition asks twice whether a query has rows. The query declares a common table
expression that another one is declared in. -/
def nestedCtes : Statement :=
  let declaring : Derived :=
    { id := ⟨3⟩, select := { Select.empty with ctes := [cteWith ⟨2⟩ [cteWith ⟨1⟩ []]] }, columns := [] }
  { ctes := []
    body := .delete
      { target := ⟨4⟩
        select := { Select.empty with
          filter := some (.binary .and (.existence declaring) (.existence declaring)) } } }

/-- Both copies are declared once, the inner one first. -/
theorem nestedCtes_hoist_complete : nestedCtes.ctes = [] ∧ nestedCtes.hoist.ctes.map (·.name) = [⟨1⟩, ⟨2⟩] ∧
    (∀ q, nestedCtes.hoist.HasSelect q → q.ctes = []) ∧
    (∀ a, a ∈ [⟨1⟩, ⟨2⟩] ↔ ∃ q, nestedCtes.HasSelect q ∧ ∃ c ∈ q.ctes, c.name = a) ∧
    nestedCtes.hoist.hoist = nestedCtes.hoist := by
  obtain ⟨hnone, -, hnames, hagain⟩ := hoist_complete nestedCtes rfl
  exact ⟨rfl, rfl, hnone, hnames, hagain⟩

end Sample

end QueryLowering
