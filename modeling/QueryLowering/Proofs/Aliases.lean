import Mathlib.Logic.Relation
import QueryLowering.Proofs.Lowered
import QueryLowering.Schema.Sample

/-!
# Aliases of a statement

Columns name their data source by an alias, so a column means what it should only if no select in
between has a data source of that alias, and a join condition can be read only if the data sources
that it mentions stand before it. Aliases are handed out once, but a select whose rows are a value is
opened again, with the aliases that it has, wherever the value is used.

## Main results

* `shared_aliases_iff`: selects that have an alias in common agree on all data sources up to it, and an
  enclosed select shares an alias with one around it exactly if both start with the same data source.
* `later_mentions_iff`: a join condition mentions a data source behind it only if the join is none of a
  navigation and all data sources from there on are navigations.
-/

namespace QueryLowering

open List

namespace Sql

/-- Collects the outermost blocks. -/
def outermost : Harvest Block := { relation := relationBlocks?, node := blocksOf? }

namespace Block

/-- The blocks directly inside a block: in its clauses and in its values. A common table expression is
no part of the select that declares it. -/
def inner (b : Block) : List Block := { b.select with ctes := [] }.harvest outermost ++ harvestNodes outermost b.values

/-- One block stands inside another one, at any depth. -/
def Encloses : Block → Block → Prop := Relation.TransGen fun b b' => b' ∈ b.inner

/-- The aliases of the data sources. -/
def aliases (b : Block) : List Alias := b.select.aliases

end Block

/-- A statement has a block: that of what it does, one of a common table expression, or one inside
such a block. -/
inductive Statement.Contains (s : Statement) : Block → Prop
  | body : Contains s s.body.block
  | cte {c : Cte} {b : Block} : c ∈ s.ctes → b ∈ c.blocks → Contains s b
  | inner {b b' : Block} : Contains s b → b' ∈ b.inner → Contains s b'
  | declared {b b' : Block} {c : Cte} : Contains s b → c ∈ b.select.ctes → b' ∈ c.blocks → Contains s b'

/-! ## Marks of blocks -/

section

variable {A : Mark → Prop} {b b' : Block}

theorem Body.Every.block {x : Body} (h : x.Every A) : x.block.Every A := by
  cases x with
  | query d => exact Derived.every_block.2 h
  | update u => exact Update.every_block.2 h
  | delete d => exact ⟨h, forall_mem_nil _⟩

theorem takes_outermost : outermost.Takes A fun b => b.Every A where
  relation _ _ hbs := (Relation.every_of_blocks hbs).1
  node _ _ hbs := (Node.every_of_blocks hbs).1
  select _ _ := forall_mem_nil _

theorem Block.Every.inner (h : b.Every A) : ∀ b' ∈ b.inner, b'.Every A := by
  refine forall_mem_append.2 ⟨?_, every_harvestNodes takes_outermost _ h.values⟩
  exact Select.Every.harvest takes_outermost _ { h.select with ctes := forall_mem_nil _ }

/-- The blocks of a statement, by induction over the ways to reach them. -/
theorem Statement.Every.contains {s : Statement} (h : s.Every A) (hb : s.Contains b) : b.Every A := by
  induction hb with
  | body => exact h.body.block
  | cte hc hb => exact Cte.every_iff.1 (h.ctes _ hc) _ hb
  | inner _ hb ih => exact ih.inner _ hb
  | declared _ hc hb ih => exact Cte.every_iff.1 (ih.select.ctes _ hc) _ hb

/-- Blocks inside a block of a statement are blocks of the statement. -/
theorem Statement.Contains.encloses {s : Statement} (hb : s.Contains b) (hb' : b.Encloses b') : s.Contains b' := by
  induction hb' with
  | single hb' => exact .inner hb hb'
  | tail _ hb' ih => exact .inner ih hb'

end

end Sql

open Sql

/-! ## Selects that share an alias -/

/-- Two lists of data sources that were added to one by one agree up to an alias that both have. -/
theorem History.Grown.take_names_eq {h : History} {l l' : List DataSource} (hl : h.Grown l)
    (hl' : h.Grown l') {i j : Nat} {a : Alias} (hi : (l.map (·.name))[i]? = some a)
    (hj : (l'.map (·.name))[j]? = some a) : (l.map (·.name)).take (i + 1) = (l'.map (·.name)).take (j + 1) := by
  rw [take_add_one, take_add_one, hi, hj]
  rw [getElem?_map] at hi hj
  obtain ⟨d, hd, rfl⟩ := Option.map_eq_some_iff.1 hi
  obtain ⟨d', hd', hname⟩ := Option.map_eq_some_iff.1 hj
  rw [← map_take, ← map_take, ← hl.placed i d hd, ← hl'.placed j d' hd', hname]

/-- Selects of a compiled statement that have an alias in common agree on all data sources up to it, so
they come from one select that was opened more than once. An enclosed select has an alias of a select
around it exactly if both start with the same data source.

**Proof sketch.** All selects of the statement have data sources that one history accepts, and the
history knows what stood before the data source of an alias. The first data source is among those up
to a common alias. -/
theorem shared_aliases_iff (c : Compiler) (e : Expr) (s : Statement) (hs : c.statement e = .ok s) :
    (∀ b b' : Block, s.Contains b → s.Contains b' → ∀ (i j : Nat) (a : Alias),
      b.aliases[i]? = some a → b'.aliases[j]? = some a → b.aliases.take (i + 1) = b'.aliases.take (j + 1)) ∧
    ((∀ b b' : Block, s.Contains b → b.Encloses b' → ∀ a ∈ b.aliases, a ∉ b'.aliases) ↔
      ∀ b b' : Block, s.Contains b → b.Encloses b' → ∀ a, b.aliases.head? = some a → b'.aliases.head? ≠ some a) := by
  obtain ⟨h, hevery⟩ := Compiler.exists_history hs
  have hagree : ∀ b b' : Block, s.Contains b → s.Contains b' → ∀ (i j : Nat) (a : Alias),
      b.aliases[i]? = some a → b'.aliases[j]? = some a →
        b.aliases.take (i + 1) = b'.aliases.take (j + 1) := fun b b' hb hb' i j a =>
    History.Grown.take_names_eq (hevery.contains hb).select.own (hevery.contains hb').select.own
  refine ⟨hagree, fun hapart b b' hb hin a ha ha' => ?_, fun hstart b b' hb hin a ha ha' => ?_⟩
  · exact hapart b b' hb hin a (mem_of_mem_head? ha) (mem_of_mem_head? ha')
  · obtain ⟨i, hi⟩ := getElem?_of_mem ha
    obtain ⟨j, hj⟩ := getElem?_of_mem ha'
    have htake := congrArg List.head? (hagree b b' hb (hb.encloses hin) i j a hi hj)
    rw [head?_take, head?_take, if_neg (Nat.succ_ne_zero _), if_neg (Nat.succ_ne_zero _)] at htake
    obtain ⟨first, hfirst⟩ : ∃ x, b.aliases.head? = some x := by
      cases haliases : b.aliases with
      | nil => simp [haliases] at ha
      | cons x rest => exact ⟨x, rfl⟩
    exact hstart b b' hb hin first hfirst (htake ▸ hfirst)

namespace Sample

/-- A compiler that knows departments, their employees and their locations. -/
def staffCompiler : Compiler :=
  { schema := ⟨[department.toEntity, employee.toEntity, location.toEntity]⟩, options := {} }

/-- The employees of a department that are the manager of one of them: the items are opened inside a
condition on the items. -/
def managersAmong (items : Expr) : Expr :=
  let employee (name : String) : Param := ⟨name, .entity "Employee"⟩
  .sequenceCall "Count" items (some (.lambda [employee "i"] (.sequenceCall "Any" items
    (some (.lambda [employee "j"] (.binaryOf .equal
      ((Expr.parameter (employee "j")).memberOf "ManagerId" .unknown)
      ((Expr.parameter (employee "i")).memberOf "EmployeeId" .unknown)))) .bool))) .int

/-- The number of managers in each department. -/
def managerCounts : Expr :=
  ((Query.ofEntity "Department").groupJoin (Query.ofEntity "Employee")
    (·.memberOf "DepartmentId" .unknown) (·.memberOf "DepartmentId" .unknown) .unknown
    fun _ items => .construct .unknown [("N", managersAmong items)]).expr

theorem exists_shared_managerCounts : ∃ s, staffCompiler.statement managerCounts = .ok s ∧
    ∃ b ∈ s.body.block.inner, ∃ b' ∈ b.inner, ∃ a ∈ b.aliases, a ∈ b'.aliases :=
  Result.exists_ok (by decide +kernel)

/-- The count of managers encloses a select that starts with the data source of the count. -/
theorem managerCounts_shares : ∃ s, staffCompiler.statement managerCounts = .ok s ∧
    (¬ ∀ b b' : Block, s.Contains b → b.Encloses b' → ∀ a ∈ b.aliases, a ∉ b'.aliases) ∧
    ∃ b b' : Block, s.Contains b ∧ b.Encloses b' ∧ ∃ a, b.aliases.head? = some a ∧ b'.aliases.head? = some a := by
  obtain ⟨s, hs, b, hb, b', hb', a, ha, ha'⟩ := exists_shared_managerCounts
  have hshared : ¬ ∀ b b' : Block, s.Contains b → b.Encloses b' → ∀ a ∈ b.aliases, a ∉ b'.aliases :=
    fun hapart => hapart b b' (.inner .body hb) (.single hb') a ha ha'
  refine ⟨s, hs, hshared, ?_⟩
  rw [(shared_aliases_iff _ _ _ hs).2] at hshared
  simpa using hshared

end Sample

/-! ## Joins that mention later data sources -/

/-- The condition of every join mentions, among the aliases of the select, only those of data sources
up to its own. -/
def Sql.Block.ReadsBackward (b : Block) : Prop := ∀ (i : Nat) (d : DataSource), b.select.sources[i]? = some d →
    ∀ a ∈ b.aliases, d.Mentions a → a ∈ b.aliases.take (i + 1)

/-- In a compiled statement, the condition of a join mentions a data source that stands behind it only
if the join is none of a navigation and all data sources from there to the one mentioned are
navigations. So the conditions mention earlier data sources only exactly if no join that is none of a
navigation mentions a navigation behind it.

**Proof sketch.** When the condition of a join is given, only navigations stand behind the join, and
aliases that are handed out later are larger than all that the condition mentions. -/
theorem later_mentions_iff (c : Compiler) (e : Expr) (s : Statement) (hs : c.statement e = .ok s) :
    (∀ b : Block, s.Contains b → ∀ (i j : Nat) (d d' : DataSource), i < j →
      b.select.sources[i]? = some d → b.select.sources[j]? = some d' → d.Mentions d'.name →
        d.navigation = none ∧ ∀ (m : Nat) (x : DataSource), i < m → m ≤ j →
          b.select.sources[m]? = some x → x.navigation.isSome) ∧ ((∀ b : Block, s.Contains b → b.ReadsBackward) ↔
      ∀ b : Block, s.Contains b → ∀ (i j : Nat) (d d' : DataSource), i < j →
        b.select.sources[i]? = some d → b.select.sources[j]? = some d' →
          d.navigation = none → d'.navigation.isSome → ¬ d.Mentions d'.name) := by
  obtain ⟨h, hevery⟩ := Compiler.exists_history hs
  have hgrown : ∀ b : Block, s.Contains b → h.Grown b.select.sources := fun b hb => (hevery.contains hb).select.own
  have hlate : ∀ b : Block, s.Contains b → ∀ (i j : Nat) (d d' : DataSource), i < j →
      b.select.sources[i]? = some d → b.select.sources[j]? = some d' → d.Mentions d'.name →
        d.navigation = none ∧ ∀ (m : Nat) (x : DataSource), i < m → m ≤ j →
          b.select.sources[m]? = some x → x.navigation.isSome := fun b hb i j d d' hij hd hd' hmention =>
      (hgrown b hb).conditions i j d d' hij hd hd' _ hmention (Nat.le_refl _)
  refine ⟨hlate, fun hback b hb i j d d' hij hd hd' _ _ hmention => ?_, fun hnone b hb i d hd a ha hmention => ?_⟩
  · have hmem : d'.name ∈ b.aliases := mem_map_of_mem (mem_of_getElem? hd')
    obtain ⟨m, hm⟩ := getElem?_of_mem (hback b hb i d hd d'.name hmem hmention)
    rw [getElem?_take] at hm
    split at hm
    · next hmi =>
      obtain ⟨x, hx, hname⟩ := Option.map_eq_some_iff.1 ((getElem?_map ..).symm.trans hm)
      have hmj := (hgrown b hb).index_eq hx hd' hname
      omega
    · cases hm
  · obtain ⟨j, hj⟩ := getElem?_of_mem ha
    by_cases hji : j < i + 1
    · exact mem_of_getElem? ((getElem?_take_of_lt hji).trans hj)
    · obtain ⟨d', hd', rfl⟩ := Option.map_eq_some_iff.1 ((getElem?_map ..).symm.trans hj)
      have hij : i < j := by omega
      obtain ⟨hplain, hnav⟩ := hlate b hb i j d d' hij hd hd' hmention
      exact absurd hmention (hnone b hb i j d d' hij hd hd' hplain (hnav j d' hij (Nat.le_refl j) hd'))

namespace Sample

/-- The employees with the location of their department: the outer key is read through a navigation. -/
def workplaces : Expr :=
  ((Query.ofEntity "Employee").join (Query.ofEntity "Location")
    (fun o => Expr.memberOf (.navigation o "NavDepartment" (.entity "Department")) "LocationId" .unknown)
    (·.memberOf "LocationId" .unknown) .unknown
    fun o i => .construct .unknown [("N", o.memberOf "Name" .unknown), ("C", i.memberOf "City" .unknown)]).expr

/-- Whether a mark mentions an alias. -/
def mentionsAlias (a : Alias) : Mark → Bool
  | .mention b => a == b
  | .sources _ => false

theorem exists_later_workplaces : ∃ s d d', staffCompiler.statement workplaces = .ok s ∧
    s.body.block.select.sources[1]? = some d ∧ s.body.block.select.sources[2]? = some d' ∧ d.Mentions d'.name := by
  obtain ⟨s, hs, d, hd, d', hd', m, hm, hmention⟩ : ∃ s, staffCompiler.statement workplaces = .ok s ∧
      ∃ d ∈ s.body.block.select.sources[1]?, ∃ d' ∈ s.body.block.select.sources[2]?, ∃ m ∈ harvestJoin marks d.join,
        mentionsAlias d'.name m := Result.exists_ok (by decide +kernel)
  refine ⟨s, d, d', hs, hd, hd', ?_⟩
  cases m with
  | mention b =>
    obtain rfl : d'.name = b := beq_iff_eq.1 hmention
    exact hm
  | sources l => cases hmention

/-- The join with locations mentions the navigation to departments, which stands behind it. -/
theorem workplaces_mentions_later : ∃ s, staffCompiler.statement workplaces = .ok s ∧
    (¬ ∀ b : Block, s.Contains b → b.ReadsBackward) ∧
    ∃ b, s.Contains b ∧ ∃ d d' : DataSource, b.select.sources[1]? = some d ∧
      b.select.sources[2]? = some d' ∧ d.Mentions d'.name ∧ d.navigation = none ∧ d'.navigation.isSome := by
  obtain ⟨s, d, d', hs, hd, hd', hmention⟩ := exists_later_workplaces
  obtain ⟨hlate, hiff⟩ := later_mentions_iff _ _ _ hs
  obtain ⟨hplain, hnav⟩ := hlate _ .body 1 2 d d' (by decide) hd hd' hmention
  have hnavigation := hnav 2 d' (by decide) (Nat.le_refl 2) hd'
  refine ⟨s, hs, fun hback => ?_, _, .body, d, d', hd, hd', hmention, hplain, hnavigation⟩
  exact hiff.1 hback _ .body 1 2 d d' (by decide) hd hd' hplain hnavigation hmention

end Sample

end QueryLowering
