import QueryLowering.Proofs.Blocks

/-!
# Aliases that common table expressions read

A common table expression may read rows of the selects around it, as any query inside a select may. At
the front of the statement no select is around it any more, so it must read no rows but its own.

## Main results

* `hoist_readsAround_iff`: hoisting keeps that property exactly if no common table expression that it
  moves reads an alias of a select that it was declared in.
-/

namespace QueryLowering

open List

namespace Sql

variable {b : Block} {c : Cte} {p : List Block} {s : Statement}

/-! ## What a block reads -/

/-- The alias of a column that a node reads. Queries are not entered. -/
def columnAlias? : Node → Option (List Alias)
  | .column a _ => some [a]
  | n => (blocksOf? n).map fun _ => []

/-- Collects the aliases of the columns that are read outside of inner queries. -/
def columnAliases : Harvest Alias := { relation := fun r => (relationBlocks? r).map fun _ => [], node := columnAlias? }

/-- The aliases of the columns that a block reads itself. -/
def Block.reads (b : Block) : List Alias := b.gather columnAliases

theorem follows_columnAliases : columnAliases.Follows id where
  node n := by cases n <;> rfl
  relation r := by cases r <;> rfl
  query n h := by
    cases n <;> first | rfl | cases h
  joined r h := by
    cases r <;> first | rfl | cases h
  select _ := rfl

theorem Block.reads_bare (b : Block) : b.bare.reads = b.reads := by
  rw [reads, reads, gather_bare follows_columnAliases, map_id]

theorem takes_columnAliases {A : Mark → Prop} : columnAliases.Takes A fun a => A (.mention a) where
  relation r xs hxs _ := by
    cases r with
    | table _ | cte _ _ => cases hxs
    | derived _ | union _ =>
      obtain rfl := Option.some.inj hxs
      exact forall_mem_nil _
  node n xs hxs h := by
    cases n with
    | column a name =>
      obtain rfl := Option.some.inj hxs
      exact forall_mem_singleton.2 (Node.every_column.1 h)
    | select _ | derived _ | rows _ | existence _ | subquery _ | union _ | update _ | delete _ =>
      obtain rfl := Option.some.inj hxs
      exact forall_mem_nil _
    | _ => cases hxs
  select _ _ := forall_mem_nil _

theorem Block.Every.reads {A : Mark → Prop} (h : b.Every A) : ∀ a ∈ b.reads, A (.mention a) := by
  refine forall_mem_append.2 ⟨?_, every_harvestNodes takes_columnAliases _ h.values⟩
  exact Select.Every.harvest takes_columnAliases _ { h.select with ctes := forall_mem_nil _ }

/-! ## What a common table expression reads -/

/-- The blocks around a place inside a common table expression, the innermost one first. A common table
expression that is declared inside is a place of its own. -/
inductive Cte.Path (c : Cte) : List Block → Prop
  | block {b : Block} : b ∈ c.blocks → Path c [b]
  | inner {b b' : Block} {p : List Block} : Path c (b :: p) → b' ∈ b.inner → Path c (b' :: b :: p)

/-- A common table expression reads a column of an alias that no select of it around the column has. -/
def Cte.Reads (c : Cte) (a : Alias) : Prop := ∃ b p, c.Path (b :: p) ∧ a ∈ b.reads ∧ ∀ x ∈ b :: p, a ∉ x.aliases

theorem Cte.Path.bare (hp : c.Path p) : c.bare.Path (p.map Block.bare) := by
  induction hp with
  | block hb =>
    refine .block ?_
    rw [blocks_bare]
    exact mem_map_of_mem hb
  | inner _ hb ih =>
    refine .inner ih ?_
    rw [Block.inner_bare]
    exact mem_map_of_mem hb

/-- The places inside a common table expression without those declared inside are the places inside
it. -/
theorem Cte.Path.of_bare (hp : c.bare.Path p) : ∃ q, c.Path q ∧ p = q.map Block.bare := by
  induction hp with
  | block hb =>
    rw [blocks_bare] at hb
    obtain ⟨x, hx, rfl⟩ := mem_map.1 hb
    exact ⟨[x], .block hx, rfl⟩
  | inner _ hb' ih =>
    obtain ⟨q, hq, hp⟩ := ih
    obtain ⟨x, rest, rfl, rfl, rfl⟩ := map_eq_cons_iff.1 hp.symm
    rw [Block.inner_bare] at hb'
    obtain ⟨x', hx', rfl⟩ := mem_map.1 hb'
    exact ⟨x' :: x :: rest, .inner hq hx', rfl⟩

theorem Cte.reads_bare {a : Alias} : c.bare.Reads a ↔ c.Reads a := by
  constructor
  · rintro ⟨b, p, hp, ha, hfree⟩
    obtain ⟨q, hq, hmap⟩ := hp.of_bare
    obtain ⟨b, rest, rfl, rfl, rfl⟩ := map_eq_cons_iff.1 hmap.symm
    refine ⟨b, rest, hq, b.reads_bare ▸ ha, fun x hx => ?_⟩
    rw [← x.aliases_bare]
    exact hfree x.bare (mem_map_of_mem (f := Block.bare) hx)
  · rintro ⟨b, p, hp, ha, hfree⟩
    refine ⟨b.bare, p.map Block.bare, hp.bare, b.reads_bare.symm ▸ ha, fun x hx => ?_⟩
    obtain ⟨y, hy, rfl⟩ := mem_map.1 (show x ∈ (b :: p).map Block.bare from hx)
    rw [y.aliases_bare]
    exact hfree y hy

/-- What holds of the marks of a block of a common table expression holds of those of the blocks inside. -/
theorem Cte.Path.exists_block (hp : c.Path (b :: p)) :
    ∃ x ∈ c.blocks, x ∈ b :: p ∧ ∀ A : Mark → Prop, x.Every A → b.Every A := by
  generalize hq : b :: p = q at hp
  induction hp generalizing b p with
  | block hb =>
    obtain ⟨rfl, rfl⟩ := List.cons.inj hq
    exact ⟨b, hb, mem_singleton_self b, fun _ h => h⟩
  | inner _ hb ih =>
    obtain ⟨rfl, rfl⟩ := List.cons.inj hq
    obtain ⟨x, hx, hmem, hevery⟩ := ih rfl
    exact ⟨x, hx, mem_cons_of_mem _ hmem, fun A h => (hevery A h).inner _ hb⟩

/-! ## Where common table expressions are declared -/

/-- The blocks around a place in a statement, the innermost one first. -/
inductive Statement.Path (s : Statement) : List Block → Prop
  | body : Path s [s.body.block]
  | cte {c : Cte} {b : Block} : c ∈ s.ctes → b ∈ c.blocks → Path s [b]
  | inner {b b' : Block} {p : List Block} : Path s (b :: p) → b' ∈ b.inner → Path s (b' :: b :: p)
  | declared {b b' : Block} {c : Cte} {p : List Block} : Path s (b :: p) → c ∈ b.select.ctes →
      b' ∈ c.blocks → Path s (b' :: b :: p)

/-- A statement declares a common table expression inside some blocks, the innermost one first. One at
the front of the statement is inside none. -/
inductive Statement.Declares (s : Statement) : List Block → Cte → Prop
  | front {c : Cte} : c ∈ s.ctes → Declares s [] c
  | inside {c : Cte} {b : Block} {p : List Block} : s.Path (b :: p) → c ∈ b.select.ctes → Declares s (b :: p) c

/-- Every alias that a common table expression reads is one of its own selects or one of a select that
it is declared in. -/
def Statement.ReadsAround (s : Statement) : Prop := ∀ p c, s.Declares p c → ∀ a, c.Reads a → ∃ b ∈ p, a ∈ b.aliases

/-- A common table expression inside a block on the way is declared at a place further inside. -/
theorem Statement.Path.exists_declares (hp : s.Path (b :: p)) (hc : c ∈ b.declared) : ∃ q, s.Declares q c := by
  induction b using Block.induction generalizing p with
  | step b ihInner ihDeclared =>
    rcases Block.mem_declared.1 hc with hc | ⟨d, hd, b', hb', hc⟩ | ⟨b', hb', hc⟩
    · exact ⟨b :: p, .inside hp hc⟩
    · exact ihDeclared d hd b' hb' (.declared hp hd hb') hc
    · exact ihInner b' hb' (.inner hp hb') hc

theorem Statement.Path.contains (hp : s.Path (b :: p)) : s.Contains b := by
  generalize hq : b :: p = q at hp
  induction hp generalizing b p with obtain ⟨rfl, -⟩ := List.cons.inj hq
  | body => exact .body
  | cte hc hb => exact .cte hc hb
  | inner _ hb ih => exact .inner (ih rfl) hb
  | declared _ hc hb ih => exact .declared (ih rfl) hc hb

/-- In a statement with no common table expressions at its front, what is declared inside a block is
declared inside the body. -/
theorem Statement.Contains.mem_declared (hs : s.ctes = []) (hb : s.Contains b) (hc : c ∈ b.declared) :
    c ∈ s.body.declared := by
  induction hb with
  | body => rwa [Body.declared_block]
  | cte hd => simp [hs] at hd
  | inner _ hb' ih => exact ih (Block.mem_declared.2 (.inr (.inr ⟨_, hb', hc⟩)))
  | declared _ hd hb' ih => exact ih (Block.mem_declared.2 (.inr (.inl ⟨_, hd, _, hb', hc⟩)))

theorem Statement.Declares.mem_declared (hs : s.ctes = []) (h : s.Declares p c) : c ∈ s.body.declared := by
  cases h with
  | front hc => simp [hs] at hc
  | inside hp hc => exact hp.contains.mem_declared hs (Block.mem_declared.2 (.inl hc))

theorem Statement.Path.body_mem (hs : s.ctes = []) (hp : s.Path p) : s.body.block ∈ p := by
  induction hp with
  | body => exact mem_cons_self
  | cte hc => simp [hs] at hc
  | inner _ _ ih => exact mem_cons_of_mem _ ih
  | declared _ _ _ ih => exact mem_cons_of_mem _ ih

theorem Statement.Declares.body_mem (hs : s.ctes = []) (h : s.Declares p c) : s.body.block ∈ p := by
  cases h with
  | front hc => simp [hs] at hc
  | inside hp _ => exact hp.body_mem hs

/-! ## Hoisting -/

theorem exists_mem_firstOfEach {seen : List Alias} {l : List Cte} (hc : c ∈ l)
    (hseen : c.name ∉ seen) : ∃ d ∈ firstOfEach seen l, d.name = c.name := by
  induction l generalizing seen with
  | nil => cases hc
  | cons x rest ih =>
    rw [firstOfEach]
    split
    · next hx =>
      rcases mem_cons.1 hc with rfl | hc
      · exact absurd (contains_iff_mem.1 hx) hseen
      · exact ih hc hseen
    · by_cases hname : c.name = x.name
      · exact ⟨x, mem_cons_self, hname.symm⟩
      · have hne : c ≠ x := fun h => hname (congrArg Cte.name h)
        obtain ⟨d, hd, hdname⟩ := ih ((mem_cons.1 hc).resolve_left hne)
          (fun h => (mem_cons.1 h).elim hname hseen)
        exact ⟨d, mem_cons_of_mem x hd, hdname⟩

section

variable {s : Statement}

theorem Statement.mem_ctes_hoist (hs : s.ctes = []) {d : Cte} :
    d ∈ s.hoist.ctes ↔ ∃ c ∈ firstOfEach [] s.body.declared, c.bare = d := by
  simp [hoist, hs]

/-- The blocks of a hoisted statement are blocks without common table expressions. -/
theorem Statement.Contains.exists_bare (hs : s.ctes = []) {b : Block} (hb : s.hoist.Contains b) :
    ∃ x : Block, b = x.bare := by
  induction hb with
  | body => exact ⟨s.body.block, s.body.block_bare⟩
  | cte hc hb =>
    obtain ⟨c, -, rfl⟩ := (mem_ctes_hoist hs).1 hc
    rw [Cte.blocks_bare] at hb
    obtain ⟨x, -, rfl⟩ := mem_map.1 hb
    exact ⟨x, rfl⟩
  | inner _ hb ih =>
    obtain ⟨x, rfl⟩ := ih
    rw [Block.inner_bare] at hb
    obtain ⟨y, -, rfl⟩ := mem_map.1 hb
    exact ⟨y, rfl⟩
  | declared _ hc _ ih =>
    obtain ⟨x, rfl⟩ := ih
    simp [Block.ctes_bare] at hc

theorem Statement.Contains.ctes_hoist (hs : s.ctes = []) {b : Block} (hb : s.hoist.Contains b) :
    b.select.ctes = [] := by
  obtain ⟨x, rfl⟩ := hb.exists_bare hs
  exact x.ctes_bare

/-- A hoisted statement declares at its front only, where no select is around. -/
theorem Statement.readsAround_hoist (hs : s.ctes = []) :
    s.hoist.ReadsAround ↔ ∀ d ∈ s.hoist.ctes, ∀ a, ¬ d.Reads a := by
  constructor
  · intro h d hd a ha
    obtain ⟨b, hb, -⟩ := h [] d (.front hd) a ha
    cases hb
  · intro h p d hdeclares a ha
    cases hdeclares with
    | front hd => exact absurd ha (h d hd a)
    | inside hp hd =>
      rw [hp.contains.ctes_hoist hs] at hd
      cases hd

end

end Sql

open Sql

/-- The compiler with hoisting on or off. -/
def Compiler.hoisting (c : Compiler) (on : Bool) : Compiler := { c with options := { c.options with hoistCtes := on } }

/-- With hoisting on, the statement that is compiled with hoisting off is hoisted. -/
theorem Compiler.statement_hoisting (c : Compiler) (e : Expr) :
    (c.hoisting true).statement e = Statement.hoist <$> (c.hoisting false).statement e := by
  cases hpreprocess : c.options.preprocess with
  | true => simp [statement, hoisting, simplify, body, hpreprocess]
  | false => simp [statement, hoisting, body, hpreprocess]

/-- With hoisting off, nothing is declared at the front. -/
theorem Compiler.unhoisted_eq_ok {c : Compiler} {e : Expr} {s : Statement}
    (hs : (c.hoisting false).statement e = .ok s) : s.ctes = [] ∧ ∃ e', (c.hoisting false).body e' = .ok s.body := by
  obtain ⟨e', b, -, hb, rfl⟩ := statement_eq_ok hs
  exact ⟨rfl, e', hb⟩

/-- A statement that is compiled with hoisting on declares its common table expressions at its front
only: each one is declared by the statement that is compiled with hoisting off, and of each alias that
is declared there one is kept. If every alias that a common table expression reads is one of a select of
its own or around it with hoisting off, then this holds with hoisting on exactly if no common table
expression that is kept reads an alias of a select that it was declared in.

**Proof sketch.** A common table expression reads the same aliases when those declared inside it are
taken out. At the front no select is around it, so it must read none but its own; with hoisting off, an
alias that it reads is one of a select around it. -/
theorem hoist_readsAround_iff (c : Compiler) (e : Expr) (s : Statement) (hs : (c.hoisting false).statement e = .ok s) :
    ∃ t, (c.hoisting true).statement e = .ok t ∧ (∀ b : Block, t.Contains b → b.select.ctes = []) ∧
      (∀ d' ∈ t.ctes, ∃ p d, s.Declares p d ∧ d.bare = d') ∧ (∀ p d, s.Declares p d → ∃ d' ∈ t.ctes, d'.name = d.name) ∧
      (s.ReadsAround → (t.ReadsAround ↔
        ∀ p d, s.Declares p d → d.bare ∈ t.ctes → ∀ a, d.Reads a → ∀ b ∈ p, a ∉ b.aliases)) := by
  obtain ⟨hctes, -⟩ := Compiler.unhoisted_eq_ok hs
  have ht : (c.hoisting true).statement e = .ok s.hoist := by
    rw [Compiler.statement_hoisting, hs]
    rfl
  have hdeclared : ∀ d' ∈ s.hoist.ctes, ∃ p d, s.Declares p d ∧ d.bare = d' := by
    intro d' hd'
    obtain ⟨d, hd, rfl⟩ := (Statement.mem_ctes_hoist hctes).1 hd'
    have hbody : d ∈ s.body.block.declared := by
      rw [← Body.declared_block]
      exact mem_of_mem_firstOfEach hd
    obtain ⟨p, hp⟩ := Statement.Path.body.exists_declares hbody
    exact ⟨p, d, hp, rfl⟩
  refine ⟨s.hoist, ht, fun b hb => hb.ctes_hoist hctes, hdeclared, fun p d hd => ?_, fun haround => ?_⟩
  · obtain ⟨x, hx, hname⟩ := exists_mem_firstOfEach (hd.mem_declared hctes) not_mem_nil
    exact ⟨x.bare, (Statement.mem_ctes_hoist hctes).2 ⟨x, hx, rfl⟩, hname⟩
  · rw [Statement.readsAround_hoist hctes]
    constructor
    · intro hnone p d _ hd a ha
      exact absurd (Cte.reads_bare.2 ha) (hnone d.bare hd a)
    · intro hapart d' hd' a ha
      obtain ⟨p, d, hd, rfl⟩ := hdeclared d' hd'
      obtain ⟨b, hb, hab⟩ := haround p d hd a (Cte.reads_bare.1 ha)
      exact hapart p d hd hd' a (Cte.reads_bare.1 ha) b hb hab

namespace Sample

/-- A compiler that knows assets and the assets that they are parts of. -/
def assetCompiler : Compiler := { schema := ⟨[asset.toEntity]⟩, options := {} }

/-- Some assets and all that are below them. -/
def withAllBelow (assets : Query) : Query :=
  assets.recursiveUnion "a" fun found =>
    found.join (Query.ofEntity "Asset") (·.memberOf "RowId" .unknown) (·.memberOf "ParentId" .unknown)
      (.entity "Asset") fun _ i => i

/-- Each asset with the number of assets below it. -/
def countsBelow : Expr :=
  ((Query.ofEntity "Asset").select "d" .unknown fun d => .construct .unknown
    [("Name", d.memberOf "Name" .unknown),
      ("N", (withAllBelow ((Query.ofEntity "Asset").filter "x" fun x =>
        .binaryOf .equal (x.memberOf "ParentId" .unknown) (d.memberOf "RowId" .unknown))).count none)]).expr

/-- Whether every column inside a common table expression is of one of its own data sources or of one of
the body. -/
def readsBody (s : Statement) : Bool := s.body.declared.all fun c => c.blocks.all fun b =>
    (b.select.harvest marks ++ harvestNodes marks b.values).all fun
      | .mention a => b.aliases.contains a || s.body.block.aliases.contains a
      | .sources _ => true

theorem readsAround_of_readsBody {s : Statement} (hs : s.ctes = []) (h : readsBody s = true) : s.ReadsAround := by
  rintro p c hc a ⟨b, q, hq, ha, hfree⟩
  obtain ⟨x, hx, hmem, hevery⟩ := hq.exists_block
  have hmarks : x.Every fun m => ∀ a, m = .mention a → a ∈ x.aliases ∨ a ∈ s.body.block.aliases := by
    simp only [readsBody, all_eq_true] at h
    have hx := h c (hc.mem_declared hs) x hx
    rw [forall_mem_append, harvestNodes_eq] at hx
    refine ⟨Select.forall_mem_harvest.1 fun m hm a ha => ?_, fun n hn m hm a ha => ?_⟩
    · have hm := hx.1 m hm
      subst ha
      simpa using hm
    · have hm := hx.2 m (mem_flatMap.2 ⟨n, hn, hm⟩)
      subst ha
      simpa using hm
  refine ⟨s.body.block, hc.body_mem hs, ?_⟩
  exact ((hevery _ hmarks).reads a ha a rfl).resolve_left (hfree x hmem)

theorem exists_countsBelow : ∃ s, (assetCompiler.hoisting false).statement countsBelow = .ok s ∧ readsBody s = true ∧
    ∃ d ∈ s.hoist.ctes, ∃ a ∈ d.anchor.block.reads, a ∉ d.anchor.block.aliases :=
  Result.exists_ok (by decide +kernel)

/-- The assets below an asset start from a row of the select that counts them, and they are read before
that select when they are hoisted. -/
theorem countsBelow_leaves_scope : ∃ s t, (assetCompiler.hoisting false).statement countsBelow = .ok s ∧
    (assetCompiler.hoisting true).statement countsBelow = .ok t ∧ s.ReadsAround ∧ ¬ t.ReadsAround ∧
    ∃ p d, s.Declares p d ∧ d.bare ∈ t.ctes ∧ ∃ a, d.Reads a ∧ ∃ b ∈ p, a ∈ b.aliases := by
  obtain ⟨s, hs, hbody, d, hd, a, ha, hfree⟩ := exists_countsBelow
  obtain ⟨hctes, -⟩ := Compiler.unhoisted_eq_ok hs
  have haround := readsAround_of_readsBody hctes hbody
  obtain ⟨t, ht, -, -, -, hiff⟩ := hoist_readsAround_iff _ _ _ hs
  obtain rfl : s.hoist = t := by
    rw [Compiler.statement_hoisting, hs] at ht
    exact Except.ok.inj ht
  have hleaves : ¬ s.hoist.ReadsAround := by
    rw [Statement.readsAround_hoist hctes]
    intro hnone
    refine hnone d hd a ⟨d.anchor.block, [], .block mem_cons_self, ha, ?_⟩
    exact forall_mem_singleton.2 hfree
  refine ⟨s, s.hoist, hs, ht, haround, hleaves, ?_⟩
  rw [hiff haround] at hleaves
  simpa using hleaves

end Sample

end QueryLowering
