import QueryLowering.Proofs.CteReferences

/-!
# The order of hoisted common table expressions

Hoisting puts the common table expressions of a statement in the order in which they are met, those
inside a select before its own. What a common table expression refers to stands in front of it then,
with one exception: one that is declared inside the recursive member of another one may start from the
rows of that one, which comes after it.

## Main results

* `Sql.Block.Scoped.inOrder`: the common table expressions inside a scoped block are in order.
* `hoist_ordered`: those of a compiled statement are.
-/

namespace QueryLowering

open List

namespace Sql

variable {a : Alias} {b : Block}

/-! ## References -/

/-- Collects the aliases of the common table expressions that data sources read. -/
def referredCtes : Harvest Alias := { relation := fun r => r.cte?.map fun a => [a] }

/-- The common table expressions that data sources inside a block read. -/
def Block.references (b : Block) : List Alias := b.harvest referredCtes

theorem enters_referredCtes : referredCtes.Enters where
  node _ := rfl
  relation {r _} h := by
    cases r with
    | table _ | cte _ _ => cases h
    | derived _ | union _ => rfl

theorem Relation.cte?_bare (r : Relation) : (r.change withoutCtes).cte? = r.cte? := by
  cases r <;> rfl

/-- A block without common table expressions refers to what its own data sources read and to what the
blocks inside it refer to. -/
theorem Block.mem_references_bare : a ∈ b.bare.references ↔
    (∃ d ∈ b.select.sources, a ∈ d.relation.cte?) ∨ ∃ b' ∈ b.inner, a ∈ b'.bare.references := by
  have hsources : (∃ d ∈ b.bare.select.sources, ∃ xs ∈ referredCtes.relation d.relation, a ∈ xs) ↔
      ∃ d ∈ b.select.sources, a ∈ d.relation.cte? := by
    rw [bare, change, Select.sources_bare, changeSources_eq]
    simp [referredCtes, Relation.cte?_bare]
  rw [references, mem_harvest enters_referredCtes, hsources, ctes_bare, inner_bare]
  simp [referredCtes, references]

/-- A scoped block refers to what is declared inside it and to the given common table expressions. -/
theorem Block.Scoped.references {known : List Alias} (hb : b.Scoped known)
    (ha : a ∈ b.bare.references) : a ∈ b.declared.map (·.name) ∨ a ∈ known := by
  induction hb with
  | @intro known b reads _ _ _ ih _ _ =>
    rcases mem_references_bare.1 ha with ⟨d, hd, ha⟩ | ⟨b', hb', ha⟩
    · refine (reads d hd a ha).imp_left fun ha => ?_
      obtain ⟨c, hc, rfl⟩ := mem_map.1 ha
      exact mem_map_of_mem (mem_declared.2 (.inl hc))
    · refine (ih b' hb' ha).imp_left fun ha => ?_
      obtain ⟨c, hc, rfl⟩ := mem_map.1 ha
      exact mem_map_of_mem (mem_declared.2 (.inr (.inr ⟨b', hb', hc⟩)))

/-! ## Lists in order -/

/-- A common table expression refers to no others than some earlier ones, its recursive member also to
itself, and to those that are excepted. -/
structure Cte.Ready (except : Cte → Alias → Prop) (before : List Alias) (c : Cte) : Prop where
  anchor : ∀ a ∈ c.anchor.block.bare.references, a ∈ before ∨ except c a
  member : ∀ r ∈ c.recursive, ∀ a ∈ r.block.bare.references, a ∈ before ∨ a = c.name ∨ except c a

/-- Each of some common table expressions is ready when those in front of it are there. -/
def InOrder (except : Cte → Alias → Prop) : List Alias → List Cte → Prop
  | _, [] => True
  | before, c :: rest => c.Ready except before ∧ InOrder except (c.name :: before) rest

section

variable {except except' : Cte → Alias → Prop} {before more : List Alias} {c : Cte} {l l' : List Cte}

theorem Cte.Ready.mono (hc : c.Ready except before) (hmore : before ⊆ more)
    (hexcept : ∀ a, except c a → except' c a) : c.Ready except' more where
  anchor a ha := (hc.anchor a ha).imp (fun h => hmore h) (hexcept a)
  member r hr a ha := (hc.member r hr a ha).imp (fun h => hmore h) (Or.imp_right (hexcept a))

theorem InOrder.mono (hl : InOrder except before l) (hmore : before ⊆ more)
    (hexcept : ∀ c ∈ l, ∀ a, except c a → except' c a) : InOrder except' more l := by
  induction l generalizing before more with
  | nil => trivial
  | cons c rest ih =>
    rw [forall_mem_cons] at hexcept
    exact ⟨hl.1.mono hmore hexcept.1, ih hl.2 (cons_subset_cons _ hmore) hexcept.2⟩

theorem InOrder.append (hl : InOrder except before l) (hl' : InOrder except (l.map (·.name) ++ before) l') :
    InOrder except before (l ++ l') := by
  induction l generalizing before with
  | nil => exact hl'
  | cons c rest ih =>
    refine ⟨hl.1, ih hl.2 (hl'.mono (fun a ha => ?_) fun _ _ _ h => h)⟩
    simp only [map_cons, cons_append, mem_append, mem_cons] at ha ⊢
    tauto

/-- Lists that are in order on their own are in order one after the other. -/
theorem InOrder.both (hl : InOrder except before l) (hl' : InOrder except before l') :
    InOrder except before (l ++ l') := hl.append (hl'.mono (subset_append_right _ _) fun _ _ _ h => h)

theorem InOrder.flatMap {α : Type} {f : α → List Cte} {xs : List α}
    (h : ∀ x ∈ xs, InOrder except before (f x)) : InOrder except before (xs.flatMap f) := by
  induction xs with
  | nil => trivial
  | cons x rest ih =>
    rw [forall_mem_cons] at h
    rw [flatMap_cons]
    exact h.1.both (ih h.2)

theorem inOrder_of_ready (h : ∀ c ∈ l, c.Ready except before) : InOrder except before l := by
  induction l generalizing before with
  | nil => trivial
  | cons c rest ih =>
    rw [forall_mem_cons] at h
    exact ⟨h.1, ih fun d hd => (h.2 d hd).mono (subset_cons_self _ _) fun _ h => h⟩

/-- What stands in front of a place in a list. -/
theorem InOrder.ready (hl : InOrder except before l) {i : Nat} (hc : l[i]? = some c) :
    c.Ready except ((l.take i).map (·.name) ++ before) := by
  induction l generalizing before i with
  | nil => cases hc
  | cons x rest ih =>
    cases i with
    | zero =>
      obtain rfl := Option.some.inj hc
      exact hl.1
    | succ i =>
      refine (ih hl.2 hc).mono (fun a ha => ?_) fun _ h => h
      simp only [take_succ_cons, map_cons, cons_append, mem_append, mem_cons] at ha ⊢
      tauto

/-- Leaving out all but the first of each name keeps a list in order: the names in front of an item are
the same. -/
theorem InOrder.firstOfEach (hl : InOrder except before l) (hmore : before ⊆ more) :
    InOrder except more (firstOfEach more l) := by
  induction l generalizing before more with
  | nil => trivial
  | cons c rest ih =>
    rw [Sql.firstOfEach]
    split
    · next hc => exact ih hl.2 (cons_subset.2 ⟨contains_iff_mem.1 hc, hmore⟩)
    · exact ⟨hl.1.mono hmore fun _ h => h, ih hl.2 (cons_subset_cons _ hmore)⟩

end

/-! ## Declared common table expressions -/

/-- Inside a block, a common table expression is declared inside the recursive member of one of a name. -/
def Block.DeclaresInMember (b : Block) (a : Alias) (c : Cte) : Prop :=
  ∃ d ∈ b.declared, d.name = a ∧ ∃ r ∈ d.recursive, c ∈ r.block.declared

theorem Block.DeclaresInMember.mono {b' : Block} {c : Cte} (h : b'.DeclaresInMember a c)
    (hdeclared : ∀ d ∈ b'.declared, d ∈ b.declared) : b.DeclaresInMember a c := by
  obtain ⟨d, hd, hmember⟩ := h
  exact ⟨d, hdeclared d hd, hmember⟩

theorem Cte.mem_blocks_recursive {c : Cte} {r : Derived} (hr : r ∈ c.recursive) : r.block ∈ c.blocks :=
  mem_cons_of_mem _ (mem_map_of_mem (Option.mem_toList.2 hr))

/-- The common table expressions inside a scoped block are in order, with the exception of references to
one inside whose recursive member the reference is declared.

**Proof sketch.** By induction on the block. Those inside the common table expressions of the select stand
in front of these, and what the queries of a common table expression refer to is declared inside them or
may be read around them. Inside a recursive member, the common table expression itself may be read, which
is the exception. -/
theorem Block.Scoped.inOrder {known : List Alias} (hb : b.Scoped known) :
    InOrder (fun c a => a ∈ known ∨ b.DeclaresInMember a c) [] b.declared := by
  induction hb with
  | @intro known b _ _ anchors members ihinner ihanchors ihmembers =>
    have hinner : ∀ b' ∈ b.inner, InOrder (fun c a => a ∈ known ∨ b.DeclaresInMember a c) [] b'.declared := by
      intro b' hb'
      refine (ihinner b' hb').mono (List.Subset.refl _) fun _ _ _ => Or.imp_right fun h => h.mono ?_
      exact fun d hd => mem_declared.2 (.inr (.inr ⟨b', hb', hd⟩))
    have hdeclared : ∀ c ∈ b.select.ctes, ∀ b' ∈ c.blocks, ∀ d ∈ b'.declared, d ∈ b.declared :=
      fun c hc b' hb' d hd => mem_declared.2 (.inr (.inl ⟨c, hc, b', hb', hd⟩))
    have hblocks : ∀ c ∈ b.select.ctes, InOrder (fun c a => a ∈ known ∨ b.DeclaresInMember a c) []
        (c.blocks.flatMap declared) := by
      refine fun c hc => InOrder.flatMap fun b' hb' => ?_
      rcases mem_cons.1 hb' with rfl | hb'
      · refine (ihanchors c hc).mono (List.Subset.refl _) fun _ _ _ => Or.imp_right fun h => h.mono ?_
        exact hdeclared c hc _ mem_cons_self
      · obtain ⟨r, hr, rfl⟩ := mem_map.1 hb'
        have hr := Option.mem_toList.1 hr
        refine (ihmembers c hc r hr).mono (List.Subset.refl _) fun d hd a ha => ?_
        rcases ha with ha | ha
        · rcases mem_cons.1 ha with rfl | ha
          · exact .inr ⟨c, mem_declared.2 (.inl hc), rfl, r, hr, hd⟩
          · exact .inl ha
        · exact .inr (ha.mono (hdeclared c hc _ (Cte.mem_blocks_recursive hr)))
    have hown : ∀ c ∈ b.select.ctes, c.Ready (fun c a => a ∈ known ∨ b.DeclaresInMember a c)
        ((c.blocks.flatMap declared).map (·.name)) := by
      intro c hc
      have hnames : ∀ b' ∈ c.blocks, b'.declared.map (·.name) ⊆ (c.blocks.flatMap declared).map (·.name) :=
        fun b' hb' => map_subset _ fun d hd => mem_flatMap.2 ⟨b', hb', hd⟩
      refine ⟨fun a ha => ?_, fun r hr a ha => ?_⟩
      · exact ((anchors c hc).references ha).imp (fun h => hnames _ mem_cons_self h) .inl
      · rcases (members c hc r hr).references ha with ha | ha
        · exact .inl (hnames _ (Cte.mem_blocks_recursive hr) ha)
        · rcases mem_cons.1 ha with rfl | ha
          · exact .inr (.inl rfl)
          · exact .inr (.inr (.inl ha))
    rw [inner_eq, flatMap_append, ← append_assoc, forall_mem_append] at hinner
    rw [declared_eq]
    refine (((InOrder.flatMap hblocks).both (.flatMap hinner.1)).append ?_).both (.flatMap hinner.2)
    refine inOrder_of_ready fun c hc => (hown c hc).mono ?_ fun _ h => h
    rw [append_nil]
    refine map_subset _ fun d hd => mem_append_left _ ?_
    exact mem_flatMap.2 ⟨c, hc, hd⟩

/-! ## Hoisted statements -/

/-- Every reference inside the anchor of a common table expression of a statement is to an earlier one,
every reference inside its recursive member is to an earlier one or to itself, and every reference inside
the body is to one of the statement. Some references may be excepted. -/
structure Statement.Ordered (except : Cte → Alias → Prop) (s : Statement) : Prop where
  anchor : ∀ i c, s.ctes[i]? = some c → ∀ a ∈ c.anchor.block.references, a ∈ (s.ctes.take i).map (·.name) ∨ except c a
  member : ∀ i c, s.ctes[i]? = some c → ∀ r ∈ c.recursive, ∀ a ∈ r.block.references,
    a ∈ (s.ctes.take (i + 1)).map (·.name) ∨ except c a
  body : ∀ a ∈ s.body.block.references, a ∈ s.ctes.map (·.name)

/-- A statement whose body is scoped is ordered when it is hoisted. -/
theorem Statement.ordered_hoist {s : Statement} (hs : s.ctes = []) (hbody : s.body.block.Scoped []) :
    s.hoist.Ordered fun x a => ∃ c, c.bare = x ∧ s.body.block.DeclaresInMember a c := by
  have hctes : s.hoist.ctes = (firstOfEach [] s.body.block.declared).map Cte.bare := by
    simp [hoist, hs, Body.declared_block]
  have horder : InOrder (fun c a => s.body.block.DeclaresInMember a c) [] (firstOfEach [] s.body.block.declared) :=
    (hbody.inOrder.mono (List.Subset.refl _) fun _ _ _ h => h.resolve_left not_mem_nil).firstOfEach
      (List.Subset.refl _)
  -- Taking out the common table expressions that are declared inside keeps the names.
  have hnames : ∀ l : List Cte, (l.map Cte.bare).map (·.name) = l.map (·.name) := fun l => by
    rw [map_map]
    rfl
  have hready : ∀ i x, s.hoist.ctes[i]? = some x → ∃ c : Cte, c.bare = x ∧
      c.Ready (fun c a => s.body.block.DeclaresInMember a c) ((s.hoist.ctes.take i).map (·.name)) := by
    intro i x hx
    rw [hctes, getElem?_map] at hx
    obtain ⟨c, hc, rfl⟩ := Option.map_eq_some_iff.1 hx
    refine ⟨c, rfl, ?_⟩
    rw [hctes, ← map_take, hnames, ← append_nil (List.map _ _)]
    exact horder.ready hc
  refine ⟨fun i x hx a ha => ?_, fun i x hx r hr a ha => ?_, fun a ha => ?_⟩
  · obtain ⟨c, rfl, hc⟩ := hready i x hx
    have ha : a ∈ c.anchor.block.bare.references := c.anchor.block_bare ▸ ha
    exact (hc.anchor a ha).imp_right fun h => ⟨c, rfl, h⟩
  · obtain ⟨c, rfl, hc⟩ := hready i x hx
    have hr : r ∈ c.recursive.map (Derived.change withoutCtes) := by
      rw [← changeRecursive_eq]
      exact hr
    obtain ⟨q, hq, rfl⟩ := Option.map_eq_some_iff.1 hr
    rw [q.block_bare] at ha
    rw [take_add_one, hx, map_append, mem_append]
    rcases hc.member q hq a ha with ha | rfl | ha
    · exact .inl (.inl ha)
    · exact .inl (.inr (mem_singleton_self _))
    · exact .inr ⟨c, rfl, ha⟩
  · rw [hoist, Body.block_bare] at ha
    rcases hbody.references ha with ha | ha
    · obtain ⟨c, hc, rfl⟩ := mem_map.1 ha
      obtain ⟨d, hd, hname⟩ := exists_mem_firstOfEach hc not_mem_nil
      rw [hctes, hnames, ← hname]
      exact mem_map_of_mem hd
    · cases ha

end Sql

open Sql

/-- The common table expressions of a statement that is compiled with hoisting on are in the order of
their references: the anchor of each one refers to earlier ones, its recursive member to earlier ones and
to itself, and the body to those that there are. The only exceptions are references to a common table
expression from one that was declared inside its recursive member. -/
theorem hoist_ordered (c : Compiler) (e : Expr) (t : Statement) (ht : (c.hoisting true).statement e = .ok t) :
    ∃ s, (c.hoisting false).statement e = .ok s ∧
      t.Ordered fun x a => ∃ d, d.bare = x ∧ s.body.block.DeclaresInMember a d := by
  rw [Compiler.statement_hoisting] at ht
  cases hs : (c.hoisting false).statement e with
  | error _ =>
    rw [hs] at ht
    cases ht
  | ok s =>
    rw [hs] at ht
    obtain rfl : s.hoist = t := Except.ok.inj ht
    obtain ⟨hctes, e', hbody⟩ := Compiler.unhoisted_eq_ok hs
    exact ⟨s, rfl, Statement.ordered_hoist hctes (Compiler.scoped_body hbody)⟩

namespace Sample

/-- The assets that are no parts, with all that is below them, with all that is below those, and so on. -/
def repeatedlyBelow : Expr :=
  (((Query.ofEntity "Asset").filter "x" fun x => .binaryOf .equal (x.memberOf "ParentId" .unknown) .null)
    |>.recursiveUnion "all" withAllBelow).expr

theorem exists_repeatedlyBelow : ∃ t x a, (assetCompiler.hoisting true).statement repeatedlyBelow = .ok t ∧
    t.ctes[0]? = some x ∧ a ∈ x.anchor.block.references := by
  obtain ⟨t, ht, x, hx, hreferences⟩ : ∃ t, (assetCompiler.hoisting true).statement repeatedlyBelow = .ok t ∧
      ∃ x ∈ t.ctes[0]?, x.anchor.block.references ≠ [] := Result.exists_ok (by decide +kernel)
  obtain ⟨a, ha⟩ := exists_mem_of_ne_nil _ hreferences
  exact ⟨t, x, a, ht, hx, ha⟩

/-- The inner common table expression starts from the rows of the outer one, and it is declared inside the
recursive member of the outer one and before it. -/
theorem repeatedlyBelow_starts_later : ∃ s t x a, (assetCompiler.hoisting false).statement repeatedlyBelow = .ok s ∧
    (assetCompiler.hoisting true).statement repeatedlyBelow = .ok t ∧
    (t.Ordered fun y b => ∃ d, d.bare = y ∧ s.body.block.DeclaresInMember b d) ∧
    (¬ t.Ordered fun _ _ => False) ∧ t.ctes[0]? = some x ∧ a ∈ x.anchor.block.references ∧
    ∃ d, d.bare = x ∧ s.body.block.DeclaresInMember a d := by
  obtain ⟨t, x, a, ht, hx, ha⟩ := exists_repeatedlyBelow
  obtain ⟨s, hs, hordered⟩ := hoist_ordered _ _ _ ht
  refine ⟨s, t, x, a, hs, ht, hordered, fun h => ?_, hx, ha, ?_⟩
  · simpa using h.anchor 0 x hx a ha
  · exact (hordered.anchor 0 x hx a ha).resolve_left (by simp)

end Sample

end QueryLowering
