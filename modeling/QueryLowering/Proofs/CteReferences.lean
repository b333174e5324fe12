import QueryLowering.Proofs.CteScopes
import QueryLowering.Proofs.Invariants

/-!
# Where common table expressions are read

A data source that reads a common table expression stands in the select that declares it, or inside its
recursive member. This is so of every value that the lowering makes: a recursive union declares a common
table expression in the select that reads it, and reads it in the recursive member in the place of the
rows that the recursion starts from.

## Main results

* `Sql.Block.Scoped.change`: a change that inserts what is scoped keeps blocks scoped.
* `Compiler.scoped_body`: what a compiled statement does is scoped.
-/

namespace QueryLowering

open Sql Lower List Node Select

variable {b : Block} {n : Node} {known wider declared : List Alias} {c : Change} {m : Modification} {sc : Scope}
variable {d : Derived} {r : Relation}

namespace Sql

/-- The common table expression that a relation is. -/
def Relation.cte? : Relation → Option Alias
  | .cte a _ => some a
  | _ => none

/-- Every common table expression that a block reads is one that the same select declares, one inside whose
recursive member it is read, or one of some given aliases. -/
inductive Block.Scoped : List Alias → Block → Prop
  | intro {known : List Alias} {b : Block}
      (reads : ∀ d ∈ b.select.sources, ∀ a ∈ d.relation.cte?, a ∈ b.select.ctes.map (·.name) ∨ a ∈ known)
      (inner : ∀ b' ∈ b.inner, Scoped known b') (anchors : ∀ c ∈ b.select.ctes, Scoped known c.anchor.block)
      (members : ∀ c ∈ b.select.ctes, ∀ r ∈ c.recursive, Scoped (c.name :: known) r.block) : Scoped known b

theorem Block.Scoped.mono (h : b.Scoped known) (hwider : known ⊆ wider) : b.Scoped wider := by
  induction h generalizing wider with
  | intro reads _ _ _ ihinner ihanchors ihmembers =>
    refine .intro (fun d hd a ha => (reads d hd a ha).imp_right fun h => hwider h)
      (fun b' hb' => ihinner b' hb' hwider) (fun c hc => ihanchors c hc hwider) fun c hc r hr => ?_
    exact ihmembers c hc r hr (cons_subset_cons _ hwider)

/-- The queries of a node are scoped. -/
def Node.Scoped (known : List Alias) (n : Node) : Prop := ∀ b ∈ n.harvest outermost, b.Scoped known

/-- The queries of a common table expression are scoped, and its recursive member may read it. -/
structure Cte.Scoped (known : List Alias) (c : Cte) : Prop where
  anchor : c.anchor.block.Scoped known
  member : ∀ r ∈ c.recursive, r.block.Scoped (c.name :: known)

/-- A data source is scoped in a select that declares some common table expressions. -/
structure DataSource.Scoped (declared known : List Alias) (d : DataSource) : Prop where
  reads : ∀ a ∈ d.relation.cte?, a ∈ declared ∨ a ∈ known
  relation : ∀ b ∈ d.relation.harvest outermost, b.Scoped known
  condition : ∀ n ∈ d.condition?, n.Scoped known

theorem Block.forall_mem_inner {P : Block → Prop} : (∀ b' ∈ b.inner, P b') ↔
    (∀ d ∈ b.select.sources, (∀ b' ∈ d.relation.harvest outermost, P b') ∧
      ∀ n ∈ d.condition?, ∀ b' ∈ n.harvest outermost, P b') ∧
        ∀ n ∈ b.select.clauses ++ b.values, ∀ b' ∈ n.harvest outermost, P b' := by
  rw [inner_eq, harvestSources_eq, forall_mem_append]
  simp only [forall_mem_flatMap, forall_mem_append, Option.mem_toList]
  rfl

theorem Block.scoped_iff : b.Scoped known ↔ (∀ d ∈ b.select.sources, d.Scoped (b.select.ctes.map (·.name)) known) ∧
      (∀ n ∈ b.select.clauses ++ b.values, n.Scoped known) ∧ ∀ c ∈ b.select.ctes, c.Scoped known := by
  constructor
  · rintro ⟨reads, inner, anchors, members⟩
    obtain ⟨hsources, hnodes⟩ := forall_mem_inner.1 inner
    exact ⟨fun d hd => ⟨reads d hd, (hsources d hd).1, (hsources d hd).2⟩, hnodes,
      fun c hc => ⟨anchors c hc, members c hc⟩⟩
  · rintro ⟨hsources, hnodes, hctes⟩
    exact .intro (fun d hd => (hsources d hd).reads)
      (forall_mem_inner.2 ⟨fun d hd => ⟨(hsources d hd).relation, (hsources d hd).condition⟩, hnodes⟩)
      (fun c hc => (hctes c hc).anchor) (fun c hc => (hctes c hc).member)

theorem Node.scoped_iff (hn : blocksOf? n = none) : n.Scoped known ↔ ∀ m ∈ n.operands, m.Scoped known := by
  rw [Node.Scoped, harvest_eq_operands (g := outermost) hn hn, forall_mem_flatMap]
  rfl

theorem Node.scoped_query {bs : List Block} (hn : blocksOf? n = some bs) :
    n.Scoped known ↔ ∀ b ∈ bs, b.Scoped known := by
  rw [Node.Scoped, harvest_of_some (g := outermost) hn]

theorem Node.scoped_select {s : Select} : (Node.select s).Scoped known ↔
    (∀ d ∈ s.sources, d.Scoped (s.ctes.map (·.name)) known) ∧ s.Clauses (Node.Scoped known) ∧
      ∀ c ∈ s.ctes, c.Scoped known := by
  rw [scoped_query rfl, forall_mem_singleton, Block.scoped_iff, clauses_iff, append_nil]

theorem Node.scoped_derived : (Node.derived d).Scoped known ↔ d.block.Scoped known := by
  rw [scoped_query rfl, forall_mem_singleton]

instance : Compositional (Node.Scoped known) :=
  .ofOperands (fun hn h _ _ _ => (scoped_iff hn).2 h) (fun hn h => (scoped_iff hn).1 h) Iff.rfl (fun h => h)

/-! ## Changes -/

/-- Whatever a change puts in the place of something else is scoped. -/
structure Change.Inserts (known : List Alias) (c : Change) : Prop where
  relation : ∀ {r r' : Relation}, c.relation r = some r' →
    (∀ a ∈ r'.cte?, a ∈ known) ∧ ∀ b ∈ r'.harvest outermost, b.Scoped known
  node : ∀ {n n' : Node}, c.node n = some n' → n'.Scoped known
  select : ∀ s, c.select s = s

theorem Change.Inserts.mono (hc : c.Inserts known) (hwider : known ⊆ wider) : c.Inserts wider where
  relation h := ⟨fun a ha => hwider ((hc.relation h).1 a ha), fun b hb => ((hc.relation h).2 b hb).mono hwider⟩
  node h := fun b hb => (hc.node h b hb).mono hwider
  select := hc.select

/-- A changed node is scoped if its queries are scoped when they are changed. -/
theorem Node.scoped_change (hc : c.Inserts known) (n : Node)
    (hn : ∀ b ∈ n.harvest outermost, (b.change c).Scoped known) : (n.change c).Scoped known := by
  induction n using induction_on_operands with
  | step n ih =>
    cases hnode : c.node n with
    | some n' =>
      rw [change_of_some hnode]
      exact hc.node hnode
    | none =>
      cases hblocks : blocksOf? n with
      | some bs =>
        rw [harvest_of_some (g := outermost) hblocks] at hn
        have hblocks' := blocksOf?_change hnode
        rw [hblocks, Option.map_some] at hblocks'
        exact (scoped_query hblocks').2 (forall_mem_map.2 hn)
      | none =>
        obtain ⟨hblocks', hoperands⟩ := operands_change hnode hblocks
        rw [harvest_eq_operands (g := outermost) hblocks hblocks, forall_mem_flatMap] at hn
        rw [scoped_iff hblocks', hoperands, forall_mem_map]
        exact fun m hm => ih m hm (hn m hm)

theorem Relation.scoped_change (hc : c.Inserts known) (hr : ∀ b ∈ r.harvest outermost, (b.change c).Scoped known) :
    ∀ b ∈ (r.change c).harvest outermost, b.Scoped known := by
  cases hrelation : c.relation r with
  | some r' =>
    rw [change_of_some hrelation]
    exact (hc.relation hrelation).2
  | none =>
    have hblocks' := relationBlocks?_change hrelation
    cases hblocks : relationBlocks? r with
    | some bs =>
      rw [hblocks, Option.map_some] at hblocks'
      rw [harvest_of_some (g := outermost) hblocks] at hr
      rw [harvest_of_some (g := outermost) hblocks']
      exact forall_mem_map.2 hr
    | none =>
      cases r with
      | derived _ | union _ => cases hblocks
      | table _ | cte _ _ =>
        simp only [Relation.change, hrelation]
        exact forall_mem_nil _

theorem Relation.cte?_change (hc : c.Inserts known) :
    ∀ a ∈ (r.change c).cte?, a ∈ r.cte? ∨ a ∈ known := by
  intro a ha
  cases hrelation : c.relation r with
  | some r' =>
    rw [change_of_some hrelation] at ha
    exact .inr ((hc.relation hrelation).1 a ha)
  | none =>
    cases r with
    | table _ | derived _ | union _ =>
      simp only [Relation.change, hrelation] at ha
      cases ha
    | cte a' columns =>
      simp only [Relation.change, hrelation] at ha
      exact .inl ha

theorem Select.ctes_change (hc : ∀ s, c.select s = s) (s : Select) : (s.change c).ctes = changeCtes c s.ctes := by
  cases s
  rw [Select.change, hc]

/-- A change that inserts what is scoped keeps blocks scoped.

**Proof sketch.** By induction on the block. What its own data sources read is kept or inserted, and the
change keeps the names of the common table expressions. Below a recursive member one more common table
expression may be read, and what is scoped without it is scoped with it. -/
theorem Block.Scoped.change {b : Block} (hb : b.Scoped known) (hwider : known ⊆ wider)
    (hc : c.Inserts wider) : (b.change c).Scoped wider := by
  induction hb generalizing wider with
  | @intro known b reads _ _ _ ihinner ihanchors ihmembers =>
    have hctes : (b.change c).select.ctes = _ :=
      (ctes_change hc.select b.select).trans (changeCtes_eq c b.select.ctes)
    obtain ⟨hsources, hnodes⟩ := forall_mem_inner.1 fun b' hb' => ihinner b' hb' hwider hc
    refine scoped_iff.2 ⟨fun d' hd' => ?_, fun n' hn' => ?_, fun x' hx' => ?_⟩
    · rw [change, sources_change fun s => by rw [hc.select]] at hd'
      obtain ⟨d, hd, hrelation, hcondition⟩ := mem_changeSources hd'
      refine ⟨fun a ha => ?_, ?_, fun n' hn' => ?_⟩
      · rw [hrelation] at ha
        rw [hctes, map_map]
        rcases Relation.cte?_change hc a ha with ha | ha
        · exact (reads d hd a ha).imp_right fun h => hwider h
        · exact .inr ha
      · rw [hrelation]
        exact Relation.scoped_change hc (hsources d hd).1
      · rw [hcondition] at hn'
        obtain ⟨n, hn, rfl⟩ := Option.map_eq_some_iff.1 hn'
        exact n.scoped_change hc ((hsources d hd).2 n hn)
    · rw [change, clauses_change fun s => by rw [hc.select], ← map_append] at hn'
      obtain ⟨n, hn, rfl⟩ := mem_map.1 hn'
      exact n.scoped_change hc (hnodes n hn)
    · rw [hctes] at hx'
      obtain ⟨x, hx, rfl⟩ := mem_map.1 hx'
      refine ⟨?_, fun r' hr' => ?_⟩
      · rw [Derived.block_change]
        exact ihanchors x hx hwider hc
      · obtain ⟨r, hr, rfl⟩ := Option.map_eq_some_iff.1 hr'
        rw [Derived.block_change]
        exact ihmembers x hx r hr (cons_subset_cons _ hwider) (hc.mono (subset_cons_self _ _))

/-- A common table expression in the place of a closed select. -/
theorem inserts_substitution (id a : Alias) (columns : List (Path × String)) :
    (substitution id (.cte a columns)).Inserts [a] where
  relation h := by
    obtain ⟨-, h⟩ := Option.ite_none_right_eq_some.1 h
    obtain rfl := Option.some.inj h
    refine ⟨fun a' ha' => ?_, forall_mem_nil _⟩
    obtain rfl := Option.some.inj ha'
    exact mem_singleton_self _
  node h := by cases h
  select _ := rfl

theorem Node.scoped_leaf (hblocks : blocksOf? n = none) (hn : n.operands = []) : n.Scoped known :=
  (scoped_iff hblocks).2 (by simp [hn])

/-- The output expressions of a closed select in the place of its columns. -/
theorem inserts_inlining {a : Alias} (hd : ∀ x ∈ d.columns, x.expr.Scoped known) : (inlining a d).Inserts known where
  relation h := by cases h
  node {n n'} h := by
    simp only [inlining] at h
    split at h
    · next b name =>
      split at h
      · obtain rfl := Option.some.inj h
        cases houtput : d.output? name with
        | none => exact scoped_leaf rfl rfl
        | some value =>
          obtain ⟨x, hx, rfl⟩ := Derived.exists_of_output? houtput
          exact hd x hx
      · obtain rfl := Option.some.inj h
        exact scoped_leaf rfl rfl
    · cases h
  select _ := rfl

/-! ## What the lowering keeps -/

theorem DataSource.Scoped.mono {more : List Alias} {d : DataSource} (h : d.Scoped declared known)
    (hmore : declared ⊆ more) : d.Scoped more known :=
  { h with reads := fun a ha => (h.reads a ha).imp_left fun h => hmore h }

/-- A data source that reads no common table expression. -/
theorem DataSource.scoped_of_holds {d : DataSource}
    (hrelation : d.relation.Holds (Node.Scoped known)) (hcondition : ∀ n ∈ d.condition?, n.Scoped known) :
    d.Scoped declared known := by
  obtain ⟨name, relation, join, navigation⟩ := d
  cases relation with
  | table t => exact ⟨by simp [Relation.cte?], forall_mem_nil _, hcondition⟩
  | derived q => exact ⟨by simp [Relation.cte?], (scoped_query rfl).1 hrelation, hcondition⟩
  | union items => exact ⟨by simp [Relation.cte?], (scoped_query rfl).1 hrelation, hcondition⟩
  | cte a columns => exact hrelation.elim

/-- Updates and deletions keep queries scoped. -/
theorem traceable_scoped : Traceable (Node.Scoped known) where
  source := scoped_leaf rfl rfl
  select {s} := by
    rw [scoped_select, scoped_select]
    exact ⟨fun ⟨hsources, hclauses, hctes⟩ => ⟨hclauses, hsources, { clauses_empty with }, hctes⟩,
      fun ⟨hclauses, hsources, _, hctes⟩ => ⟨hsources, hclauses, hctes⟩⟩
  derived {d} := by
    rw [scoped_derived, Block.scoped_iff, scoped_select, clauses_iff, forall_mem_append]
    exact ⟨fun ⟨hsources, hnodes, hctes⟩ => ⟨⟨hsources, hnodes.1, hctes⟩, forall_mem_map.1 hnodes.2⟩,
      fun ⟨⟨hsources, hclauses, hctes⟩, hcolumns⟩ =>
        ⟨hsources, ⟨hclauses, forall_mem_map.2 hcolumns⟩, hctes⟩⟩
  reads {s x q} hs hx hq := by
    have hrelation := ((scoped_select.1 hs).1 x hx).relation
    rw [hq] at hrelation
    exact (scoped_query rfl).2 hrelation
  declares {s t} hs ht := by
    obtain ⟨hsources, hclauses, hctes⟩ := scoped_select.1 hs
    refine scoped_select.2 ⟨fun x hx => (hsources x hx).mono fun y hy => ?_, { hclauses with }, ?_⟩
    · rw [map_append]
      exact mem_append_left _ hy
    · exact forall_mem_append.2 ⟨hctes, (scoped_select.1 ht).2.2⟩
  inline {n a d} hd hn := by
    have hcolumns := (Block.scoped_iff.1 (scoped_derived.1 hd)).2.1
    have hinserts : (inlining a d).Inserts known :=
      inserts_inlining (forall_mem_map.1 (forall_mem_append.1 hcolumns).2)
    exact n.scoped_change hinserts fun b hb => (hn b hb).change (List.Subset.refl _) hinserts
  delete h := (scoped_query rfl).2 ((scoped_query rfl).1 h)
  update {u} h hassignments := by
    obtain ⟨hsources, hclauses, hctes⟩ := scoped_select.1 h
    refine (scoped_query rfl).2 (forall_mem_singleton.2 (Block.scoped_iff.2 ⟨hsources, ?_, hctes⟩))
    exact forall_mem_append.2 ⟨clauses_iff.1 hclauses, forall_mem_map.2 hassignments⟩

end Sql

namespace Modification

/-- The parts of a modification are scoped. -/
structure Scoped (known : List Alias) (m : Modification) : Prop where
  select : (Node.select m.select).Scoped known
  target : m.target.Scoped known
  values : ∀ v ∈ m.values, v.2.Scoped known

theorem Scoped.holds (hm : m.Scoped known) : m.Holds (Node.Scoped known) := ⟨hm.select, hm.target, hm.values⟩

theorem Scoped.toDelete (hm : m.Scoped known) (hn : m.toDelete sc = .ok n) : n.Scoped known :=
  hm.holds.toDelete traceable_scoped hn

theorem Scoped.toUpdate (hm : m.Scoped known) {schema : Schema} (hn : m.toUpdate schema sc = .ok n) : n.Scoped known :=
  hm.holds.toUpdate traceable_scoped hn

end Modification

instance : Invariant (Node.Scoped []) where
  source := traceable_scoped.source
  select := traceable_scoped.select
  empty := scoped_select.2 ⟨forall_mem_nil _, clauses_empty, forall_mem_nil _⟩
  opened hr := by
    refine scoped_select.2 ⟨forall_mem_singleton.2 ?_, { clauses_empty with }, forall_mem_nil _⟩
    exact DataSource.scoped_of_holds hr (by simp [DataSource.condition?])
  joined hs hr hcondition := by
    obtain ⟨hsources, hclauses, hctes⟩ := scoped_select.1 hs
    refine scoped_select.2 ⟨forall_mem_append.2 ⟨hsources, forall_mem_singleton.2 ?_⟩,
      { hclauses with }, hctes⟩
    exact DataSource.scoped_of_holds hr hcondition
  conditioned hs hcondition ht := by
    obtain ⟨hsources, hclauses, hctes⟩ := scoped_select.1 hs
    obtain ⟨sources, rfl, hsources⟩ := exists_sources_of_setCondition ht hsources fun d j hd =>
      { hd with condition := fun n hn => Option.some.inj hn ▸ hcondition }
    exact scoped_select.2 ⟨hsources, { hclauses with }, hctes⟩
  derived := traceable_scoped.derived
  existence h := h
  union {items} := by
    rw [scoped_query rfl, forall_mem_map]
    simp only [scoped_derived]
  recursion {a b anchor member columns} hanchor hmember := by
    refine scoped_select.2 ⟨forall_mem_singleton.2 ⟨fun a' ha' => ?_, forall_mem_nil _, ?_⟩,
      { clauses_empty with }, forall_mem_singleton.2 ⟨scoped_derived.1 hanchor, fun r hr => ?_⟩⟩
    · obtain rfl := Option.some.inj ha'
      exact .inl (mem_singleton_self _)
    · simp [DataSource.condition?]
    · obtain rfl := Option.some.inj hr
      rw [Derived.substitute, Derived.block_change]
      exact (scoped_derived.1 hmember).change (nil_subset _) (inserts_substitution ..)
  deletion hs htarget hvalues hn := Modification.Scoped.toDelete ⟨hs, htarget, hvalues⟩ hn
  updating hs htarget hvalues hn := Modification.Scoped.toUpdate ⟨hs, htarget, hvalues⟩ hn

/-- What a compiled statement does is scoped. -/
theorem Compiler.scoped_body {c : Compiler} {e : Expr} {b : Body} (hb : c.body e = .ok b) : b.block.Scoped [] :=
  c.holds_body (P := Node.Scoped []) (fun hn h => (scoped_query hn).1 h _ (mem_singleton_self _)) hb

end QueryLowering
