import QueryLowering.Proofs.Universal

/-!
# What the lowering looks after

The lowering registers the columns of every data source that it reads. Where the rows of a data source are whole
rows of an entity, its columns are to cover the members of the entity. This holds of tables at once, and it holds
of closed selects because a row that is passed on takes all of its columns along.

While a part of an expression is lowered, selects from outside may lie in the context. They are left alone as
long as no value is a whole row of theirs.

What is registered only grows, and under aliases that were not handed out before. So a fact about a value stays true,
and a step after another one starts from what is known by then.

## Main results

* `Sql.Select.covers_close`: a closed select covers the members of the entity of its rows.
* `Sql.Node.Orderly.mono`: what is in order stays so when more data sources are registered.
-/

namespace QueryLowering

open Sql Lower Result List

variable {schema : Schema} {d : Derived} {items : List UnionItem} {sources : List DataSource} {a : Alias} {s t : Select}
variable {known known' : Registry} {w : Watch} {sc after : Scope} {entity : String} {n : Node}

/-! ## Columns that cover an entity -/

/-- The paths of every member of an entity are among some paths. -/
def Schema.Spans (schema : Schema) (entity : String) (paths : List Path) : Prop :=
  ∀ columns, schema.columns entity = .ok columns → ∀ c ∈ columns, [c.member] ∈ paths

/-- If the rows of a data source are those of an entity, its columns cover the members of the entity. The table of
an entity does so by itself. -/
def SourceShape.Covers (schema : Schema) : SourceShape → Prop
  | .columns cs (some e) => schema.Spans e (cs.map (·.1))
  | _ => True

/-- More data sources are registered, and those that were stay as they were. -/
structure Registry.Grows (known known' : Registry) : Prop where
  suffix : known <:+ known'
  lookup : ∀ {a : Alias} {shape : SourceShape}, known.lookup a = some shape → known'.lookup a = some shape

theorem Registry.Grows.refl (known : Registry) : known.Grows known := ⟨suffix_refl _, id⟩

theorem Registry.Grows.trans {mid : Registry} (h : known.Grows mid) (h' : mid.Grows known') :
    known.Grows known' := ⟨h.suffix.trans h'.suffix, fun ha => h'.lookup (h.lookup ha)⟩

/-- An alias that nothing is registered under, and that is of none of the selects that are left alone. -/
structure Watch.Fresh (w : Watch) (known : Registry) (a : Alias) : Prop where
  apart : a ∉ w.aliases
  later : ∀ entry ∈ known, entry.1.index < a.index

theorem Watch.Fresh.grows (h : w.Fresh known a) (shape : SourceShape) : Registry.Grows known ((a, shape) :: known) := by
  refine ⟨suffix_cons _ _, fun {b shape'} hb => ?_⟩
  have hlt := h.later (b, shape') (mem_of_lookup hb)
  have hne : b ≠ a := by
    rintro rfl
    exact absurd hlt (Nat.lt_irrefl _)
  rw [lookup_cons, beq_false_of_ne hne]
  exact hb

/-- What is known is what a scope has registered. All aliases in use were handed out, and something holds of every
data source. -/
structure Registry.Fits (w : Watch) (shape : SourceShape → Prop) (known : Registry) (sc : Scope) : Prop where
  known : known = sc.shapes
  shapes : ∀ entry ∈ sc.shapes, shape entry.2
  numbered : ∀ entry ∈ sc.shapes, entry.1.index ≤ sc.lastAlias.index
  aliases : ∀ a ∈ w.aliases, a.index ≤ sc.lastAlias.index

namespace Registry.Fits

variable {shape : SourceShape → Prop}

theorem empty (hkept : w.kept = []) : Registry.Fits w shape [] .empty :=
  ⟨rfl, forall_mem_nil _, forall_mem_nil _, by simp [Watch.aliases, hkept]⟩

/-- An alias is handed out. -/
theorem issued (h : Registry.Fits w shape known sc) : Registry.Fits w shape known sc.fresh.2 :=
  ⟨h.known, h.shapes, fun entry hentry => Nat.le_succ_of_le (h.numbered entry hentry),
    fun a ha => Nat.le_succ_of_le (h.aliases a ha)⟩

theorem fresh (h : Registry.Fits w shape known sc) : w.Fresh known sc.lastAlias.next := by
  refine ⟨fun hmem => ?_, fun entry hentry => Nat.lt_succ_of_le (h.numbered entry (h.known ▸ hentry))⟩
  exact absurd (h.aliases _ hmem) (Nat.not_succ_le_self _)

/-- The columns of a relation are registered under an alias that is handed out. -/
theorem ofRelation (h : Registry.Fits w shape known sc) {r : Relation} (hr : shape (.ofRelation r)) :
    Registry.Fits w shape ((sc.lastAlias.next, .ofRelation r) :: known) (Select.ofRelation r sc).2 :=
  ⟨congrArg _ h.known, forall_mem_cons.2 ⟨hr, h.shapes⟩,
    forall_mem_cons.2 ⟨Nat.le_refl _, h.issued.numbered⟩, h.issued.aliases⟩

end Registry.Fits

theorem SourceShape.covers_ofRelation_derived : (SourceShape.ofRelation (.derived d)).Covers schema ↔
      ∀ entity, d.rowEntity = some entity → schema.Spans entity (d.columns.map (·.path)) := by
  have hpaths : d.columnPaths.map (·.1) = d.columns.map (·.path) := by
    simp [Derived.columnPaths]
  rw [SourceShape.ofRelation]
  cases d.rowEntity with
  | none => simp [Covers]
  | some entity => simp [Covers, hpaths]

/-- A union has the columns of its first query, and its entity is that of all queries. -/
theorem SourceShape.covers_ofRelation_union
    (h : ∀ i ∈ items, (SourceShape.ofRelation (.derived i.query)).Covers schema) :
    (SourceShape.ofRelation (.union items)).Covers schema := by
  cases items with
  | nil => trivial
  | cons i rest =>
    have hfirst := (forall_mem_cons.1 h).1
    obtain ⟨query, kind⟩ := i
    simp only [ofRelation, itemEntities, unionColumnPaths, agreed] at hfirst ⊢
    cases hentity : query.rowEntity with
    | none => trivial
    | some entity =>
      rw [hentity] at hfirst
      dsimp only
      split
      · exact hfirst
      · trivial

/-! ## Closed selects -/

section

variable {shape : SourceShape} {leaves : List (Path × Node)} (hshape : sc.shape? a = some shape)
  (hentity : shape.entity? = some entity) (hcovers : shape.Covers schema)

include hshape hentity hcovers

/-- The columns of a row span an entity if those of its data source do. -/
theorem Scope.spans_sourceLeaves (hleaves : sc.sourceLeaves schema a = .ok leaves) :
    schema.Spans entity (leaves.map (·.1)) := by
  simp only [Scope.sourceLeaves, Scope.shape, hshape, bind_eq_ok, orThrow_eq_ok, Option.some.injEq,
    exists_eq_left'] at hleaves
  cases shape with
  | entity name =>
    obtain rfl := Option.some.inj hentity
    simp only [bind_eq_ok, pure_eq_ok] at hleaves
    obtain ⟨columns, hcolumns, rfl⟩ := hleaves
    intro columns' hcolumns' c hc
    obtain rfl : columns = columns' := Except.ok.inj (hcolumns.symm.trans hcolumns')
    simp only [map_map, mem_map]
    exact ⟨c, hc, rfl⟩
  | columns columns rowEntity =>
    obtain rfl : rowEntity = some entity := hentity
    rw [pure_eq_ok] at hleaves
    subst hleaves
    rw [map_map]
    exact hcovers

/-- So do those of the value of the row, which may be its only column. -/
theorem Scope.spans_sourceValue
    (hleaves : sc.flatten schema [] (sc.sourceValue a) = .ok leaves) : schema.Spans entity (leaves.map (·.1)) := by
  unfold Scope.sourceValue at hleaves
  split at hleaves
  · next name hname =>
    rw [hshape] at hname
    have hsingle : ∃ rowEntity, shape = .columns [([], name)] rowEntity := by
      simp only [Option.bind_some, SourceShape.single?] at hname
      split at hname
      · obtain rfl := Option.some.inj hname
        exact ⟨_, rfl⟩
      · cases hname
    obtain ⟨rowEntity, rfl⟩ := hsingle
    obtain rfl : rowEntity = some entity := hentity
    simp only [Scope.flatten, pure_eq_ok] at hleaves
    subst hleaves
    exact hcovers
  · simp only [Scope.flatten, bind_eq_ok, pure_eq_ok, nil_append] at hleaves
    obtain ⟨columns, hcolumns, rfl⟩ := hleaves
    rw [map_id']
    exact spans_sourceLeaves hshape hentity hcovers hcolumns

end

namespace Sql

theorem Relation.rowEntity_eq (r : Relation) : r.rowEntity = (SourceShape.ofRelation r).entity? := by
  cases r <;> rfl

theorem exists_of_firstEntity (h : firstEntity sources = some entity) :
    ∃ d ∈ sources, sources.head?.map (·.name) = some d.name ∧ d.relation.rowEntity = some entity := by
  cases sources with
  | nil => cases h
  | cons d rest =>
    refine ⟨d, mem_cons_self, rfl, ?_⟩
    cases d
    exact h

theorem exists_of_entityOf
    (h : entityOf a sources = some entity) : ∃ d ∈ sources, d.name = a ∧ d.relation.rowEntity = some entity := by
  induction sources with
  | nil => cases h
  | cons d rest ih =>
    rw [entityOf] at h
    split at h
    · next hname =>
      refine ⟨d, mem_cons_self, hname, ?_⟩
      cases d
      exact h
    · obtain ⟨d', hd', hfound⟩ := ih h
      exact ⟨d', mem_cons_of_mem _ hd', hfound⟩

/-- If the rows of a select are whole rows of an entity, each one is the row of a data source, which has the rows
of that entity. -/
theorem Select.exists_of_rowEntity (sc : Scope) (h : s.rowEntity = some entity) :
    ∃ d ∈ s.sources, d.relation.rowEntity = some entity ∧
      (s.currentShape sc = .source d.name ∨ s.currentShape sc = sc.sourceValue d.name) := by
  obtain ⟨sources, projection, filter, groupBy, groupElement, having, orderBy, top, skip, distinct,
    defaultIfEmpty, ctes⟩ := s
  simp only [Select.rowEntity] at h
  cases groupBy with
  | some key => cases h
  | none =>
    cases projection with
    | none =>
      obtain ⟨d, hd, hinitial, hentity⟩ := exists_of_firstEntity h
      refine ⟨d, hd, hentity, .inr ?_⟩
      simp [currentShape, initial?, hinitial]
    | some p =>
      cases p with
      | source a =>
        obtain ⟨d, hd, rfl, hentity⟩ := exists_of_entityOf h
        exact ⟨d, hd, hentity, .inl rfl⟩
      | _ => cases h

/-- A closed select covers the members of the entity of its rows, if the registered data sources do.

**Proof sketch.** Whole rows of an entity are passed on as rows of a data source, and its columns are the output
columns. A grouped select, and one with another value, has no entity. -/
theorem Select.covers_close (hsources : ∀ d ∈ s.sources, sc.shape? d.name = some (.ofRelation d.relation))
    (hcovers : ∀ entry ∈ sc.shapes, entry.2.Covers schema) (hd : s.close schema sc = .ok (d, after)) :
    (SourceShape.ofRelation (.derived d)).Covers schema := by
  rw [SourceShape.covers_ofRelation_derived]
  intro entity hentity
  simp only [close, bind_eq_ok, pure_eq_ok, Prod.mk.injEq] at hd
  obtain ⟨leaves, hleaves, rfl, -⟩ := hd
  have hpaths : (nameColumns leaves).map (·.path) = leaves.map (·.1) := by
    conv_rhs => rw [← map_nameColumnsFrom [] leaves, map_map]
    rfl
  rw [hpaths]
  obtain ⟨x, hx, hrow, hshape⟩ := exists_of_rowEntity sc hentity
  rw [sources_withKeyProjection] at hx
  have hregistered := hsources x hx
  rw [Relation.rowEntity_eq] at hrow
  have hcover : (SourceShape.ofRelation x.relation).Covers schema :=
    hcovers (x.name, .ofRelation x.relation) (mem_of_lookup hregistered)
  rcases hshape with hshape | hshape
  · rw [hshape] at hleaves
    simp only [Scope.flatten, bind_eq_ok, pure_eq_ok, nil_append] at hleaves
    obtain ⟨columns, hcolumns, rfl⟩ := hleaves
    rw [map_id']
    exact Scope.spans_sourceLeaves hregistered hrow hcover hcolumns
  · rw [hshape] at hleaves
    exact Scope.spans_sourceValue hregistered hrow hcover hleaves

end Sql

/-! ## Values in order -/

namespace Sql

/-- A data source is of none of the selects that are left alone, and the columns of its relation are registered. -/
structure DataSource.Orderly (w : Watch) (known : Registry) (d : DataSource) : Prop where
  apart : d.name ∉ w.aliases
  registered : known.lookup d.name = some (.ofRelation d.relation)

/-- The data sources that are read anew when a value is opened. -/
def Node.opens : Node → List DataSource
  | select s => s.sources
  | derived d | rows d => d.select.sources
  | _ => []

/-- The closed select that a value is. -/
def Node.closed? : Node → Option Derived
  | derived d | rows d => some d
  | _ => none

/-- A value is no row of a select that is left alone, its data sources are registered, and its columns cover the
members of the entity of its rows. The same holds of what can be taken out of it. -/
inductive Node.Orderly (w : Watch) (known : Registry) : Node → Prop
  | intro {n : Node} (row : ∀ a, n = source a → a ∉ w.aliases) (sources : ∀ d ∈ n.opens, d.Orderly w known)
      (columns : ∀ d ∈ n.closed?, (SourceShape.ofRelation (.derived d)).Covers w.schema)
      (parts : ∀ m ∈ n.parts, Orderly w known m) : Orderly w known n

theorem DataSource.Orderly.mono {d : DataSource} (h : d.Orderly w known) (hgrows : known.Grows known') :
    d.Orderly w known' := ⟨h.apart, hgrows.lookup h.registered⟩

/-- What is in order stays so when more data sources are registered. -/
theorem Node.Orderly.mono (h : n.Orderly w known) (hgrows : known.Grows known') : n.Orderly w known' := by
  induction h with
  | intro row sources columns _ ih => exact .intro row (fun d hd => (sources d hd).mono hgrows) columns ih

/-- A value that is neither a query nor a row is in order if its operands are. -/
theorem Node.orderly_of_operands (hn : blocksOf? n = none) (hrow : ∀ a, n ≠ source a)
    (h : ∀ m ∈ n.operands, m.Orderly w known) : n.Orderly w known := by
  refine .intro (fun a ha => absurd ha (hrow a)) ?_ ?_ (Node.parts_eq hn ▸ h)
  · cases n with
    | select | derived | rows => cases hn
    | _ => exact forall_mem_nil _
  · cases n with
    | derived | rows => cases hn
    | _ => exact nofun

theorem Node.orderly_source : (Node.source a).Orderly w known ↔ a ∉ w.aliases := by
  refine ⟨fun ⟨row, _, _, _⟩ => row a rfl, fun ha => .intro ?_ (forall_mem_nil _) nofun (forall_mem_nil _)⟩
  rintro _ ⟨⟩
  exact ha

theorem Node.orderly_column {name : String} : (Node.column a name).Orderly w known :=
  orderly_of_operands rfl (by simp) (forall_mem_nil _)

theorem Node.orderly_select : (Node.select s).Orderly w known ↔
    s.Clauses (Node.Orderly w known) ∧ ∀ d ∈ s.sources, d.Orderly w known := by
  rw [Select.clauses_iff]
  exact ⟨fun ⟨_, sources, _, parts⟩ => ⟨parts, sources⟩, fun h => .intro nofun h.2 nofun h.1⟩

theorem Node.orderly_derived : (Node.derived d).Orderly w known ↔ (Node.select d.select).Orderly w known ∧
    (∀ c ∈ d.columns, c.expr.Orderly w known) ∧ (SourceShape.ofRelation (.derived d)).Covers w.schema := by
  rw [orderly_select, Select.clauses_iff]
  constructor
  · rintro ⟨-, sources, columns, parts⟩
    obtain ⟨hclauses, hexprs⟩ := forall_mem_append.1 parts
    exact ⟨⟨hclauses, sources⟩, forall_mem_map.1 hexprs, columns d rfl⟩
  · rintro ⟨⟨hclauses, hsources⟩, hexprs, hcovers⟩
    refine .intro nofun hsources ?_ (forall_mem_append.2 ⟨hclauses, forall_mem_map.2 hexprs⟩)
    rintro _ ⟨⟩
    exact hcovers

theorem Node.orderly_rows : (Node.rows d).Orderly w known ↔ (Node.derived d).Orderly w known :=
  ⟨fun ⟨_, sources, columns, parts⟩ => .intro nofun sources columns parts,
    fun ⟨_, sources, columns, parts⟩ => .intro nofun sources columns parts⟩

theorem Node.orderly_union : (Node.union items).Orderly w known ↔
    ∀ i ∈ items, (Node.derived i.query).Orderly w known := ⟨fun ⟨_, _, _, parts⟩ => forall_mem_map.1 parts,
    fun h => .intro nofun (forall_mem_nil _) nofun (forall_mem_map.2 h)⟩

/-- Nothing is taken out of a query in the place of a value, nor out of a modification. -/
theorem Node.orderly_of_parts_eq_nil (hopens : n.opens = []) (hclosed : n.closed? = none) (hrow : ∀ a, n ≠ source a)
    (hparts : n.parts = []) : n.Orderly w known :=
  .intro (fun a ha => absurd ha (hrow a)) (by simp [hopens]) (by simp [hclosed]) (by simp [hparts])

theorem Node.orderly_existence : (Node.existence d).Orderly w known := orderly_of_parts_eq_nil rfl rfl (by simp) rfl

theorem Node.orderly_update {u : Update} : (Node.update u).Orderly w known :=
  orderly_of_parts_eq_nil rfl rfl (by simp) rfl

theorem Node.orderly_delete {q : Delete} : (Node.delete q).Orderly w known :=
  orderly_of_parts_eq_nil rfl rfl (by simp) rfl

instance : Compositional (Node.Orderly w known) := .ofOperands (fun hn h hrow _ _ => Node.orderly_of_operands hn hrow h)
    (fun hn ⟨_, _, _, parts⟩ => Node.parts_eq hn ▸ parts) Node.orderly_rows
    (fun _ => Node.orderly_of_parts_eq_nil rfl rfl (by simp) rfl)

namespace Node.Orderly

section

variable (h : (select s).Orderly w known)

include h

/-- Other clauses in the place of those of a select. -/
theorem withClauses (ht : t.Clauses (Node.Orderly w known))
    (hsources : t.sources = s.sources) : (select t).Orderly w known :=
  orderly_select.2 ⟨ht, hsources ▸ (orderly_select.1 h).2⟩

theorem clauses : s.Clauses (Node.Orderly w known) := (orderly_select.1 h).1

/-- A row of a data source of a select. -/
theorem source_of_mem {x : DataSource} (hx : x ∈ s.sources) :
    (source x.name).Orderly w known := orderly_source.2 ((orderly_select.1 h).2 x hx).apart

/-- A condition is given to a join. -/
theorem setCondition {condition : Node} (ht : s.setCondition a condition = .ok t) : (select t).Orderly w known := by
  obtain ⟨hclauses, hold⟩ := orderly_select.1 h
  obtain ⟨sources, rfl, hsources⟩ := Select.exists_sources_of_setCondition ht hold fun d j hd =>
    ⟨hd.apart, hd.registered⟩
  exact orderly_select.2 ⟨{ hclauses with }, hsources⟩

end

end Node.Orderly

end Sql

theorem SourceShape.covers_of_derived
    (h : (Node.derived d).Orderly w known) : (SourceShape.ofRelation (.derived d)).Covers w.schema :=
  (Node.orderly_derived.1 h).2.2

theorem SourceShape.covers_of_union
    (h : (Node.union items).Orderly w known) : (SourceShape.ofRelation (.union items)).Covers w.schema :=
  SourceShape.covers_ofRelation_union fun i hi => covers_of_derived (Node.orderly_union.1 h i hi)

end QueryLowering
