import QueryLowering.Proofs.Custody
import QueryLowering.Proofs.Invariants

/-!
# Outlines of data sources

Which joins a select has can be read off the outlines of its data sources: the alias, the table that is read, the kind
of the join, and the navigation that it was added for. What the conditions are, and what the queries are that are
read, does not matter. So outlines stay as they are when a condition is set, when queries are put in the place of
others, and when common table expressions are moved to the statement.

A data source fits behind others if it is registered as what it is, and if it keeps to the rules of the navigation
that it was added for. The lowering adds data sources that fit behind those of the select, and nothing else changes
the outlines of a select.

## Main results

* `Sql.Fitting.append`: a data source that fits can be added.
* `Schema.admits_outlines`: updates and deletions keep the condition.
-/

namespace QueryLowering

open Sql Lower List Node

variable {schema : Schema} {known known' : Registry} {tag : NavigationTag} {nav : Navigation}
variable {sources : List DataSource} {d : DataSource} {a : Alias} {c : Change} {s t : Select}

namespace Sql

/-- The table that a relation is. -/
def Relation.table? : Relation → Option Table
  | .table t => some t
  | _ => none

/-- What matters of a data source for the joins of its select. -/
structure Outline where
  name : Alias
  table : Option Table
  kind : Option JoinKind
  navigation : Option NavigationTag

/-- How a data source is joined. -/
def DataSource.joinKind? (d : DataSource) : Option JoinKind := d.join.map (·.kind)

def DataSource.outline (d : DataSource) : Outline := ⟨d.name, d.relation.table?, d.joinKind?, d.navigation⟩

end Sql

open DataSource (outline)

/-- The navigation that the entity declares whose rows the data source of an alias has. -/
def Schema.navigationOf? (schema : Schema) (known : Registry) (tag : NavigationTag) : Option Navigation :=
  (known.lookup tag.parent).bind fun shape => shape.entity?.bind fun entity =>
    (schema.navigation entity tag.name).toOption

theorem Schema.navigationOf?_eq_some :
    schema.navigationOf? known tag = some nav ↔ ∃ shape entity, known.lookup tag.parent = some shape ∧
      shape.entity? = some entity ∧ schema.navigation entity tag.name = .ok nav := by
  have htoOption : ∀ r : Result Navigation, r.toOption = some nav ↔ r = .ok nav := by
    intro r
    cases r <;> simp [Except.toOption]
  simp only [navigationOf?, Option.bind_eq_some_iff, htoOption]
  constructor
  · rintro ⟨shape, hshape, entity, hentity, hnav⟩
    exact ⟨shape, entity, hshape, hentity, hnav⟩
  · rintro ⟨shape, entity, hshape, hentity, hnav⟩
    exact ⟨shape, hshape, entity, hentity, hnav⟩

theorem Schema.navigationOf?_mono (hgrows : known.Grows known') (h : schema.navigationOf? known tag = some nav) :
    schema.navigationOf? known' tag = some nav := by
  obtain ⟨shape, entity, hshape, hentity, hnav⟩ := Schema.navigationOf?_eq_some.1 h
  exact Schema.navigationOf?_eq_some.2 ⟨shape, entity, hgrows.lookup hshape, hentity, hnav⟩

namespace Sql

variable {before l : List Outline} {o : Outline}

/-! ## Data sources that fit -/

/-- A table is registered with its entity, and a query with its columns. -/
def Outline.Registered (known : Registry) (o : Outline) : Prop :=
  match o.table with
  | some t => known.lookup o.name = some (.entity t.entity)
  | none => ∃ columns entity, known.lookup o.name = some (.columns columns entity)

/-- Whether a row may be missing that one of some data sources has. -/
def mayMiss (before : List Outline) (a : Alias) : Bool :=
  (before.find? (·.name == a)).any fun p => p.kind.any JoinKind.isOuter

/-- A data source was added for a navigation, behind the data source that it starts from. A navigation to one row is
joined once: with `left` if the row may be missing, or the row that it starts from, and else with `inner`. -/
structure Outline.Follows (before : List Outline) (tag : NavigationTag) (nav : Navigation) (o : Outline) : Prop where
  parent : ∃ p ∈ before, p.name = tag.parent
  target : ∃ t, o.table = some t ∧ t.entity = nav.target
  once : nav.isToMany = false → ∀ x ∈ before, x.navigation ≠ some tag
  one : nav.isToMany = false →
    o.kind = some (if nav.cardinality = .toOneOptional ∨ mayMiss before tag.parent then .left else .inner)
  many : nav.isToMany = true → o.kind = some .inner

/-- A data source keeps to the rules, behind those before it. -/
structure Outline.Fits (schema : Schema) (known : Registry) (before : List Outline) (o : Outline) : Prop where
  registered : o.Registered known
  navigated : ∀ tag, o.navigation = some tag → ∃ nav, schema.navigationOf? known tag = some nav ∧
    o.Follows before tag nav

/-- Each of some data sources keeps to the rules, behind those before it. -/
def Fitting (schema : Schema) (known : Registry) (l : List Outline) : Prop :=
  ∀ (i : Nat) (o : Outline), l[i]? = some o → o.Fits schema known (l.take i)

theorem Fitting.registered (hfit : Fitting schema known (sources.map outline)) (hd : d ∈ sources) :
    d.outline.Registered known := by
  obtain ⟨i, hi⟩ := getElem?_of_mem (mem_map_of_mem hd)
  exact (hfit i d.outline hi).registered

/-- A table is registered with its entity. -/
theorem Fitting.registered_table
    (hfit : Fitting schema known (sources.map outline)) (hd : d ∈ sources) {t : Table}
    (ht : d.relation = .table t) : known.lookup d.name = some (.entity t.entity) := by
  have hregistered := hfit.registered hd
  simpa [Outline.Registered, outline, ht, Relation.table?] using hregistered

theorem Outline.Registered.mono (h : o.Registered known) (hgrows : known.Grows known') : o.Registered known' := by
  unfold Registered at h ⊢
  split at h
  · exact hgrows.lookup h
  · obtain ⟨columns, entity, h⟩ := h
    exact ⟨columns, entity, hgrows.lookup h⟩

theorem Outline.Fits.mono (h : o.Fits schema known before) (hgrows : known.Grows known') :
    o.Fits schema known' before := by
  refine ⟨h.registered.mono hgrows, fun tag htag => ?_⟩
  obtain ⟨nav, hnav, hfollows⟩ := h.navigated tag htag
  exact ⟨nav, Schema.navigationOf?_mono hgrows hnav, hfollows⟩

theorem Fitting.mono (h : Fitting schema known l) (hgrows : known.Grows known') : Fitting schema known' l :=
  fun i o ho => (h i o ho).mono hgrows

theorem fitting_nil : Fitting schema known [] := by
  intro i o ho
  cases ho

/-- A data source that fits can be added. -/
theorem Fitting.append (h : Fitting schema known l) (ho : o.Fits schema known l) : Fitting schema known (l ++ [o]) := by
  intro i x hx
  by_cases hi : i < l.length
  · rw [getElem?_append_left hi] at hx
    rw [take_append_of_le_length (Nat.le_of_lt hi)]
    exact h i x hx
  · rw [getElem?_append_right (by omega), getElem?_singleton] at hx
    split at hx
    · obtain rfl := Option.some.inj hx
      have hlength : i = l.length := by omega
      rw [hlength, take_left]
      exact ho
    · cases hx

/-- A relation is registered as what it is. -/
theorem Outline.registered_ofRelation (a : Alias) (r : Relation) (join : Option Join)
    (navigation : Option NavigationTag) :
    (outline ⟨a, r, join, navigation⟩).Registered ((a, .ofRelation r) :: known) := by
  cases r <;> simp [Registered, outline, Relation.table?, SourceShape.ofRelation]

theorem find?_map_outline (sources : List DataSource) (a : Alias) :
    (sources.map outline).find? (·.name == a) = (sources.find? (·.name == a)).map outline := by
  rw [find?_map]
  rfl

theorem Select.owns_eq_outlines (s : Select) (a : Alias) :
    s.owns a = (s.sources.map outline).any (·.name == a) := by
  rw [Select.owns, any_map]
  rfl

theorem Select.findNavigation?_eq_outlines (s : Select) (tag : NavigationTag) : s.findNavigation? tag =
      ((s.sources.map outline).find? (·.navigation == some tag)).map (·.name) := by
  rw [Select.findNavigation?, find?_map, Option.map_map]
  rfl

/-- Whether the row of a data source of a select may be missing. -/
theorem mayMiss_outlines (s : Select) (a : Alias) :
    mayMiss (s.sources.map outline) a = (s.joinKind? a).any JoinKind.isOuter := by
  rw [mayMiss, find?_map_outline, Select.joinKind?, Select.dataSource?]
  cases s.sources.find? (·.name == a) with
  | none => rfl
  | some d => rfl

/-- What a navigation adds to a select fits behind its data sources. -/
theorem Select.Navigates.follows {parent : Alias} {target : Table} {kind : JoinKind}
    {condition : Option Node} (h : s.Navigates schema known parent nav target kind) :
    (outline ⟨a, .table target, some ⟨kind, condition⟩, some ⟨parent, nav.name⟩⟩).Follows
      (s.sources.map outline) ⟨parent, nav.name⟩ nav where
  parent := by
    obtain ⟨d, hd, hname⟩ := any_eq_true.1 h.owns
    exact ⟨d.outline, mem_map_of_mem hd, beq_iff_eq.1 hname⟩
  target := ⟨target, rfl, h.target⟩
  once hone x hx hnavigation := by
    obtain ⟨d, hd, rfl⟩ := mem_map.1 hx
    have hnone : s.sources.find? (·.navigation == some ⟨parent, nav.name⟩) = none :=
      Option.map_eq_none_iff.1 (h.one hone).1
    exact find?_eq_none.1 hnone d hd (beq_iff_eq.2 hnavigation)
  one hone := by
    obtain rfl := (h.one hone).2
    rw [mayMiss_outlines]
    rfl
  many hmany := congrArg some (h.many hmany)

/-! ## What keeps outlines -/

/-- Setting the condition of a join keeps the outlines of a select. -/
theorem outlines_setCondition {condition : Node} (h : s.setCondition a condition = .ok t) :
    t.sources.map outline = s.sources.map outline := by
  obtain ⟨i, d, j, hd, -, hjoin, rfl⟩ := Select.setCondition_eq_ok h
  have hsame : outline { d with join := some { j with condition := some condition } } = d.outline := by
    simp [outline, DataSource.joinKind?, hjoin]
  have hi : (s.sources.map outline)[i]? = some d.outline := by rw [List.getElem?_map, hd, Option.map_some]
  obtain ⟨_, hi⟩ := List.getElem?_eq_some_iff.1 hi
  rw [List.map_set, hsame, ← hi, List.set_getElem_self]

/-- A change keeps the outlines of data sources if it leaves tables alone and makes none. -/
theorem outlines_changeSources
    (hc : ∀ r r', c.relation r = some r' → r.table? = none ∧ r'.table? = none) (sources : List DataSource) :
    (changeSources c sources).map outline = sources.map outline := by
  have htable : ∀ r : Relation, (r.change c).table? = r.table? := by
    intro r
    cases hr : c.relation r with
    | some r' =>
      have hchange : r.change c = r' := by
        cases r <;> simp only [Relation.change, hr]
      rw [hchange, (hc r r' hr).1, (hc r r' hr).2]
    | none => cases r <;> simp only [Relation.change, hr] <;> rfl
  have hkind : ∀ join : Option Join, (changeJoin c join).map (·.kind) = join.map (·.kind) := by
    intro join
    cases join with
    | none => rfl
    | some j =>
      cases j
      simp [changeJoin]
  induction sources with
  | nil => rfl
  | cons d rest ih =>
    obtain ⟨name, relation, join, navigation⟩ := d
    rw [changeSources, map_cons, ih, map_cons]
    simp only [outline, DataSource.joinKind?, htable, hkind]

/-- The condition on marks that all data sources fit. -/
def AllFit (schema : Schema) (known : Registry) : Mark → Prop
  | .mention _ => True
  | .sources l => Fitting schema known (l.map outline)

theorem AllFit.mono (hgrows : known.Grows known') (m : Mark) (h : AllFit schema known m) : AllFit schema known' m := by
  cases m with
  | mention a => trivial
  | sources l => exact Fitting.mono h hgrows

theorem keepsSources_of_tables (hc : ∀ r r', c.relation r = some r' → r.table? = none ∧ r'.table? = none) :
    c.KeepsSources (AllFit schema known) := by
  intro l hl
  rw [AllFit, outlines_changeSources hc]
  exact hl

theorem keepsSources_substitution {id : Alias} {columns : List (Path × String)} :
    (substitution id (.cte a columns)).KeepsSources (AllFit schema known) := by
  refine keepsSources_of_tables fun r r' hr => ?_
  simp only [substitution] at hr
  split at hr
  · obtain rfl := Option.some.inj hr
    cases r with
    | derived d => exact ⟨rfl, rfl⟩
    | table _ => contradiction
    | union _ => contradiction
    | cte _ _ => contradiction
  · cases hr

theorem keepsSources_inlining {d : Derived} : (inlining a d).KeepsSources (AllFit schema known) :=
  keepsSources_of_tables nofun

theorem keepsSources_withoutCtes : withoutCtes.KeepsSources (AllFit schema known) := keepsSources_of_tables nofun

/-! ## The condition as one on values -/

/-- A data source that fits is added to a select. -/
theorem Select.Every.addSource (h : s.Every (AllFit schema known))
    (hgrows : known.Grows known') (hd : d.outline.Fits schema known' (s.sources.map outline))
    (hrelation : d.relation.Every (AllFit schema known))
    (hcondition : ∀ j ∈ d.join, ∀ n ∈ j.condition, n.Every (AllFit schema known)) :
    (s.addSource d).Every (AllFit schema known') := by
  have hs := h.mono (AllFit.mono hgrows)
  refine { hs with own := ?_, sources := forall_mem_append.2 ⟨hs.sources, forall_mem_singleton.2 ?_⟩ }
  · change Fitting schema known' ((s.sources ++ [d]).map outline)
    rw [map_append, map_singleton]
    exact Fitting.append hs.own hd
  · exact (⟨hrelation, hcondition⟩ : d.Every (AllFit schema known)).mono (AllFit.mono hgrows)

theorem Select.every_empty_outlines : Select.empty.Every (AllFit schema known) := Select.every_empty fitting_nil

end Sql

open Sql

/-- All data sources in a value fit. Every lent select has a ticket of its own. -/
def Schema.outlines (schema : Schema) : Regime where
  watch := ⟨schema, []⟩
  World := Registry
  Grows := Registry.Grows
  Fits := Registry.Fits ⟨schema, []⟩ fun _ => True
  node known n := n.Every (AllFit schema known)
  strict := True
  placed := False

instance (schema : Schema) : schema.outlines.Lawful where
  refl := Registry.Grows.refl
  trans := Registry.Grows.trans
  compositional (known : Registry) := inferInstanceAs (Compositional (Node.Every (AllFit schema known)))
  mono hgrows h := Node.Every.mono h (AllFit.mono hgrows)
  params h := { h with }
  issued h := ⟨_, .refl _, h.issued⟩
  owned _ := not_mem_nil
  past h := h.elim
  row _ _ := every_source.2 trivial
  select := every_select_iff
  empty := every_select.2 Select.every_empty_outlines
  opened h hr := ⟨_, h.fresh.grows _, h.ofRelation trivial, every_select.2
    (Select.every_empty_outlines.addSource (h.fresh.grows _) ⟨Outline.registered_ofRelation .., nofun⟩
      (Relation.Holds.every hr) nofun)⟩
  joined h hs hr := by
    refine ⟨_, h.fresh.grows _, h.ofRelation trivial, every_select.2 ((every_select.1 hs).addSource
      (h.fresh.grows _) ⟨Outline.registered_ofRelation .., nofun⟩ (Relation.Holds.every hr) ?_)⟩
    rintro _ ⟨⟩
    exact nofun
  navigated h hs hnav := by
    refine ⟨_, h.fresh.grows _, h.ofRelation (r := .table _) trivial, every_select.2
      ((every_select.1 hs).addSource (h.fresh.grows _) ⟨Outline.registered_ofRelation .., ?_⟩
        Relation.every_table ?_)⟩
    · rintro _ ⟨⟩
      have hnav := hnav trivial
      rw [← h.known] at hnav
      refine ⟨_, Schema.navigationOf?_mono (h.fresh.grows _) ?_, hnav.follows⟩
      exact Schema.navigationOf?_eq_some.2 hnav.declared
    · rintro _ ⟨⟩ n hn
      obtain rfl := Option.mem_some_iff.1 hn
      exact every_literal
  conditioned hs hc _ ht := by
    have hs := every_select.1 hs
    have houtlines := outlines_setCondition ht
    obtain ⟨sources, rfl, hsources⟩ := Select.exists_sources_of_setCondition ht hs.sources fun d j hd =>
      ⟨hd.relation, by rintro _ ⟨⟩ n hn; exact Option.mem_some_iff.1 hn ▸ hc⟩
    refine every_select.2 { hs with own := ?_, sources := hsources }
    change Fitting schema _ (sources.map outline)
    exact houtlines ▸ hs.own
  closed _ _ _ hselect hcolumns := every_derived.2 (Derived.every_iff.2 ⟨every_select.1 hselect, hcolumns⟩)
  inside hd := every_select.2 (Derived.every_iff.1 (every_derived.1 hd)).1
  existence hd := hd
  union := every_union
  recursion {known sc a anchor member columns} h hanchor hmember := by
    have hgrows := h.fresh.grows (.ofRelation (.cte a columns))
    have hs : ({ Select.empty with sources := [⟨sc.lastAlias.next, .cte a columns, none, none⟩] } : Select).Every
        (AllFit schema _) :=
      Select.every_empty_outlines.addSource hgrows ⟨Outline.registered_ofRelation .., nofun⟩ Relation.every_cte nofun
    refine ⟨_, hgrows, h.ofRelation trivial,
      every_select.2 (hs.addCte ⟨Derived.Every.mono hanchor (AllFit.mono hgrows), ?_⟩)⟩
    rintro _ ⟨⟩
    have hkeeps : ∀ known, (substitution anchor.id (.cte a columns)).Keeps (AllFit schema known) :=
      fun _ => keeps_substitution keepsSources_substitution Relation.every_cte
    exact Derived.every_change (hkeeps _) _ (Derived.Every.mono hmember (AllFit.mono hgrows))

theorem Schema.upheld_outlines (schema : Schema) : Context.empty.Upheld schema.outlines ([] : Registry) :=
  Context.upheld_empty rfl (Registry.Fits.empty (w := ⟨schema, []⟩) rfl)

/-! ## Updates and deletions -/

theorem Sql.traceable_outlines : Traceable (Node.Every (AllFit schema known)) where
  source := every_source.2 trivial
  select := every_select_iff
  derived := by
    intro d
    rw [every_derived, Derived.every_iff, every_select]
  reads := by
    intro s x q hs hx hq
    have hrelation := ((every_select.1 hs).sources x hx).relation
    rw [hq] at hrelation
    exact hrelation
  declares := by
    intro s t hs ht
    have hs := every_select.1 hs
    have ht := every_select.1 ht
    exact every_select.2 { hs with ctes := forall_mem_append.2 ⟨hs.ctes, ht.ctes⟩ }
  inline := by
    intro n a d hd hn
    refine every_change (keeps_inlining keepsSources_inlining fun _ name m hm => ?_) n hn
    obtain ⟨c, hc, rfl⟩ := Derived.exists_of_output? hm
    exact (Derived.every_iff.1 hd).2 c hc
  delete h := every_delete.2 (every_select.1 h)
  update h hassignments := every_update.2 ⟨every_select.1 h, hassignments⟩

/-- Updates and deletions have data sources that fit, because those of a traced select fit. -/
theorem Schema.admits_outlines (schema : Schema) (rs : List Recognizer) (H : Expr → Context → Prop) :
    schema.outlines.Admits rs H := by
  intro e cx delete _ _ (known : Registry) s args mid n after chained index cx' hs hargs _ hn _
  obtain ⟨m, hm, hresult, rfl⟩ := yields_modification.1 hn
  have hholds : m.Holds (Node.Every (AllFit schema known)) := .of_requested? traceable_outlines hs hargs hm
  cases delete with
  | true => exact hholds.toDelete traceable_outlines hresult
  | false => exact hholds.toUpdate traceable_outlines hresult

end QueryLowering
