import QueryLowering.Proofs.Upholding

/-!
# The steps of the lowering uphold a condition

What the lowering does between the parts of a node: it opens and closes queries, joins relations to lent selects,
follows navigations, and makes values of values.

While the parts of a node are lowered, its select lies on top of the selects that were lent before. What the node has
joined to it is the last data source that is no navigation, so its join can still be given a condition.

## Main results

* `Lower.upholds_closeQuery`, `Lower.upholds_navigate`, `Lower.upholds_recursiveUnion`, …: the steps on queries.
* `Step.runs_receive`: what a step of a query does with the value of an argument.
* `Step.upholds_finish`: its value.
-/

namespace QueryLowering

open Sql Result List Node
open Option (mem_some_iff)
open Regime.Lawful (mono)
open Regime (addFilter currentShape withClauses)

variable {cx cx' : Context} {d : DataSource} {condition n left right : Node} {a parent : Alias} {schema : Schema}
variable {e arg arg' : Expr} {context name operator : String} {ty : Ty} {R : Regime}
variable {F : List Frame → List Frame → Prop} {t : Ticket} {s : Select} {kind : UnionKind} {nav : Navigation}
variable {target : Table} {args : List Node} {base : List (Ticket × Select)} {p q : Progress} {P : Node → Prop}

namespace Lower

variable [R.Lawful] {w : R.World} {r : Relation}

/-! ## Lent selects -/

theorem retains_lentQuery (ht : cx.Owns R t) :
    Retains R F w cx (lentQuery t) fun s => cx.lent.lookup t = some s ∧ R.node w (.select s) := by
  obtain ⟨hfree, s, hs⟩ := ht
  have hok : cx.lentQuery t = .ok s := by
    rw [Context.lentQuery, hs]
    rfl
  refine Runs.getBind fun hcx _ _ => Retains.ofResult (r := cx.lentQuery t) ?_
  rw [hok]
  exact ⟨hs, hcx.select_of_lookup hfree hs⟩

theorem runs_setLent (ht : R.watch.Frees t) (hs : R.node w (.select s)) :
    Runs R F w cx (setLent t s) (setLent t s) fun w' cx' _ _ => w' = w ∧ cx' = cx.setLent t s :=
  fun hcx _ _ => ⟨rfl, rfl, rfl, w, Regime.Lawful.refl w, hcx.setLent ht hs, rfl, rfl⟩

/-- A data source is added to the select of a ticket, under an alias that none of those before has. -/
structure Joined (R : Regime) (w : R.World) (cx cx' : Context) (t : Ticket) (s : Select) (d : DataSource) : Prop where
  here : cx.lent.lookup t = some s
  lent : cx'.lent = Context.replaceIn t (s.addSource d) cx.lent
  later : R.placed → ∀ x ∈ s.sources, x.name ≠ d.name
  node : R.node w (.select (s.addSource d))

theorem Joined.source {w : R.World} (h : Joined R w cx cx' t s d) :
    R.node w (.source d.name) := Regime.Lawful.row h.node (mem_append_right _ mem_cons_self)

omit [R.Lawful] in
theorem Joined.owns {w : R.World} (h : Joined R w cx cx' t s d)
    (ht : R.watch.Frees t) : cx'.Owns R t := ⟨ht, _, h.lent ▸ Context.lookup_replaceIn h.here⟩

/-- A relation is joined to the select of a ticket under an alias of its own, in a way that keeps the condition. -/
theorem runs_joinLent (ht : cx.Owns R t) {kind : JoinKind} {condition : Option Node} {navigation : Option NavigationTag}
    (hjoined : ∀ s, cx.lent.lookup t = some s → R.node w (.select s) → R.Fits w cx.scope →
      ∃ w', R.Grows w w' ∧ R.Fits w' (Select.ofRelation r cx.scope).2 ∧
        R.node w' (.select (s.addSource ⟨cx.scope.lastAlias.next, r, some ⟨kind, condition⟩, navigation⟩))) :
    Runs R F w cx (joinLent t r kind condition navigation) (joinLent t r kind condition navigation)
      fun w' cx' a b => a = b ∧ ∃ s, Joined R w' cx cx' t s ⟨a, r, some ⟨kind, condition⟩, navigation⟩ := by
  refine (retains_lentQuery ht).bind fun s hs => ?_
  refine Runs.bind (Q := fun w' mid joined joined' => joined = joined' ∧ mid.lent = cx.lent ∧
    joined.2 = s.addSource ⟨joined.1, r, some ⟨kind, condition⟩, navigation⟩ ∧
    (R.placed → ∀ x ∈ s.sources, x.name ≠ joined.1) ∧ R.node w' (.select joined.2)) (.update rfl fun hcx => ?_) ?_
  · obtain ⟨w', hgrows, hfits, hnode⟩ := hjoined s hs.1 hs.2 hcx.fits
    refine ⟨w', hgrows, hcx.withScope hgrows hfits fun p hp => mono hgrows (hcx.params p hp), rfl, rfl,
      rfl, fun hplaced x hx heq => ?_, hnode⟩
    have hle := Regime.Lawful.past hplaced hcx.fits (Regime.Lawful.row hs.2 hx)
    rw [heq] at hle
    exact absurd hle (Nat.not_succ_le_self _)
  · rintro ⟨a, s'⟩ _ w' mid - - ⟨rfl, hlent, hs', hlater, hnode⟩
    obtain rfl : s' = s.addSource ⟨a, r, some ⟨kind, condition⟩, navigation⟩ := hs'
    refine (runs_setLent ht.free hnode).bind ?_
    rintro _ _ _ _ - - ⟨rfl, rfl⟩
    refine Runs.pure ⟨rfl, s, hs.1, ?_, hlater, hnode⟩
    rw [Context.setLent, hlent]

theorem runs_setLentCondition (ht : cx.Owns R t) (hs : cx.lent.lookup t = some s)
    (hc : R.node w condition) (ha : R.placed → Conditionable s.sources a) :
    Runs R F w cx (setLentCondition t a condition) (setLentCondition t a condition) fun w' cx' _ _ =>
      w' = w ∧ ∃ s', s.setCondition a condition = .ok s' ∧ cx'.lent = Context.replaceIn t s' cx.lent := by
  refine (retains_lentQuery ht).bind fun s' hs' => ?_
  obtain rfl := Option.mem_unique hs hs'.1
  refine (Retains.ofResult Select.plain_setCondition.orPlain).bind fun s'' hs'' =>
    (runs_setLent ht.free (Regime.Lawful.conditioned hs'.2 hc ha hs'')).mono ?_
  rintro _ _ _ _ - ⟨rfl, rfl⟩
  exact ⟨rfl, s'', hs'', rfl⟩

/-! ## Queries as values -/

theorem upholds_selectFrom (hr : r.Holds (R.node w)) :
    Upholds R F w cx (selectFrom r) fun w' s => R.node w' (.select s) := .update rfl fun hcx => hcx.ofRelation hr

theorem names_close {sc after : Scope} {d : Derived} (h : s.close schema sc = .ok (d, after)) :
    after.names = sc.names := by
  simp only [Select.close, bind_eq_ok, pure_eq_ok, Prod.mk.injEq] at h
  obtain ⟨leaves, -, -, rfl⟩ := h
  rfl

theorem upholds_closeSelect (hs : R.node w (.select s)) :
    Upholds R F w cx (closeSelect s) fun w' d => R.node w' (.derived d) := by
  refine .attempt Select.plain_close (fun _ _ => names_close) fun d after hcx hd => ?_
  obtain ⟨hclosed, rfl⟩ := Regime.close hcx.fits hs hd
  obtain ⟨w', hgrows, hupheld⟩ := hcx.fresh
  exact ⟨w', hgrows, hupheld, mono hgrows hclosed⟩

/-- A select that is wrapped is closed and read by another one, and parameters are bound to its columns. -/
theorem upholds_prepare (hs : R.node w (.select s)) {op : Operation} :
    Upholds R F w cx (attempt fun schema sc => s.prepare schema op sc) fun w' s => R.node w' (.select s) := by
  have hwrap : ∀ {schema : Schema} {sc after : Scope} {s' : Select}, s.prepare schema op sc = .ok (s', after) →
      s' = s ∧ after = sc ∨ s.wrap schema sc = .ok (s', after) := by
    intro schema sc after s' h
    simp only [Select.prepare, bind_eq_ok] at h
    obtain ⟨-, -, h⟩ := h
    split at h
    · exact .inr h
    · rw [pure_eq_ok, Prod.mk.injEq] at h
      exact .inl ⟨h.1.symm, h.2.symm⟩
  refine .attempt Select.plain_prepare (fun s' after h => ?_) fun s' after hcx h => ?_ <;>
    obtain ⟨rfl, rfl⟩ | h := hwrap h
  · rfl
  · simp only [Select.wrap, Select.enclose, Select.Wrapped.rebind, bind_eq_ok, pure_eq_ok, Prod.mk.injEq] at h
    obtain ⟨⟨_, _⟩, ⟨⟨closed, inner⟩, hclosed, rfl, rfl⟩, _, ⟨expansions, -, rfl⟩, -, rfl⟩ := h
    rw [← names_close hclosed]
    simp [Scope.names, Select.ofRelation, Scope.fresh, Scope.register]
  · exact ⟨w, Regime.Lawful.refl w, hcx, hs⟩
  · simp only [Select.wrap, Select.enclose, bind_eq_ok, pure_eq_ok, Prod.mk.injEq] at h
    obtain ⟨⟨wrapped, opened⟩, ⟨⟨closed, closing⟩, hclose, rfl, rfl⟩, rebound, hrebind, rfl, rfl⟩ := h
    obtain ⟨hclosed, rfl⟩ := Regime.close hcx.fits hs hclose
    obtain ⟨w₁, h₁, hfresh⟩ := hcx.fresh
    obtain ⟨w₂, h₂, hopened, houter⟩ := hfresh.ofRelation (r := .derived closed) (mono h₁ hclosed)
    obtain ⟨hparams, -⟩ := Select.Wrapped.rebind_eq_ok (Regime.initial houter _ rfl) hopened.params hrebind
    simp only [Select.Wrapped.rebind, bind_eq_ok, pure_eq_ok] at hrebind
    obtain ⟨expansions, -, rfl⟩ := hrebind
    exact ⟨w₂, Regime.Lawful.trans h₁ h₂, hopened.withParams cx.frames hparams, houter⟩

theorem agree_openQuery (hn : R.node w n) {e' : Expr} :
    Agree R F w cx (openQuery e n) (openQuery e' n) fun w' s => R.node w' (.select s) := by
  unfold openQuery
  split
  · exact Upholds.pure hn
  · exact Upholds.pure (Regime.Lawful.inside (Compositional.rows.1 hn))
  · exact upholds_selectFrom Relation.holds_table
  · exact upholds_selectFrom hn
  · exact upholds_selectFrom hn
  · exact .throw (by simp)

/-- A query that is closed keeps the condition. -/
theorem upholds_closeQuery (hn : R.node w n) : Upholds R F w cx (closeQuery n) fun w' m => R.node w' m := by
  unfold closeQuery
  split
  · exact (upholds_closeSelect hn).bind fun _ _ _ _ hd => Upholds.pure hd
  · exact (upholds_selectFrom Relation.holds_table).bind fun _ _ _ _ hs =>
      (upholds_closeSelect hs).bind fun _ _ _ _ hd => Upholds.pure hd
  · exact Upholds.pure hn

theorem upholds_relation (hn : R.node w n) :
    Upholds R F w cx (relation context n) fun w' r => r.Holds (R.node w') := by
  unfold relation
  split
  · exact Upholds.pure Relation.holds_table
  · refine (upholds_closeQuery hn).bind fun m _ _ _ hm => ?_
    split
    · exact Upholds.pure hm
    · exact Upholds.pure (Compositional.rows.1 hm)
    · exact Upholds.pure hm
    · exact .throw (by simp)

/-! ## What parameters stand for -/

/-- What the parameters of an argument are bound to. -/
def BoundUpheld (R : Regime) (w : R.World) (bound : List (String × Node)) : Prop := ∀ p ∈ bound, R.node w p.2

omit [R.Lawful] in
theorem boundUpheld_inOrder {values : List Node} (h : ∀ v ∈ values, R.node w v) :
    BoundUpheld R w (bindInOrder arg values) := fun _ hp => h _ (of_mem_zip hp).2

theorem retains_rowOf (ht : cx.Owns R t) : Retains R F w cx (rowOf t) (R.node w) :=
  (retains_lentQuery ht).bind fun _ hs => Retains.scope.bind fun sc _ => Same.pure (currentShape hs.2 sc)

theorem retains_bindFirst (ht : cx.Owns R t) : Retains R F w cx (bindFirst arg t) (BoundUpheld R w) := by
  unfold bindFirst
  split
  · exact Same.pure (forall_mem_nil _)
  · refine (retains_lentQuery ht).bind fun s hs => Retains.scope.bind fun sc _ => ?_
    split
    · refine (Retains.ofResult ((Regime.clauses hs.2).groupingShape (Regime.initial hs.2))).bind fun n hn => ?_
      exact Same.pure (forall_mem_singleton.2 hn)
    · exact Same.pure (forall_mem_singleton.2 (currentShape hs.2 sc))

/-! ## Navigations -/

/-- A navigation is joined behind all data sources, and its condition is given while it is the last one. -/
theorem upholds_joinNavigation (ht : cx.Owns R t) (hparent : R.node w (.source parent)) {kind : JoinKind}
    (hnav : R.strict → ∃ s, cx.lent.lookup t = some s ∧
      s.Navigates R.watch.schema cx.scope.shapes parent nav target kind) :
    Upholds R F w cx (joinNavigation t parent nav target kind) fun w' a => R.node w' (.source a) := by
  refine (runs_joinLent ht fun s hs hnode hfits => Regime.Lawful.navigated hfits hnode fun hstrict => ?_).bind ?_
  · obtain ⟨s', hs', hnavigates⟩ := hnav hstrict
    obtain rfl := Option.mem_unique hs hs'
    exact hnavigates
  · rintro a _ w' mid hgrows - ⟨rfl, s, hjoined⟩
    have hsource := hjoined.source
    refine (Retains.look (Scope.holds_navigationCondition (mono hgrows hparent) hsource)).bind
      fun condition hc => ?_
    refine (runs_setLentCondition (hjoined.owns ht.free) (hjoined.lent ▸ Context.lookup_replaceIn hjoined.here) hc
      fun _ => conditionable_concat).bind ?_
    rintro _ _ _ after - - ⟨rfl, s', hs', hlent⟩
    rw [hjoined.lent, Context.replaceIn_replaceIn] at hlent
    refine Runs.pure ⟨rfl, ⟨hlent ▸ Context.map_replaceIn .., fun hplaced => hlent ▸ .replaceIn hjoined.here ?_⟩, hsource⟩
    -- The alias is new, so the condition is that of the navigation itself.
    obtain ⟨i, d, j, hd, hname, -, rfl⟩ := Select.setCondition_eq_ok hs'
    by_cases hi : i < s.sources.length
    · rw [Select.addSource, getElem?_append_left hi] at hd
      exact absurd hname (hjoined.later hplaced d (List.mem_of_getElem? hd))
    · obtain ⟨hlength, -⟩ := List.getElem?_eq_some_iff.1 hd
      simp only [Select.addSource, List.length_append, List.length_singleton] at hlength
      obtain rfl : i = s.sources.length := by omega
      rw [Select.addSource, List.getElem?_concat_length, Option.some.injEq] at hd
      subst hd
      refine ⟨[⟨a, .table target, some ⟨j.kind, some condition⟩, some ⟨parent, nav.name⟩⟩], ?_,
        forall_mem_singleton.2 rfl⟩
      rw [Select.addSource, set_append_right _ _ (Nat.le_refl _), Nat.sub_self, set_cons_zero]

theorem retains_navigationOwner (hparent : R.node w (.source parent)) : Retains R F w cx (navigationOwner parent nav)
      fun l => cx.owner? parent = some l ∧ cx.Owns R l.1 ∧ R.node w (.select l.2) := by
  refine Runs.getBind fun hcx _ _ => Same.orThrow (o := cx.owner? parent) (by simp) fun l hl => ⟨hl, ?_⟩
  exact hcx.owner (Regime.Lawful.owned hparent) hl

theorem yields_navigationOwner {l : Ticket × Select} :
    Yields schema (navigationOwner parent nav) cx l cx' ↔ cx.owner? parent = some l ∧ cx = cx' := by
  simp only [navigationOwner, yields_bind, yields_get, yields_orThrow]
  constructor
  · rintro ⟨_, _, ⟨rfl, rfl⟩, h⟩
    exact h
  · exact fun h => ⟨cx, cx, ⟨rfl, rfl⟩, h⟩

/-- The navigations of the entity whose rows a data source has, and the tables that they lead to. -/
def Declared (R : Regime) (known : Registry) (parent : Alias) (nav : Navigation) (target : Table) : Prop :=
  (∃ shape entity, known.lookup parent = some shape ∧ shape.entity? = some entity ∧
    R.watch.schema.navigation entity nav.name = .ok nav) ∧ target.entity = nav.target

section

variable (hparent : R.node w (.source parent)) (hdeclared : Declared R cx.scope.shapes parent nav target)

include hparent hdeclared

/-- The join of a navigation is added to the select that reads the row it starts from. -/
theorem upholds_joinOwner {owner : Ticket × Select}
    (howner : cx.owner? parent = some owner) (howns : cx.Owns R owner.1) {kind : JoinKind}
    (hone : nav.isToMany = false →
      owner.2.findNavigation? ⟨parent, nav.name⟩ = none ∧ kind = toOneKind owner.2 parent nav)
    (hmany : nav.isToMany = true → kind = .inner) :
    Upholds R F w cx (joinNavigation owner.1 parent nav target kind) fun w' a => R.node w' (.source a) := by
  intro hcx
  refine upholds_joinNavigation howns hparent (fun hstrict => ?_) hcx
  refine ⟨owner.2, Context.lookup_of_mem (hcx.stack hstrict).1 (mem_of_find?_eq_some howner), ?_⟩
  have howns := find?_some howner
  exact ⟨howns, hdeclared.1, hdeclared.2, hone, hmany⟩

theorem upholds_navigateToOne (hone : nav.isToMany = false) :
    Upholds R F w cx (navigateToOne parent nav target) R.node := by
  refine (retains_navigationOwner hparent).bind ?_
  rintro owner ⟨hfound, howns, hnode⟩
  dsimp only
  split
  · next a ha =>
    obtain ⟨x, hx, rfl⟩ := Option.map_eq_some_iff.1 ha
    exact Upholds.pure (Regime.Lawful.row hnode (mem_of_find?_eq_some hx))
  · next hnone =>
    refine (upholds_joinOwner hparent hdeclared hfound howns (fun _ => ⟨hnone, rfl⟩) ?_).bind fun a _ _ _ ha =>
      Upholds.pure ha
    simp [hone]

theorem upholds_joinCollectionOf (hmany : nav.isToMany = true) :
    Upholds R F w cx (joinCollectionOf parent nav target) R.node := by
  refine (retains_navigationOwner hparent).bind ?_
  rintro owner ⟨hfound, howns, -⟩
  refine (upholds_joinOwner hparent hdeclared hfound howns ?_ fun _ => rfl).bind fun a _ _ _ ha => Upholds.pure ha
  simp [hmany]

end

theorem upholds_correlatedRows (hparent : R.node w (.source parent)) :
    Upholds R F w cx (correlatedRows parent nav target) R.node := by
  refine Agree.bind (Q := fun w' child => R.node w' (.source child.1) ∧ R.node w' (.select child.2))
    (Upholds.update rfl fun hcx => ?_) fun child w' mid hgrows hchild => ?_
  · obtain ⟨w', hgrows, hopened, hs⟩ := hcx.ofRelation (r := .table target) Relation.holds_table
    exact ⟨w', hgrows, hopened, Regime.initial hs _ rfl, hs⟩
  · refine (Retains.look (Scope.holds_navigationCondition (mono hgrows hparent) hchild.1)).bind
      fun condition hc => ?_
    exact (upholds_closeSelect (addFilter hchild.2 hc)).bind fun d _ _ _ hd =>
      Upholds.pure (Compositional.rows.2 hd)

theorem retains_navigationStart (hn : R.node w n) :
    Retains R F w cx (navigationStart name n) fun start => R.node w (.source start.1) ∧
      ∃ shape, cx.scope.shapes.lookup start.1 = some shape ∧ shape.entity? = some start.2 := by
  unfold navigationStart
  dsimp only
  split
  · refine (Retains.look Scope.plain_shape.orPlain).bind fun shape hshape => ?_
    rw [Scope.shape, orThrow_eq_ok] at hshape
    split
    · next entity hentity => exact Same.pure ⟨hn, shape, hshape, hentity⟩
    · exact .throw (by simp)
  · exact .throw (by simp)

/-- A navigation sees of the frames only whether it is the collection of a `SelectMany`. -/
theorem upholds_navigate (hF : ∀ f f', F f f' → inCollection f = inCollection f') (hn : R.node w n) :
    Upholds R F w cx (navigate name n) R.node := by
  refine (retains_navigationStart hn).bind ?_
  rintro ⟨parent, entity⟩ ⟨hparent, shape, hshape, hentity⟩
  refine (Retains.look Schema.plain_navigation.orPlain).bind fun nav hnav => ?_
  refine (Retains.look Schema.plain_table.orPlain).bind fun table _ => ?_
  have hdeclared : Declared R cx.scope.shapes parent nav ⟨nav.target, table⟩ :=
    ⟨⟨shape, entity, hshape, hentity, (Schema.name_of_navigation hnav).symm ▸ hnav⟩, rfl⟩
  dsimp only
  split
  · next hone => exact upholds_navigateToOne hparent hdeclared (by simpa using hone)
  · next hmany =>
    refine Runs.getBind fun _ frames hframes => ?_
    dsimp only
    rw [hF _ _ hframes]
    split
    · exact upholds_joinCollectionOf hparent hdeclared (by simpa using hmany)
    · exact upholds_correlatedRows hparent

/-! ## Unions -/

theorem upholds_unionItems (hn : R.node w n) {side : String} :
    Upholds R F w cx (unionItems kind side n) fun w' items => ∀ i ∈ items, R.node w' (.derived i.query) := by
  refine (upholds_closeQuery hn).bind fun m _ _ _ hm => ?_
  split
  · exact Upholds.pure (Regime.Lawful.union.1 hm)
  · exact Upholds.pure (forall_mem_singleton.2 hm)
  · exact .throw (by simp)

theorem upholds_rightSide (hn : R.node w n) : Upholds R F w cx (rightSide kind n) fun w' m => R.node w' m := by
  unfold rightSide
  split
  · next items =>
    split
    · exact Upholds.pure hn
    · exact (upholds_selectFrom (r := .union items) hn).bind fun s _ _ _ hs =>
        (upholds_closeSelect hs).bind fun d _ _ _ hd => Upholds.pure hd
  · exact Upholds.pure hn

theorem upholds_union (hleft : R.node w left) (hright : R.node w right) :
    Upholds R F w cx (union kind left right) R.node := by
  refine (upholds_unionItems hleft).bind fun first w₁ _ h₁ hfirst => ?_
  refine (upholds_rightSide (mono h₁ hright)).bind fun side w₂ _ h₂ hside => ?_
  refine (upholds_unionItems hside).bind fun second w₃ _ h₃ hsecond => ?_
  refine (Retains.ofResult plain_checkColumns.orPlain).bind fun _ _ => Upholds.pure ?_
  refine Regime.Lawful.union.2 (forall_mem_append.2
    ⟨fun i hi => mono (Regime.Lawful.trans h₂ h₃) (hfirst i hi), ?_⟩)
  cases second with
  | nil => exact hsecond
  | cons i rest => exact forall_mem_cons.2 (forall_mem_cons.1 hsecond)

theorem upholds_recursiveMember (hn : R.node w n) :
    Upholds R F w cx (recursiveMember n) fun w' d => R.node w' (.derived d) := by
  refine (upholds_closeQuery hn).bind fun m _ _ _ hm => ?_
  split
  · exact Upholds.pure hm
  · exact .throw (by simp)

theorem upholds_recursiveUnion {anchor : Derived} (hanchor : R.node w (.derived anchor)) (hn : R.node w n) :
    Upholds R F w cx (recursiveUnion anchor n) R.node := by
  refine (upholds_recursiveMember hn).bind fun member w₁ _ h₁ hmember => ?_
  dsimp only
  split
  · exact .throwBefore (by simp)
  · refine Agree.bind (Q := fun _ _ => True) (Upholds.update rfl fun hcx => ?_) fun a w₂ _ h₂ _ => ?_
    · obtain ⟨w', hgrows, hupheld⟩ := hcx.fresh
      exact ⟨w', hgrows, hupheld, trivial⟩
    · split
      · exact .throwBefore (by simp)
      · -- The select reads a common table expression that it declares in the same step.
        refine Agree.bind (Q := fun w' s => R.node w' (.select (s.addCte
          ⟨a, anchor, some (member.substitute anchor.id (.cte a anchor.columnPaths))⟩)))
            (Upholds.update rfl fun hcx => ?_) fun s _ _ _ hs => Upholds.pure hs
        obtain ⟨w', hgrows, hfits, hs⟩ := Regime.Lawful.recursion hcx.fits
          (mono (Regime.Lawful.trans h₁ h₂) hanchor) (mono h₂ hmember)
        exact ⟨w', hgrows, hcx.withScope hgrows hfits fun p hp => mono hgrows (hcx.params p hp), hs⟩

/-! ## Values -/

theorem retains_part {parts : List Node} (hparts : ∀ n ∈ parts, R.node w n) {index : Nat} :
    Retains R F w cx (part parts index context) (R.node w) :=
  Same.orThrow (by simp) fun _ hn => hparts _ (List.mem_of_getElem? hn)

theorem retains_table {entity : String} : Retains R F w cx (table entity) (R.node w) :=
  .look (Schema.plain_table.orPlain.andThen fun _ _ => Compositional.table)

theorem retains_captured : Retains R F w cx (captured e) (R.node w) := by
  refine (Retains.ofResult (Expr.plain_evaluate e).orPlain).bind fun v _ => ?_
  split
  · exact retains_table
  · exact Same.pure (holds_ofCaptured _ _)

theorem retains_constant {v : Value} : Retains R F w cx (constant v) (R.node w) := by
  unfold constant
  split
  · exact retains_table
  · exact .ofResult (holds_ofValue v)

theorem retains_parameter : Retains R F w cx (parameter name) (R.node w) := by
  refine Retains.scope.bind fun sc hsc => Same.orThrow (by simp) fun n hn => ?_
  exact hsc.2 (name, n) (mem_reverse.1 (mem_of_lookup hn))

theorem retains_member (hn : R.node w n) : Retains R F w cx (member ty n name) (R.node w) := by
  unfold member
  split
  · next m hm =>
    cases htyped : typedMember? ty n name with
    | some typed =>
      obtain rfl : typed = m := by simpa [htyped] using hm
      exact Same.pure (holds_typedMember hn typed htyped)
    | none =>
      have hm : intervalMember? n name = some m := by simpa [htyped] using hm
      exact Same.pure (holds_intervalMember hn m hm)
  · exact .look (Scope.holds_resolveMember hn)

theorem retains_equality (hl : R.node w left) (hr : R.node w right) :
    Retains R F w cx (look fun schema sc => sc.equality schema left right) (R.node w) :=
  .look (Scope.holds_equality hl hr)

theorem retains_binary {op : BinaryOp} {leftTy rightTy : Ty} (hl : R.node w left)
    (hr : R.node w right) : Retains R F w cx (binary op ty leftTy rightTy left right) (R.node w) := by
  have hl := holds_asScalar hl
  have hr := holds_asScalar hr
  unfold binary
  dsimp only
  split
  · refine (retains_equality hl hr).bind fun n hn => Same.pure ?_
    split
    · exact hn
    · exact holds_negation hn
  · split
    · exact Same.pure (Compositional.function (by decide) (forall_mem_cons.2 ⟨hl, forall_mem_singleton.2 hr⟩))
    · split
      · exact Same.pure (Compositional.dateDiff.2 ⟨hr, hl⟩)
      · split
        · exact Same.pure (holds_connected hl hr)
        · exact .throw (by simp)

/-! ## Changes of a select -/

theorem upholds_existence (hs : R.node w (.select s)) :
    Upholds R F w cx (existence s) fun w' n => R.node w' n ∧ ∃ d, n = .existence d := by
  unfold existence
  refine (upholds_closeSelect ?_).bind fun d _ _ _ hd => Upholds.pure ⟨Regime.Lawful.existence hd, d, rfl⟩
  refine withClauses hs { Regime.clauses hs with projection := ?_, orderBy := ?_ } rfl
  · exact fun m hm => mem_some_iff.1 hm ▸ Compositional.literal
  · intro k hk
    dsimp only at hk
    split at hk
    · exact (Regime.clauses hs).orderBy k hk
    · cases hk

theorem retains_orderKeys (hn : R.node w n) : Retains R F w cx (orderKeys n) fun keys => ∀ m ∈ keys, R.node w m := by
  unfold orderKeys
  split
  · exact .look ((Scope.holds_flatten n hn).andThen fun _ => forall_mem_map.2)
  · exact Same.pure (forall_mem_singleton.2 (holds_asScalar hn))

theorem upholds_quantified (hs : R.node w (.select s)) (hargs : ∀ m ∈ args, R.node w m) {universal conditional : Bool} :
    Upholds R F w cx (quantified universal conditional s args) R.node := by
  unfold quantified
  split
  · refine (retains_part hargs).bind fun m hm => ?_
    have hcondition := holds_condition (holds_asScalar hm)
    dsimp only
    split
    · refine (upholds_existence (addFilter hs (holds_negation hcondition))).bind fun e _ _ _ he => ?_
      exact Upholds.pure (holds_negation he.1)
    · exact (upholds_existence (addFilter hs hcondition)).mono fun _ _ _ _ _ h => ⟨h.1, h.2.1, h.2.2.1⟩
  · split
    · exact .throw (by simp)
    · exact (upholds_existence hs).mono fun _ _ _ _ _ h => ⟨h.1, h.2.1, h.2.2.1⟩

theorem upholds_containsItem (hs : R.node w (.select s)) (hargs : ∀ m ∈ args, R.node w m) :
    Upholds R F w cx (containsItem s args) R.node := by
  refine (retains_part hargs).bind fun m hm => Retains.scope.bind fun sc _ => ?_
  refine (retains_equality (currentShape hs sc) (holds_asScalar hm)).bind fun equal hequal => ?_
  refine (upholds_existence (addFilter ?_ hequal)).mono fun _ _ _ _ _ h => ⟨h.1, h.2.1, h.2.2.1⟩
  exact withClauses hs ((Regime.clauses hs).setProjection (by simp)) rfl

/-- An update or a deletion leaves the context alone. -/
theorem retains_modify (hargs : ∀ m ∈ args, R.node w m) {delete : Bool} :
    Retains R F w cx (Lower.modify delete s args) fun _ => True := by
  have htarget : Retains R F w cx (modificationTarget s args) fun _ => True := by
    unfold modificationTarget
    split
    · exact Retains.scope.bind fun sc _ => Same.pure trivial
    · exact (retains_part hargs).mono fun _ _ _ _ _ h => ⟨h.1, h.2.1, h.2.2.1, trivial⟩
  have hvalues : Retains R F w cx (assignedValues args) fun _ => True := by
    refine (retains_part hargs).bind fun m _ => ?_
    split
    · exact Same.pure trivial
    · exact .throw (by simp)
  refine htarget.bind fun target _ => ?_
  split
  · exact Retains.look (Modification.plain_toDelete.orPlain.mono fun _ _ => trivial)
  · exact hvalues.bind fun values _ => Retains.look (Modification.plain_toUpdate.orPlain.mono fun _ _ => trivial)

end Lower

/-! ## The state of a node -/

open Lower

/-- A condition holds of what a node has learned. -/
structure Progress.Holds (P : Node → Prop) (p : Progress) : Prop where
  joined : ∀ a ∈ p.joined, P (.source a)
  outerKey : ∀ n ∈ p.outerKey, P n
  shape : ∀ n ∈ p.shape, P n
  inner : ∀ s ∈ p.inner, P (.select s)
  items : ∀ n ∈ p.items, P n
  anchor : ∀ d ∈ p.anchor, P (.derived d)
  group : ∀ g ∈ p.group, P g.1 ∧ P g.2

theorem Progress.holds_empty : Progress.Holds P {} :=
  ⟨by simp, by simp, by simp, by simp, by simp, by simp, by simp⟩

theorem Progress.Holds.mono {Q : Node → Prop} (h : p.Holds P) (hPQ : ∀ {n}, P n → Q n) :
    p.Holds Q where
  joined a ha := hPQ (h.joined a ha)
  outerKey n hn := hPQ (h.outerKey n hn)
  shape n hn := hPQ (h.shape n hn)
  inner s hs := hPQ (h.inner s hs)
  items n hn := hPQ (h.items n hn)
  anchor d hd := hPQ (h.anchor d hd)
  group g hg := (h.group g hg).imp hPQ hPQ

/-- How the lent selects hang on what a node has learned: the select of the node lies on top of those that were lent
before, and what the node has joined to it is the last data source that is no navigation. The collection of a
`SelectMany` may be a navigation. -/
def Progress.Fits (R : Regime) (r : Rule) (base : List (Ticket × Select)) (p : Progress)
    (lent : List (Ticket × Select)) : Prop :=
  match p.source with
  | none => R.Kept base lent
  | some t => (∃ step, r = .step step) ∧ R.watch.Frees t ∧ ∃ s rest, lent = (t, s) :: rest ∧ R.Kept base rest ∧
      (R.placed → r ≠ .step .selectMany → ∀ a ∈ p.joined, JoinedLast s.sources a)

/-- The state of a node between its parts. -/
structure Underway (R : Regime) (r : Rule) (base : List (Ticket × Select)) (w : R.World) (cx : Context)
    (p : Progress) : Prop where
  holds : p.Holds (R.node w)
  fits : p.Fits R r base cx.lent

section

variable {w w' : R.World} {r : Rule}

/-- The select of a node lies on top. -/
theorem Underway.source (hu : Underway R r base w cx p) (ht : p.source = some t) : (∃ step, r = .step step) ∧
    R.watch.Frees t ∧ ∃ s rest, cx.lent = (t, s) :: rest ∧ R.Kept base rest ∧
      (R.placed → r ≠ .step .selectMany → ∀ a ∈ p.joined, JoinedLast s.sources a) := by
  have hfits := hu.fits
  rwa [Progress.Fits, ht] at hfits

theorem Underway.owns (hu : Underway R r base w cx p) (ht : p.source = some t) : cx.Owns R t := by
  obtain ⟨-, hfree, s, rest, hlent, -⟩ := hu.source ht
  exact ⟨hfree, s, by rw [hlent, lookup_cons_self]⟩

/-- Navigations that are added to lent selects leave the state of a node as it is. -/
theorem Progress.Fits.kept {lent lent' : List (Ticket × Select)} (hp : p.Fits R r base lent)
    (hlent : R.Kept lent lent') : p.Fits R r base lent' := by
  unfold Progress.Fits at hp ⊢
  split at hp
  · exact hp.trans hlent
  · obtain ⟨hr, hfree, s, rest, rfl, hrest, hjoined⟩ := hp
    obtain ⟨htickets, hnavigated⟩ := hlent
    obtain ⟨⟨_, s'⟩, rest', rfl, rfl, hrest'⟩ := map_eq_cons_iff.1 htickets
    refine ⟨hr, hfree, s', rest', rfl, hrest.trans ⟨hrest', fun hplaced => ?_⟩, fun hplaced hmany a ha => ?_⟩
    · exact (forall₂_cons.1 (hnavigated hplaced)).2
    · obtain ⟨⟨-, more, hs', hmore⟩, -⟩ := forall₂_cons.1 (hnavigated hplaced)
      obtain rfl : s' = { s with sources := s.sources ++ more } := hs'
      exact (hjoined hplaced hmany a ha).append hmore

/-- Learning values changes nothing else. -/
theorem Underway.learn (hu : Underway R r base w cx p) (hq : q.Holds (R.node w)) (hsource : q.source = p.source)
    (hjoined : q.joined = p.joined) : Underway R r base w cx q := by
  refine ⟨hq, ?_⟩
  have hfits := hu.fits
  unfold Progress.Fits at hfits ⊢
  rwa [hsource, hjoined]

variable [R.Lawful]

/-- Steps that keep the lent selects keep the state of a node. -/
theorem Underway.step (hu : Underway R r base w cx p) (hgrows : R.Grows w w') (hkept : R.Kept cx.lent cx'.lent) :
    Underway R r base w' cx' p := ⟨hu.holds.mono (mono hgrows), hu.fits.kept hkept⟩

/-- A step that keeps the lent selects, while the parts of a node are lowered. -/
theorem Lower.Agree.underway {α : Type} {x y : Lower α} {Q : R.World → α → Prop} (h : Agree R F w cx x y Q)
    (hu : Underway R r base w cx p) :
    Runs R F w cx x y fun w' cx' a b => a = b ∧ Underway R r base w' cx' p ∧ R.Grows w w' ∧ Q w' a := by
  refine Runs.mono h ?_
  rintro w' mid a _ hgrows ⟨rfl, hkept, ha⟩
  exact ⟨rfl, hu.step hgrows hkept, hgrows, ha⟩

namespace Lower

variable {step : Step}

/-- A value is joined to the select of a node. -/
theorem runs_joinValue (hu : Underway R (.step step) base w cx p) (ht : p.source = some t) (hn : R.node w n)
    {kind : JoinKind} :
    Runs R F w cx (joinValue t kind context n) (joinValue t kind context n) fun w' cx' a b =>
      a = b ∧ Underway R (.step step) base w' cx' { p with joined := some a } := by
  refine ((upholds_relation hn).underway hu).bind ?_
  rintro r _ w₁ mid - - ⟨rfl, hu, -, hr⟩
  refine (runs_joinLent (hu.owns ht) fun s _ hs hfits => Regime.Lawful.joined hfits hs hr).mono ?_
  rintro w₂ after a _ hgrows ⟨rfl, s, hjoined⟩
  refine ⟨rfl, { hu.holds.mono (mono hgrows) with
    joined := fun b hb => mem_some_iff.1 hb ▸ hjoined.source }, ?_⟩
  obtain ⟨hstep, hfree, s', rest, hlent, hbase, -⟩ := hu.source ht
  have hhere := hjoined.here
  rw [hlent, lookup_cons_self, Option.some.injEq] at hhere
  subst hhere
  rw [Progress.Fits]
  simp only [ht]
  refine ⟨hstep, hfree, _, rest, by rw [hjoined.lent, hlent, Context.replaceIn_cons, if_pos rfl], hbase,
    fun _ _ b hb => ?_⟩
  exact mem_some_iff.1 hb ▸ joinedLast_concat rfl

theorem retains_joinedRow (hp : p.Holds (R.node w)) : Retains R F w cx (joinedRow operator p) (R.node w) :=
  Retains.scope.bind fun _ _ =>
    (Same.present (by simp) hp.joined).bind fun _ ha => Same.pure (Scope.holds_sourceValue ha)

theorem retains_bindRows (ht : cx.Owns R t) (hp : p.Holds (R.node w)) :
    Retains R F w cx (bindRows operator p t arg) (BoundUpheld R w) :=
  (retains_rowOf ht).bind fun _ hrow => (retains_joinedRow hp).bind fun _ hjoined =>
    Same.pure (boundUpheld_inOrder (forall_mem_cons.2 ⟨hrow, forall_mem_singleton.2 hjoined⟩))

theorem runs_setJoinedCondition (hu : Underway R (.step step) base w cx p) (ht : p.source = some t)
    (hstep : step ≠ .selectMany) (hc : R.node w condition) :
    Runs R F w cx (setJoinedCondition operator p t condition) (setJoinedCondition operator p t condition)
      fun w' cx' _ _ => Underway R (.step step) base w' cx' p := by
  obtain ⟨hrule, hfree, s, rest, hlent, hbase, hlast⟩ := hu.source ht
  have hlookup : cx.lent.lookup t = some s := by rw [hlent, lookup_cons_self]
  have hlast : R.placed → ∀ a ∈ p.joined, JoinedLast s.sources a :=
    fun hplaced => hlast hplaced fun h => hstep (Rule.step.inj h)
  refine (Same.present (by simp) fun a ha => ha).bind fun a ha => ?_
  refine (runs_setLentCondition (hu.owns ht) hlookup hc fun hplaced => (hlast hplaced a ha).conditionable).mono ?_
  rintro _ cx' _ _ - ⟨rfl, s', hs', hlent'⟩
  refine ⟨hu.holds, ?_⟩
  rw [Progress.Fits]
  simp only [ht]
  refine ⟨hrule, hfree, s', rest, by rw [hlent', hlent, Context.replaceIn_cons, if_pos rfl], hbase,
    fun hplaced _ b hb => ?_⟩
  obtain ⟨i, d, j, hd, -, -, rfl⟩ := Select.setCondition_eq_ok hs'
  exact (hlast hplaced b hb).set hd _

theorem upholds_matching (hp : p.Holds (R.node w)) {innerKey : Node} (hkey : R.node w innerKey) :
    Upholds R F w cx (matching p innerKey) R.node := by
  refine (Same.present (by simp) hp.outerKey).bind fun outerKey houter => ?_
  refine (retains_equality houter hkey).bind fun condition hc =>
    (Same.present (by simp) hp.inner).bind fun inner hinner => ?_
  exact (upholds_closeSelect (addFilter hinner hc)).bind fun d _ _ _ hd =>
    Upholds.pure (Compositional.rows.2 hd)

theorem retains_isNavigation (ht : cx.Owns R t) : Retains R F w cx (isNavigation t a) fun _ => True := by
  refine (retains_lentQuery ht).bind fun s _ => ?_
  split
  · exact Same.pure trivial
  · exact Same.pure trivial

theorem runs_joinCollection (hu : Underway R (.step .selectMany) base w cx p) (ht : p.source = some t)
    (hn : R.node w n) : Runs R F w cx (joinCollection t arg n) (joinCollection t arg' n) fun w' cx' a b =>
      a = b ∧ Underway R (.step .selectMany) base w' cx' { p with joined := some a } := by
  unfold joinCollection
  dsimp only
  split
  · next a =>
    refine (retains_isNavigation (hu.owns ht)).bind fun b _ => ?_
    split
    · refine Runs.pure ⟨rfl, { hu.holds with joined := fun b hb => mem_some_iff.1 hb ▸ hn }, ?_⟩
      obtain ⟨hstep, hfree, s, rest, hlent, hbase, -⟩ := hu.source ht
      rw [Progress.Fits]
      simp only [ht]
      exact ⟨hstep, hfree, s, rest, hlent, hbase, fun _ h => absurd rfl h⟩
    · exact .throw (by simp)
  · exact runs_joinValue hu ht hn
  · exact runs_joinValue hu ht hn
  · exact runs_joinValue hu ht hn
  · exact .throw (by simp)

end Lower

/-! ## Steps of a query -/

namespace Step

theorem bindings_congr (harg : lambdaParams arg = lambdaParams arg') (step : Step) (p : Progress) (t : Ticket)
    (index : Nat) : step.bindings p t index arg = step.bindings p t index arg' := by
  simp only [bindings, bindFirst, bindRows, bindInOrder, harg]

theorem retains_bindings (step : Step) (ht : cx.Owns R t) (hp : p.Holds (R.node w)) (index : Nat) :
    Retains R F w cx (step.bindings p t index arg) (BoundUpheld R w) := by
  have inOrder : ∀ {values : List Node}, (∀ v ∈ values, R.node w v) →
      Retains R F w cx (pure (bindInOrder arg values)) (BoundUpheld R w) := fun h => Same.pure (boundUpheld_inOrder h)
  unfold bindings
  split
  -- The joined query itself sees no row.
  case h_1 | h_2 | h_3 | h_4 => exact Same.pure (forall_mem_nil _)
  case h_5 | h_6 => exact retains_bindFirst ht
  case h_7 => exact (retains_joinedRow hp).bind fun _ h => inOrder (forall_mem_singleton.2 h)
  case h_8 => exact retains_bindRows ht hp
  case h_9 =>
    refine (Same.present (by simp) hp.inner).bind fun inner hinner => Retains.scope.bind fun sc _ => ?_
    exact inOrder (forall_mem_singleton.2 (currentShape hinner sc))
  case h_10 =>
    refine (retains_rowOf ht).bind fun row hrow => (Same.present (by simp) hp.items).bind fun items hitems => ?_
    exact inOrder (forall_mem_cons.2 ⟨hrow, forall_mem_singleton.2 hitems⟩)
  case h_11 => exact retains_bindRows ht hp
  case h_12 => exact (Same.present (by simp) hp.shape).bind fun _ h => inOrder (forall_mem_singleton.2 h)
  case h_13 => exact retains_bindFirst ht
  case h_14 => exact retains_bindRows ht hp
  case h_15 => exact retains_bindFirst ht
  case h_16 =>
    refine (Same.present (by simp) hp.shape).bind fun shape hshape => (retains_joinedRow hp).bind fun row hrow => ?_
    exact inOrder (forall_mem_cons.2 ⟨hshape, forall_mem_singleton.2 hrow⟩)
  case h_17 => exact retains_bindRows ht hp
  case h_18 => exact retains_bindFirst ht

/-- What is known before an argument is lowered changes neither the select nor the data source that was joined. -/
theorem retains_anticipate (step : Step) (hu : Underway R r base w cx p) (ht : p.source = some t) (index : Nat)
    {bound : List (String × Node)} (hbound : BoundUpheld R w bound) :
    Retains R F w cx (step.anticipate p t index bound) fun q => Underway R r base w cx q ∧ q.source = p.source := by
  have houter : Retains R F w cx (outerRow t bound) (R.node w) := by
    unfold outerRow
    split
    · exact Same.pure (hbound _ mem_cons_self)
    · exact retains_rowOf (hu.owns ht)
  unfold anticipate
  split
  · refine houter.bind fun row hrow => Same.pure ⟨hu.learn { hu.holds with shape := fun n hn => ?_ } rfl rfl, rfl⟩
    exact mem_some_iff.1 hn ▸ hrow
  · exact Same.pure ⟨hu, rfl⟩

/-- What a step does with the value of an argument. -/
theorem runs_receive (step : Step) (hu : Underway R (.step step) base w cx p) (ht : p.source = some t) (index : Nat)
    (hn : R.node w n) : Runs R F w cx (step.receive p t index arg n) (step.receive p t index arg' n) fun w' cx' q q' =>
      q = q' ∧ Underway R (.step step) base w' cx' q := by
  have joined : ∀ {x y : Lower Alias}, Runs R F w cx x y (fun w' cx' a b => a = b ∧
      Underway R (.step step) base w' cx' { p with joined := some a }) →
      Runs R F w cx (do return { p with joined := some (← x) }) (do return { p with joined := some (← y) })
        fun w' cx' q q' => q = q' ∧ Underway R (.step step) base w' cx' q := by
    intro x y h
    refine h.bind ?_
    rintro a _ w' mid - - ⟨rfl, hu⟩
    exact Runs.pure ⟨rfl, hu⟩
  have conditioned : ∀ {condition : Node}, step ≠ .selectMany → R.node w condition → Runs R F w cx
      (do setJoinedCondition step.name p t condition; return p)
      (do setJoinedCondition step.name p t condition; return p)
      fun w' cx' q q' => q = q' ∧ Underway R (.step step) base w' cx' q :=
    fun hstep hc => (runs_setJoinedCondition hu ht hstep hc).bind fun _ _ _ _ _ _ h => Runs.pure ⟨rfl, h⟩
  have learned : ∀ {w' : R.World} {mid : Context} {q : Progress}, Underway R (.step step) base w' mid p →
      q.Holds (R.node w') → q.source = p.source → q.joined = p.joined →
      Runs R F w' mid (pure q) (pure q) fun w' cx' q q' => q = q' ∧ Underway R (.step step) base w' cx' q :=
    fun hu hq hsource hjoined => Runs.pure ⟨rfl, hu.learn hq hsource hjoined⟩
  unfold receive
  split
  case h_1 => exact joined (runs_joinValue hu ht hn)
  case h_2 | h_3 =>
    exact learned hu { hu.holds with outerKey := fun m hm => mem_some_iff.1 hm ▸ hn } rfl rfl
  case h_4 =>
    refine (Same.present (by simp) hu.holds.outerKey).bind fun outerKey houter => ?_
    exact (retains_equality houter hn).bind fun _ => conditioned (by simp)
  case h_5 =>
    refine ((agree_openQuery hn).underway hu).bind ?_
    rintro inner _ w₁ _ - - ⟨rfl, hu, -, hinner⟩
    refine ((upholds_prepare hinner).underway hu).bind ?_
    rintro inner _ w₂ _ - - ⟨rfl, hu, -, hinner⟩
    exact learned hu { hu.holds with inner := fun s hs => mem_some_iff.1 hs ▸ hinner } rfl rfl
  case h_6 =>
    refine ((upholds_matching hu.holds hn).underway hu).bind ?_
    rintro items _ w₁ _ - - ⟨rfl, hu, -, hitems⟩
    exact learned hu { hu.holds with items := fun m hm => mem_some_iff.1 hm ▸ hitems } rfl rfl
  case h_7 => exact joined (runs_joinValue hu ht hn)
  case h_8 => exact learned hu { hu.holds with shape := fun m hm => mem_some_iff.1 hm ▸ hn } rfl rfl
  case h_9 => exact conditioned (by simp) (holds_condition (holds_asScalar hn))
  case h_10 => exact joined (runs_joinValue hu ht hn)
  case h_11 => exact joined (runs_joinCollection hu ht hn)
  case h_12 => exact joined (runs_joinValue hu ht hn)
  case h_13 =>
    split
    · exact conditioned (by simp) (holds_condition (holds_asScalar hn))
    · exact Runs.pure ⟨rfl, hu⟩
  case h_14 => exact Runs.pure ⟨rfl, hu⟩

/-- The value of a step whose select and arguments satisfy the condition, unless it is an update or a deletion. -/
theorem upholds_finish {step : Step} (hstep : ∀ delete, step ≠ .modify delete) (hp : p.Holds (R.node w))
    (hs : R.node w (.select s)) (hargs : ∀ m ∈ args, R.node w m) :
    Upholds R F w cx (step.finish p s args) R.node := by
  have hclauses := Regime.clauses hs
  have hcondition : ∀ m : Node, R.node w m → R.node w m.asScalar.condition :=
    fun m hm => holds_condition (holds_asScalar hm)
  have hsome : ∀ {m : Node}, R.node w m → ∀ k ∈ some m, R.node w k := fun hm k hk => mem_some_iff.1 hk ▸ hm
  have projected : ∀ {index : Nat} {context : String}, Upholds R F w cx
      (do return .select (s.project (← part args index context))) R.node :=
    (retains_part hargs).bind fun m hm => Upholds.pure (Regime.project hs hm)
  have joined : Upholds R F w cx (do return .select (s.project (← joinedRow step.name p))) R.node :=
    (retains_joinedRow hp).bind fun m hm => Upholds.pure (Regime.project hs hm)
  cases step with
  | filter => exact (retains_part hargs).bind fun m hm => Upholds.pure (addFilter hs (hcondition m hm))
  | select => exact projected
  | order descending append =>
    refine (retains_part hargs).bind fun m hm => (retains_orderKeys hm).bind fun keys hkeys => Upholds.pure ?_
    refine withClauses hs (hclauses.order fun k hk => ?_) rfl
    obtain ⟨key, hkey, rfl⟩ := mem_map.1 hk
    exact hkeys key hkey
  | take =>
    refine (retains_part hargs).bind fun m hm => Upholds.pure ?_
    exact withClauses hs { hclauses with top := hsome (holds_asScalar hm) } rfl
  | skip =>
    refine (retains_part hargs).bind fun m hm => Upholds.pure ?_
    exact withClauses hs { hclauses with skip := hsome (holds_asScalar hm) } rfl
  | paging =>
    refine (retains_part hargs).bind fun page hpage => (retains_part hargs).bind fun size hsize => ?_
    have hpage := holds_asScalar hpage
    have hsize := holds_asScalar hsize
    refine (Retains.ofResult (holds_pageOffset hpage hsize)).bind fun offset hoffset => Upholds.pure ?_
    exact withClauses hs { hclauses with top := hsome hsize, skip := hsome hoffset } rfl
  | distinct => exact Upholds.pure (withClauses hs { hclauses with } rfl)
  | defaultIfEmpty => exact Upholds.pure (withClauses hs { hclauses with } rfl)
  | first method conditional =>
    have htop : ∀ {s' : Select}, R.node w (.select s') →
        R.node w (.select { s' with top := some (.literal (.int 1)) }) :=
      fun hs' => withClauses hs' { Regime.clauses hs' with top := hsome Compositional.literal } rfl
    cases conditional with
    | true =>
      exact (retains_part hargs).bind fun m hm => Upholds.pure (htop (addFilter hs (hcondition m hm)))
    | false => exact Upholds.pure (htop hs)
  | aggregate method =>
    have hlambda : ∀ m ∈ args[1]?.map Node.asScalar, R.node w m := by
      intro m hm
      obtain ⟨arg, harg, rfl⟩ := Option.map_eq_some_iff.1 hm
      exact holds_asScalar (hargs arg (List.mem_of_getElem? harg))
    refine (Retains.ofResult (hclauses.aggregateRows hlambda)).bind fun t ht => Upholds.pure ?_
    obtain ⟨ht, hsources, hctes⟩ := ht
    refine withClauses hs ht ?_
    rw [Select.frame, hsources, hctes, Select.frame]
  | quantify universal conditional => exact upholds_quantified hs hargs
  | contains => exact upholds_containsItem hs hargs
  | groupBy =>
    refine (retains_part hargs).bind fun key hkey => Retains.scope.bind fun sc _ => Upholds.pure ?_
    have helement : R.node w ((args[2]?).getD (s.currentShape sc)) := by
      cases hthird : args[2]? with
      | none => exact currentShape hs sc
      | some element => exact hargs element (List.mem_of_getElem? hthird)
    exact withClauses hs ((hclauses.setProjection (by simp)).group hkey helement) rfl
  | join => exact projected
  | groupJoin => exact projected
  | explicitJoin method kind =>
    dsimp only [finish]
    split
    · exact .throwBefore (by simp)
    · exact projected
  | apply method kind => exact projected
  | selectMany =>
    dsimp only [finish]
    cases hthird : args[2]? with
    | some result => exact Upholds.pure (Regime.project hs (hargs result (List.mem_of_getElem? hthird)))
    | none => exact joined
  | childJoin kind condition result =>
    cases result with
    | some index => exact projected
    | none => exact joined
  | modify delete => exact absurd rfl (hstep delete)

end Step

end

end QueryLowering
