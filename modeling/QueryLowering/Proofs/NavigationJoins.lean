import QueryLowering.Proofs.Outlines
import QueryLowering.Proofs.RowEntities

/-!
# Joins of navigations

A navigation to one row is a join behind the data source that it starts from, and the same navigation from the same
row is joined once. The join keeps rows that lead nowhere if the navigation may do so, or if the row that it starts
from is joined in a way that may leave it out.

## Main results

* `toOne_joins`: the joins of navigations to one row in the selects of a statement.
* `hopFromMissing_kind`: a navigation from a row that a later join may leave out is joined as any other.
-/

namespace QueryLowering

open Sql Lower Result List
open DataSource (outline)

variable {c : Compiler} {e source : Expr} {sources : List DataSource} {h : History} {m n : Node} {t : Ticket}
variable {kind : JoinKind} {target : Table} {rs : List Recognizer} {schema : Schema} {name : String} {ty : Ty}
variable {chained : Bool} {index : Option Nat} {cx cx' : Context} {known : Registry} {d d' p : DataSource}
variable {tag : NavigationTag} {nav : Navigation} {i j : Nat} {parent a : Alias}

/-! ## The data sources of a statement -/

/-- What is registered in the end while an expression is compiled. -/
def Compiler.registry (c : Compiler) (e : Expr) : Registry :=
  match c.lowered e with
  | .ok e => ((e.lower c.recognizers >>= statementBody).exec c.schema .empty).2.scope.shapes
  | .error _ => []

/-- All data sources of a compiled statement fit. -/
theorem Compiler.every_allFit {s : Statement} (hs : c.statement e = .ok s) :
    s.Every (AllFit c.schema (c.registry e)) := by
  obtain ⟨e', b, he', hb, rfl⟩ := Compiler.statement_eq_ok hs
  obtain ⟨_, cx, hy, -, hcx, hbody⟩ := Compiler.upholds_body (R := c.schema.outlines) (w := ([] : Registry))
    (Q := fun known b => b.Every (AllFit c.schema known)) (fun hb hn => Body.every_of_body? hb hn) rfl rfl
    (fun _ _ _ _ _ _ => trivial) (c.schema.admits_outlines c.recognizers fun _ _ => True) trivial
    c.schema.upheld_outlines.fits hb
  have hregistry : c.registry e = cx.scope.shapes := by
    rw [Compiler.registry, Compiler.lowered, he']
    exact congrArg (fun r : Result Body × Context => r.2.scope.shapes) hy
  obtain rfl := hcx.fits.known
  rw [← hregistry] at hbody
  have hstatement : (⟨[], b⟩ : Statement).Every (AllFit c.schema (c.registry e)) := ⟨forall_mem_nil _, hbody⟩
  split
  · exact hstatement.hoist (keeps_withoutCtes keepsSources_withoutCtes)
  · exact hstatement

namespace Sql

/-- A data source was added for a navigation to one row. -/
structure DataSource.IsToOne (schema : Schema) (known : Registry) (d : DataSource) (tag : NavigationTag)
    (nav : Navigation) : Prop where
  joinedFor : d.navigation = some tag
  declared : schema.navigationOf? known tag = some nav
  one : nav.isToMany = false

theorem Fitting.fits (hfit : Fitting schema known (sources.map outline)) (hd : sources[i]? = some d) :
    d.outline.Fits schema known ((sources.take i).map outline) := by
  have hfits := hfit i d.outline (by rw [getElem?_map, hd]; rfl)
  rwa [← map_take] at hfits

theorem Fitting.follows (hfit : Fitting schema known (sources.map outline)) (hd : sources[i]? = some d)
    (hone : d.IsToOne schema known tag nav) : d.outline.Follows ((sources.take i).map outline) tag nav := by
  obtain ⟨nav', hnav', hfollows⟩ := (hfit.fits hd).navigated tag hone.joinedFor
  obtain rfl : nav = nav' := Option.mem_unique hone.declared hnav'
  exact hfollows

/-- What stands before a place. -/
theorem mem_take_of_lt (hd : sources[i]? = some d) (hij : i < j) : d ∈ sources.take j := by
  refine mem_of_getElem? (i := i) ?_
  rw [getElem?_take, if_pos hij]
  exact hd

section

variable (hfit : Fitting schema known (sources.map outline))

include hfit

/-- A navigation to one row is joined once. -/
theorem Fitting.index_eq (hd : sources[i]? = some d)
    (hd' : sources[j]? = some d') (hone : d.IsToOne schema known tag nav) (htag : d'.navigation = some tag) :
    i = j := by
  have hone' : d'.IsToOne schema known tag nav := ⟨htag, hone.declared, hone.one⟩
  rcases Nat.lt_trichotomy i j with hij | hij | hij
  · have hmem := mem_map_of_mem (f := outline) (mem_take_of_lt hd hij)
    exact absurd hone.joinedFor ((hfit.follows hd' hone').once hone.one d.outline hmem)
  · exact hij
  · have hmem := mem_map_of_mem (f := outline) (mem_take_of_lt hd' hij)
    exact absurd htag ((hfit.follows hd hone).once hone.one d'.outline hmem)

/-- A navigation stands behind the data source that it starts from. -/
theorem Fitting.exists_parent (hd : sources[i]? = some d) (hone : d.IsToOne schema known tag nav) :
    ∃ j p, j < i ∧ sources[j]? = some p ∧ p.name = tag.parent := by
  obtain ⟨o, ho, hname⟩ := (hfit.follows hd hone).parent
  obtain ⟨p, hp, rfl⟩ := mem_map.1 ho
  obtain ⟨j, hj⟩ := getElem?_of_mem hp
  rw [getElem?_take] at hj
  split at hj
  · next hij => exact ⟨j, p, hij, hj, hname⟩
  · cases hj

/-- How a navigation is joined depends on what it is declared as, and on the join of the row that it starts from. -/
theorem Fitting.joinKind?_eq (hgrown : h.Grown sources)
    (hd : sources[i]? = some d) (hone : d.IsToOne schema known tag nav) (hp : sources[j]? = some p)
    (hname : p.name = tag.parent) :
    d.joinKind? = some (if nav.cardinality = .toOneOptional ∨ p.joinKind?.any JoinKind.isOuter then .left
      else .inner) := by
  have hkind : d.joinKind? = some (if nav.cardinality = .toOneOptional ∨
      mayMiss ((sources.take i).map outline) tag.parent then .left else .inner) :=
    (hfit.follows hd hone).one hone.one
  obtain ⟨j', p', hj', hp', hname'⟩ := hfit.exists_parent hd hone
  obtain rfl : j = j' := hgrown.index_eq hp hp' (hname.trans hname'.symm)
  have hmem : p ∈ sources.take i := mem_take_of_lt hp hj'
  -- The first data source of the alias is the only one.
  obtain ⟨x, hx⟩ : ∃ x, (sources.take i).find? (·.name == tag.parent) = some x := by
    refine Option.isSome_iff_exists.1 (find?_isSome.2 ⟨p, hmem, ?_⟩)
    exact beq_iff_eq.2 hname
  obtain ⟨k, hk⟩ := getElem?_of_mem (mem_of_mem_take (mem_of_find?_eq_some hx))
  have hxname : x.name = tag.parent := by
    have hfound := find?_some hx
    exact beq_iff_eq.1 hfound
  obtain rfl : k = j := hgrown.index_eq hk hp (hxname.trans hname.symm)
  obtain rfl : x = p := Option.mem_unique hk hp
  have hmiss : mayMiss ((sources.take i).map outline) tag.parent = x.joinKind?.any JoinKind.isOuter := by
    rw [mayMiss, find?_map_outline, hx]
    rfl
  rw [hkind, hmiss]

end

end Sql

/-- A data source of a select was added for a navigation to one row that starts from another data source. -/
def Compiler.Hop (c : Compiler) (e : Expr) (sources : List DataSource) (p d : DataSource) : Prop :=
  p ∈ sources ∧ d ∈ sources ∧ ∃ tag nav, d.IsToOne c.schema (c.registry e) tag nav ∧ p.name = tag.parent

/-- Behind a row that may be missing, all rows of a chain of navigations may be missing. -/
theorem Compiler.left_of_hops
    (hfit : Fitting c.schema (c.registry e) (sources.map outline)) (hgrown : h.Grown sources)
    (houter : p.joinKind?.any JoinKind.isOuter = true)
    (hchain : Relation.TransGen (c.Hop e sources) p d) : d.joinKind? = some .left := by
  have hstep : ∀ p d, p.joinKind?.any JoinKind.isOuter = true → c.Hop e sources p d → d.joinKind? = some .left := by
    rintro p d hp ⟨hpmem, hdmem, tag, nav, hone, hname⟩
    obtain ⟨i, hi⟩ := getElem?_of_mem hdmem
    obtain ⟨j, hj⟩ := getElem?_of_mem hpmem
    rw [hfit.joinKind?_eq hgrown hi hone hj hname, if_pos (.inr hp)]
  induction hchain with
  | single hhop => exact hstep _ _ houter hhop
  | tail _ hhop ih =>
    refine hstep _ _ ?_ hhop
    rw [ih]
    rfl

/-! ## Navigations that are repeated -/

/-- The select that reads a row has the join of a navigation from it. -/
def Context.Joined (cx : Context) (tag : NavigationTag) (a : Alias) : Prop :=
  ∃ l, cx.owner? tag.parent = some l ∧ l.2.findNavigation? tag = some a

namespace Lower

theorem yields_navigationStart {start : Alias × String} (hy : Yields schema (navigationStart name m) cx start cx') :
    m = .source start.1 ∧ (∃ shape, cx.scope.shapes.lookup start.1 = some shape ∧ shape.entity? = some start.2) ∧
      cx = cx' := by
  unfold navigationStart at hy
  dsimp only at hy
  split at hy
  · next a =>
    simp only [yields_bind, yields_look] at hy
    obtain ⟨shape, mid, ⟨hshape, rfl⟩, hy⟩ := hy
    rw [Scope.shape, orThrow_eq_ok] at hshape
    split at hy
    · next entity hentity =>
      obtain ⟨rfl, rfl⟩ := yields_pure.1 hy
      exact ⟨rfl, ⟨shape, hshape, hentity⟩, rfl⟩
    · exact absurd hy not_yields_throw
  · exact absurd hy not_yields_throw

/-- A navigation starts from a row of an entity that declares it. -/
theorem exists_of_yields_navigate (hy : Yields schema (navigate name m) cx n cx') :
    ∃ parent nav table, m = .source parent ∧ schema.navigationOf? cx.scope.shapes ⟨parent, name⟩ = some nav ∧
      nav.name = name ∧ schema.table nav.target = .ok table ∧
      (nav.isToMany = false → Yields schema (navigateToOne parent nav ⟨nav.target, table⟩) cx n cx') := by
  obtain ⟨⟨parent, entity⟩, mid, hstart, hy⟩ := yields_bind.1 hy
  obtain ⟨rfl, ⟨shape, hshape, hentity⟩, rfl⟩ := yields_navigationStart hstart
  obtain ⟨nav, mid, hlook, hy⟩ := yields_bind.1 hy
  obtain ⟨hnav, rfl⟩ := yields_look.1 hlook
  obtain ⟨table, mid, hlook, hy⟩ := yields_bind.1 hy
  obtain ⟨htable, rfl⟩ := yields_look.1 hlook
  refine ⟨parent, nav, table, rfl, ?_, Schema.name_of_navigation hnav, htable, fun hone => ?_⟩
  · exact Schema.navigationOf?_eq_some.2 ⟨shape, entity, hshape, hentity, hnav⟩
  · rw [if_pos (by rw [hone]; rfl)] at hy
    exact hy

/-- A navigation to one row that has been joined leads to the data source that was joined, and nothing changes. -/
theorem yields_navigate_of_joined {table : TableName}
    (hnav : schema.navigationOf? cx.scope.shapes ⟨parent, name⟩ = some nav) (hone : nav.isToMany = false)
    (htable : schema.table nav.target = .ok table) (hjoined : cx.Joined ⟨parent, name⟩ a) :
    Yields schema (navigate name (.source parent)) cx (.source a) cx := by
  obtain ⟨shape, entity, hshape, hentity, hnav⟩ := Schema.navigationOf?_eq_some.1 hnav
  obtain ⟨l, howner, hfound⟩ := hjoined
  have hstart : Yields schema (navigationStart name (.source parent)) cx (parent, entity) cx := by
    refine yields_bind.2 ⟨shape, cx, yields_look.2 ⟨?_, rfl⟩, ?_⟩
    · rw [Scope.shape, orThrow_eq_ok]
      exact hshape
    · rw [hentity]
      exact yields_pure.2 ⟨rfl, rfl⟩
  have hlead : Yields schema (navigateToOne parent nav ⟨nav.target, table⟩) cx (.source a) cx := by
    refine yields_bind.2 ⟨l, cx, yields_navigationOwner.2 ⟨howner, rfl⟩, ?_⟩
    dsimp only
    rw [Schema.name_of_navigation hnav, hfound]
    exact yields_pure.2 ⟨rfl, rfl⟩
  refine yields_bind.2 ⟨(parent, entity), cx, hstart, yields_bind.2 ⟨nav, cx, yields_look.2 ⟨hnav, rfl⟩, ?_⟩⟩
  refine yields_bind.2 ⟨table, cx, yields_look.2 ⟨htable, rfl⟩, ?_⟩
  rw [if_pos (by rw [hone]; rfl)]
  exact hlead

/-- The select of a ticket stands in the place of another one that reads a row. -/
theorem find?_replaceIn {lent : List (Ticket × Select)} {s s' : Select}
    (hfound : (lent.find? fun l => l.2.owns parent) = some (t, s)) (howns : s'.owns parent = true) :
    ((Context.replaceIn t s' lent).find? fun l => l.2.owns parent) = some (t, s') := by
  induction lent with
  | nil => cases hfound
  | cons l rest ih =>
    obtain ⟨u, r⟩ := l
    rw [find?_cons] at hfound
    rw [Context.replaceIn_cons]
    by_cases hut : u = t
    · rw [if_pos hut, find?_cons, howns, hut]
    · rw [if_neg hut, find?_cons]
      split at hfound
      · exact absurd (Prod.mk.inj (Option.some.inj hfound)).1 hut
      · exact ih hfound

theorem yields_joinLent {r : Relation} {condition : Option Node}
    {navigation : Option NavigationTag} (hy : Yields schema (joinLent t r kind condition navigation) cx a cx') :
    ∃ s, cx.lent.lookup t = some s ∧
      cx'.lent = Context.replaceIn t (s.addSource ⟨a, r, some ⟨kind, condition⟩, navigation⟩) cx.lent := by
  simp only [joinLent, yields_bind, yields_lentQuery, yields_update, yields_setLent, yields_pure, Select.addJoin] at hy
  obtain ⟨s, _, ⟨hs, rfl⟩, ⟨b, joined⟩, _, ⟨hpair, rfl⟩, _, _, rfl, rfl, rfl⟩ := hy
  obtain ⟨rfl, rfl⟩ := Prod.mk.inj hpair
  exact ⟨s, hs, rfl⟩

theorem yields_setLentCondition {condition : Node} {u : Unit}
    (hy : Yields schema (setLentCondition t a condition) cx u cx') :
    ∃ s s', cx.lent.lookup t = some s ∧ s.setCondition a condition = .ok s' ∧
      cx'.lent = Context.replaceIn t s' cx.lent := by
  simp only [setLentCondition, yields_bind, yields_lentQuery, yields_ofResult, yields_setLent] at hy
  obtain ⟨s, _, ⟨hs, rfl⟩, s', _, ⟨hs', rfl⟩, rfl⟩ := hy
  exact ⟨s, s', hs, hs', rfl⟩

/-- The join of a navigation is found in the select that it was added to.

**Proof sketch.** The join is the last data source of the select, and setting its condition keeps the outlines. The
select takes the place of the one that reads the row, which is the only one of its ticket. -/
theorem joined_of_yields_joinNavigation {owner : Ticket × Select}
    (hnodup : (cx.lent.map (·.1)).Nodup) (howner : cx.owner? parent = some owner)
    (hnone : owner.2.findNavigation? ⟨parent, nav.name⟩ = none)
    (hy : Yields schema (joinNavigation owner.1 parent nav target kind) cx a cx') :
    cx'.Joined ⟨parent, nav.name⟩ a := by
  obtain ⟨t, s⟩ := owner
  simp only [joinNavigation, yields_bind, yields_look, yields_pure] at hy
  obtain ⟨b, mid, hjoin, condition, _, ⟨-, rfl⟩, _, _, hset, rfl, rfl⟩ := hy
  obtain ⟨s₁, hs₁, hmid⟩ := yields_joinLent hjoin
  obtain ⟨s₂, s₃, hs₂, hs₃, hafter⟩ := yields_setLentCondition hset
  -- The select of the ticket is the one that reads the row, and then the one with the join.
  obtain rfl : s = s₁ :=
    Option.some.inj ((Context.lookup_of_mem hnodup (mem_of_find?_eq_some howner)).symm.trans hs₁)
  rw [hmid, Context.lookup_replaceIn hs₁] at hs₂
  obtain rfl := Option.some.inj hs₂
  rw [hmid, Context.replaceIn_replaceIn] at hafter
  have houtlines : s₃.sources.map outline = s.sources.map outline ++
      [⟨b, some target, some kind, some ⟨parent, nav.name⟩⟩] := by
    rw [outlines_setCondition hs₃, Select.addSource, map_append]
    rfl
  have howns : s.owns parent = true := by
    have hfound := find?_some howner
    exact hfound
  refine ⟨(t, s₃), ?_, ?_⟩
  · rw [Context.owner?, hafter]
    refine find?_replaceIn howner ?_
    rw [Select.owns_eq_outlines, houtlines, any_append, ← Select.owns_eq_outlines, howns, Bool.true_or]
  · rw [Select.findNavigation?_eq_outlines, Option.map_eq_none_iff] at hnone
    rw [Select.findNavigation?_eq_outlines, houtlines, find?_append, hnone]
    simp

theorem joined_of_yields_navigateToOne (hnodup : (cx.lent.map (·.1)).Nodup)
    (hy : Yields schema (navigateToOne parent nav target) cx n cx') :
    ∃ a, n = .source a ∧ cx'.Joined ⟨parent, nav.name⟩ a := by
  obtain ⟨owner, mid, howner, hy⟩ := yields_bind.1 hy
  obtain ⟨hfound, rfl⟩ := yields_navigationOwner.1 howner
  dsimp only at hy
  split at hy
  · next a ha =>
    obtain ⟨rfl, rfl⟩ := yields_pure.1 hy
    exact ⟨a, rfl, owner, hfound, ha⟩
  · next hnone =>
    obtain ⟨a, mid, hjoin, hy⟩ := yields_bind.1 hy
    obtain ⟨rfl, rfl⟩ := yields_pure.1 hy
    exact ⟨a, rfl, joined_of_yields_joinNavigation hnodup hfound hnone hjoin⟩

end Lower

/-- A navigation takes the value of its source, and leads on from there. -/
theorem Expr.yields_visit_navigation (hrule : rs.findSome? (·.rule? (.navigation source name ty)) = some .navigation)
    (hy : Yields schema ((Expr.navigation source name ty).visit rs chained index) cx n cx') :
    ∃ p m mid after, Yields schema (lowerPart .navigation {} 0 source (source.visit rs))
        { cx with frames := ⟨"Navigation", (Expr.navigation source name ty).kindName, index⟩ :: cx.frames }
        (p, m) mid ∧
      Yields schema (navigate name m) mid n after ∧ cx' = { after with frames := cx.frames } := by
  obtain ⟨after, hlowered, rfl⟩ := (yields_visit_iff hrule).1 hy
  simp only [lowerBy, Expr.children, map_cons, map_nil, zip_cons_cons, zip_nil_right, lowerParts,
    Rule.producesQuery, Bool.false_and, Bool.false_eq_true, if_false, Rule.finish, yields_bind, yields_pure] at hlowered
  obtain ⟨_, mid, ⟨⟨p, m⟩, _, hsource, _, _, ⟨rfl, rfl⟩, rfl, rfl⟩, _, _, ⟨m', _, hpart, hnavigate⟩, rfl, rfl⟩ :=
    hlowered
  obtain ⟨hfirst, rfl⟩ := yields_orThrow.1 hpart
  obtain rfl : m = m' := Option.some.inj hfirst
  exact ⟨p, m, _, _, hsource, hnavigate, rfl⟩

/-- Wherever a navigation to one row has been lowered, the select that reads the row has its join. -/
theorem Expr.Reaches.joined (hreaches : e.Reaches rs schema .empty (.navigation source name ty) cx)
    (hrule : rs.findSome? (·.rule? (.navigation source name ty)) = some .navigation)
    (hy : Yields schema ((Expr.navigation source name ty).visit rs chained index) cx n cx') :
    ∃ p parent mid nav table, Yields schema (lowerPart .navigation {} 0 source (source.visit rs))
        { cx with frames := ⟨"Navigation", (Expr.navigation source name ty).kindName, index⟩ :: cx.frames }
        (p, .source parent) mid ∧
      schema.navigationOf? cx'.scope.shapes ⟨parent, name⟩ = some nav ∧ schema.table nav.target = .ok table ∧
      (nav.isToMany = false → ∃ a, n = .source a ∧ cx'.Joined ⟨parent, name⟩ a) := by
  have hmodify := schema.admits_outlines rs fun _ _ => True
  obtain ⟨known, hcx⟩ := Expr.Reaches.upheld hmodify hreaches schema.upheld_outlines
  obtain ⟨p, m, mid, after, hsource, hnavigate, rfl⟩ := Expr.yields_visit_navigation hrule hy
  obtain ⟨-, -, known', _, -, hmid, rfl, -, hm⟩ := (runs_lowerPart (.refl .navigation) (.start _ known _) (fun _ => rfl) rfl
    fun _ _ _ _ => source.visit_upholds (fun _ _ _ _ _ _ => trivial) hmodify trivial _ _ _).of_yields
      (hcx.withFrames _) (SamePlace.refl _ _) hsource
  obtain ⟨-, -, known'', _, hgrows, hafter, -⟩ :=
    (upholds_navigate (F := fun f f' => f = f') (fun _ _ => congrArg _) hm).of_yields hmid rfl hnavigate
  obtain rfl := hmid.fits.known
  obtain rfl := hafter.fits.known
  obtain ⟨parent, nav, table, rfl, hnav, rfl, htable, hone⟩ := exists_of_yields_navigate hnavigate
  refine ⟨p, parent, mid, nav, table, hsource, Schema.navigationOf?_mono hgrows hnav, htable, fun hsingle => ?_⟩
  have hjoined := joined_of_yields_navigateToOne (hmid.stack trivial).1 (hone hsingle)
  exact hjoined

/-! ## The joins of a statement -/

/-- The data sources of a select keep to the rules of navigations. -/
structure Compiler.NavigatesWell (c : Compiler) (e : Expr) (sources : List DataSource) : Prop where
  /-- A table is registered with its entity. -/
  registered : ∀ d ∈ sources, ∀ t, d.relation = .table t → (c.registry e).lookup d.name = some (.entity t.entity)
  /-- A data source that was added for a navigation reads the table that the navigation leads to. -/
  declared : ∀ d ∈ sources, ∀ tag, d.navigation = some tag → ∃ nav t,
    c.schema.navigationOf? (c.registry e) tag = some nav ∧ d.relation = .table t ∧ t.entity = nav.target
  /-- A navigation to one row is joined once. -/
  once : ∀ (i j : Nat) (d d' : DataSource) (tag : NavigationTag) (nav : Navigation),
    sources[i]? = some d → sources[j]? = some d' → d.IsToOne c.schema (c.registry e) tag nav →
      d'.navigation = some tag → i = j
  /-- It stands behind the one data source that it starts from, and rows that lead nowhere are kept exactly if the
  navigation may do so or the row that it starts from may be missing. -/
  joined : ∀ (i : Nat) (d : DataSource) (tag : NavigationTag) (nav : Navigation), sources[i]? = some d →
    d.IsToOne c.schema (c.registry e) tag nav → ∃ (j : Nat) (p : DataSource),
      j < i ∧ sources[j]? = some p ∧ p.name = tag.parent ∧ (∀ k x, sources[k]? = some x → x.name = tag.parent → k = j) ∧
      (d.joinKind? = some .left ↔ nav.cardinality = .toOneOptional ∨ p.joinKind?.any JoinKind.isOuter = true) ∧
      (d.joinKind? ≠ some .left → d.joinKind? = some .inner)
  /-- Behind a join that may leave out rows, all joins of a chain of navigations keep rows. -/
  chain : ∀ p d : DataSource, p.joinKind?.any JoinKind.isOuter = true → Relation.TransGen (c.Hop e sources) p d →
    d.joinKind? = some .left

theorem Compiler.navigatesWell
    (hfit : Fitting c.schema (c.registry e) (sources.map outline)) (hgrown : h.Grown sources) :
    c.NavigatesWell e sources where
  registered d hd t ht := hfit.registered_table hd ht
  declared d hd tag htag := by
    obtain ⟨i, hi⟩ := getElem?_of_mem hd
    obtain ⟨nav, hnav, hfollows⟩ := (hfit.fits hi).navigated tag htag
    obtain ⟨t, ht, htarget⟩ := hfollows.target
    refine ⟨nav, t, hnav, ?_, htarget⟩
    cases hr : d.relation with
    | table t' =>
      rw [outline, hr] at ht
      obtain rfl := Option.some.inj ht
      rfl
    | derived | union | cte =>
      rw [outline, hr] at ht
      cases ht
  once i j d d' tag nav hd hd' hone htag := hfit.index_eq hd hd' hone htag
  joined i d tag nav hd hone := by
    obtain ⟨j, p, hji, hp, hname⟩ := hfit.exists_parent hd hone
    have hkind := hfit.joinKind?_eq hgrown hd hone hp hname
    refine ⟨j, p, hji, hp, hname, fun k x hx hxname => hgrown.index_eq hx hp (hxname.trans hname.symm), ?_, ?_⟩
    · rw [hkind]
      split
      · next hleft => exact iff_of_true rfl hleft
      · next hinner => exact iff_of_false (by simp) hinner
    · intro hne
      rw [hkind] at hne ⊢
      split at hne
      · exact absurd rfl hne
      · next hinner => rw [if_neg hinner]
  chain p d hp hchain := Compiler.left_of_hops hfit hgrown hp hchain

/-- In every select of a compiled statement, a navigation to one row is joined once, behind the data source that it
starts from: with `left` exactly if it is declared optional or its start is joined with an outer kind, and with `inner`
otherwise. So behind a `left` join all joins of a chain are `left`. Where a navigation has been lowered, the select
that reads the row has the join, and wherever that is so the navigation has the row of this join and adds nothing.

**Proof sketch.** A join is only added for a navigation that the owner of the row does not have, and with the kind that
the owner's data sources give. Nothing else changes the kinds and the order of the data sources of a select: not the
condition that is set, not what is put in the place of a query that is read, not a common table expression that is
moved. Aliases are handed out once, so that the start of a navigation is the only data source of its alias. -/
theorem toOne_joins (c : Compiler) (e : Expr) (s : Statement) (hs : c.statement e = .ok s) :
    (∀ b : Block, s.Contains b → c.NavigatesWell e b.select.sources) ∧
    ∀ e', c.lowered e = .ok e' → ∀ source name ty cx, e'.Reaches c.recognizers c.schema .empty
        (.navigation source name ty) cx →
      c.recognizers.findSome? (·.rule? (.navigation source name ty)) = some .navigation → ∀ chained index n cx',
        Yields c.schema ((Expr.navigation source name ty).visit c.recognizers chained index) cx n cx' →
        ∃ p parent mid nav, Yields c.schema (lowerPart .navigation {} 0 source (source.visit c.recognizers))
            { cx with frames := ⟨"Navigation", (Expr.navigation source name ty).kindName, index⟩ :: cx.frames }
            (p, .source parent) mid ∧
          c.schema.navigationOf? cx'.scope.shapes ⟨parent, name⟩ = some nav ∧
          (nav.isToMany = false → (∃ a, n = .source a ∧ cx'.Joined ⟨parent, name⟩ a) ∧
            ∀ later a, c.schema.navigationOf? later.scope.shapes ⟨parent, name⟩ = some nav →
              later.Joined ⟨parent, name⟩ a →
                Yields c.schema (navigate name (.source parent)) later (.source a) later) := by
  obtain ⟨h, hevery⟩ := Compiler.exists_history hs
  refine ⟨fun b hb => ?_, ?_⟩
  · exact Compiler.navigatesWell ((Compiler.every_allFit hs).contains hb).select.own (hevery.contains hb).select.own
  · intro e' _ source name ty cx hreaches hrule chained index n cx' hy
    obtain ⟨p, parent, mid, nav, table, hsource, hnav, htable, hjoined⟩ := hreaches.joined hrule hy
    refine ⟨p, parent, mid, nav, hsource, hnav, fun hone => ⟨hjoined hone, fun later a hlater hfound => ?_⟩⟩
    exact yields_navigate_of_joined hlater hone htable hfound

namespace Sample

/-- The names of employees with the city of their department, for the departments that are not in Paris. -/
def cities : Expr :=
  let department (x : Expr) : Expr := .navigation x "NavDepartment" (.entity "Department")
  let city (x : Expr) : Expr :=
    Expr.memberOf (.navigation (department x) "NavLocation" (.entity "Location")) "City" .string
  (((Query.ofEntity "Employee").filter "x" fun x => .binaryOf .notEqual (city x) (.constantOf (.string "Paris"))).select
    "x" .anonymous fun x => .construct .anonymous [("Name", x.memberOf "Name" .string), ("City", city x)]).expr

theorem exists_sources_cities : ∃ s x d l, staffCompiler.statement cities = .ok s ∧
    s.body.block.select.sources = [x, d, l] ∧ d.name = ⟨2⟩ ∧ d.joinKind? = some .left ∧
    l.IsToOne staffCompiler.schema (staffCompiler.registry cities) ⟨⟨2⟩, "NavLocation"⟩
      (navigation "NavLocation" "Location" .toOneRequired "LocationId" "LocationId") := by
  obtain ⟨s, hs, h⟩ : ∃ s, staffCompiler.statement cities = .ok s ∧
      (s.body.block.select.sources.map fun d => (d.name, d.joinKind?, d.navigation)) =
        [(⟨1⟩, none, none), (⟨2⟩, some .left, some ⟨⟨1⟩, "NavDepartment"⟩),
          (⟨3⟩, some .left, some ⟨⟨2⟩, "NavLocation"⟩)] := exists_ok (by decide +kernel)
  have hnav : staffCompiler.schema.navigationOf? (staffCompiler.registry cities) ⟨⟨2⟩, "NavLocation"⟩ =
      some (navigation "NavLocation" "Location" .toOneRequired "LocationId" "LocationId") := by
    decide +kernel
  obtain ⟨x, rest, hsources, -, hrest⟩ := map_eq_cons_iff.1 h
  obtain ⟨d, rest, rfl, hd, hrest⟩ := map_eq_cons_iff.1 hrest
  obtain ⟨l, rest, rfl, hl, hrest⟩ := map_eq_cons_iff.1 hrest
  obtain rfl := map_eq_nil_iff.1 hrest
  simp only [Prod.mk.injEq] at hd hl
  exact ⟨s, x, d, l, hs, hsources, hd.1, hd.2.1, hl.2.2, hnav, rfl⟩

/-- Every department has a location, and yet employees without a department are kept: the join with their locations
is behind a `left` join. -/
theorem cities_keeps_employees : ∃ s x d l, staffCompiler.statement cities = .ok s ∧
    s.body.block.select.sources = [x, d, l] ∧ l.navigation = some ⟨d.name, "NavLocation"⟩ ∧
    l.joinKind? = some .left := by
  obtain ⟨s, x, d, l, hs, hsources, hname, hkind, hone⟩ := exists_sources_cities
  have hwell := (toOne_joins staffCompiler cities s hs).1 _ .body
  rw [hsources] at hwell
  refine ⟨s, x, d, l, hs, hsources, hname ▸ hone.joinedFor, hwell.chain d l ?_ (.single ?_)⟩
  · rw [hkind]
    rfl
  · exact ⟨by simp, by simp, _, _, hone, hname⟩

end Sample

/-! ## Navigations behind rows that are kept -/

/-- A navigation to one row stands behind a join that keeps all rows of what it adds, while the data source that the
navigation starts from stands before this join: its row is missing beside the rows that are kept. -/
def Compiler.HopFromMissing (c : Compiler) (e : Expr) (sources : List DataSource) (p d : DataSource)
    (nav : Navigation) : Prop := ∃ (j k i : Nat) (x : DataSource) (tag : NavigationTag), j < k ∧ k < i ∧
    sources[j]? = some p ∧ sources[k]? = some x ∧ sources[i]? = some d ∧
    (x.joinKind? = some .right ∨ x.joinKind? = some .fullOuter) ∧
    d.IsToOne c.schema (c.registry e) tag nav ∧ p.name = tag.parent

/-- A navigation that starts from a row that a right or full outer join may leave out is joined as any other: with
`left` if it is declared optional or its start itself is joined with an outer kind, and with `inner` otherwise, which
drops the rows that the right or full outer join keeps. So all of them keep these rows exactly if none of them is a
navigation to a required row from a start that is not joined with an outer kind. -/
theorem hopFromMissing_kind (c : Compiler) (e : Expr) (s : Statement) (hs : c.statement e = .ok s) :
    (∀ b : Block, s.Contains b → ∀ p d nav, c.HopFromMissing e b.select.sources p d nav →
      d.joinKind? = some (if nav.cardinality = .toOneOptional ∨ p.joinKind?.any JoinKind.isOuter then .left
        else .inner)) ∧
    ((∀ b : Block, s.Contains b → ∀ p d nav, c.HopFromMissing e b.select.sources p d nav → d.joinKind? = some .left) ↔
      ∀ b : Block, s.Contains b → ∀ p d nav, c.HopFromMissing e b.select.sources p d nav →
        nav.cardinality = .toOneOptional ∨ p.joinKind?.any JoinKind.isOuter = true) := by
  obtain ⟨h, hevery⟩ := Compiler.exists_history hs
  have hkind : ∀ b : Block, s.Contains b → ∀ p d nav, c.HopFromMissing e b.select.sources p d nav →
      d.joinKind? = some (if nav.cardinality = .toOneOptional ∨ p.joinKind?.any JoinKind.isOuter then .left
        else .inner) := by
    rintro b hb p d nav ⟨j, k, i, x, tag, -, -, hp, -, hd, -, hone, hname⟩
    have hfit := ((Compiler.every_allFit hs).contains hb).select.own
    exact Fitting.joinKind?_eq hfit (hevery.contains hb).select.own hd hone hp hname
  refine ⟨hkind, fun hleft b hb p d nav hhop => ?_, fun houter b hb p d nav hhop => ?_⟩
  · by_contra hinner
    have hboth := hleft b hb p d nav hhop
    rw [hkind b hb p d nav hhop, if_neg hinner] at hboth
    cases hboth
  · rw [hkind b hb p d nav hhop, if_pos (houter b hb p d nav hhop)]

namespace Sample

/-- A compiler that knows employees and their degrees. -/
def degreeCompiler : Compiler := { schema := ⟨[employee.toEntity, employeeDegree.toEntity]⟩, options := {} }

/-- All employees with the holders of their degrees: an employee without a degree has no holder. -/
def holders : Expr :=
  let holder (n : Expr) : Expr := .navigation (n.memberOf "D" .unknown) "NavEmployee" (.entity "Employee")
  (((Query.ofEntity "EmployeeDegree").explicitJoin "RightJoin" (Query.ofEntity "Employee") .anonymous
      (fun d e => .construct .anonymous [("D", d), ("E", e)]) fun n => .binaryOf .equal
        ((n.memberOf "D" .unknown).memberOf "EmployeeId" .int)
        ((n.memberOf "E" .unknown).memberOf "EmployeeId" .int)).select
    "n" .anonymous fun n => .construct .anonymous [("Name", (n.memberOf "E" .unknown).memberOf "Name" .string),
      ("Holder", (holder n).memberOf "Name" .string)]).expr

theorem exists_hop_holders : ∃ s p d, degreeCompiler.statement holders = .ok s ∧ p.joinKind? = none ∧
    degreeCompiler.HopFromMissing holders s.body.block.select.sources p d
      (navigation "NavEmployee" "Employee" .toOneRequired "EmployeeId" "EmployeeId") := by
  obtain ⟨s, hs, h⟩ : ∃ s, degreeCompiler.statement holders = .ok s ∧
      (s.body.block.select.sources.map fun d => (d.name, d.joinKind?, d.navigation)) =
        [(⟨1⟩, none, none), (⟨2⟩, some .right, none), (⟨3⟩, some .inner, some ⟨⟨1⟩, "NavEmployee"⟩)] :=
    exists_ok (by decide +kernel)
  have hnav : degreeCompiler.schema.navigationOf? (degreeCompiler.registry holders) ⟨⟨1⟩, "NavEmployee"⟩ =
      some (navigation "NavEmployee" "Employee" .toOneRequired "EmployeeId" "EmployeeId") := by
    decide +kernel
  obtain ⟨p, rest, hsources, hp, hrest⟩ := map_eq_cons_iff.1 h
  obtain ⟨x, rest, rfl, hx, hrest⟩ := map_eq_cons_iff.1 hrest
  obtain ⟨d, rest, rfl, hd, hrest⟩ := map_eq_cons_iff.1 hrest
  obtain rfl := map_eq_nil_iff.1 hrest
  simp only [Prod.mk.injEq] at hp hx hd
  refine ⟨s, p, d, hs, hp.2.1, 0, 1, 2, x, ⟨⟨1⟩, "NavEmployee"⟩, by decide, by decide, ?_⟩
  rw [hsources]
  exact ⟨rfl, rfl, rfl, .inl hx.2.1, ⟨hd.2.2, hnav, rfl⟩, hp.1⟩

/-- An employee without a degree is kept by the right join, and dropped by the join with the holder. -/
theorem holders_drops_employees : ∃ s, degreeCompiler.statement holders = .ok s ∧
    (¬ ∀ b : Block, s.Contains b → ∀ p d nav, degreeCompiler.HopFromMissing holders b.select.sources p d nav →
      d.joinKind? = some .left) ∧
    ∃ b p d nav, s.Contains b ∧ degreeCompiler.HopFromMissing holders b.select.sources p d nav ∧
      d.joinKind? = some .inner := by
  obtain ⟨s, p, d, hs, hp, hhop⟩ := exists_hop_holders
  have hkind := (hopFromMissing_kind degreeCompiler holders s hs).1 _ .body p d _ hhop
  have hinner : d.joinKind? = some .inner := by
    rw [hkind, hp]
    rfl
  refine ⟨s, hs, fun hleft => ?_, _, p, d, _, .body, hhop, hinner⟩
  rw [hleft _ .body p d _ hhop] at hinner
  cases hinner

end Sample

end QueryLowering
