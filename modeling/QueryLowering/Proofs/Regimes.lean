import QueryLowering.Proofs.Values
import QueryLowering.Proofs.Run

/-!
# Conditions that the lowering keeps

Some facts about a value hang on what has happened before: a whole row is of a data source that is registered, an
alias was handed out. Such a condition comes with a record of what is known, which only grows. What was true stays
true, and every way in which the lowering makes a query keeps the condition. What the ways are is said once here, and
a condition that goes along with them holds of everything that a lowering makes.

A navigation is the only step that changes a select from outside. It looks for the select that reads the row it
starts from, and then changes the select of a ticket. These are the same select if no two lent selects have the same
ticket.
-/

namespace QueryLowering

open Sql Result List

variable {a : Alias} {s s' : Select} {lent b c : List (Ticket × Select)} {cx : Context} {condition : Node} {sc : Scope}
variable {d : DataSource} {l : List DataSource}

/-! ## Data sources that are added -/

/-- A select was changed by nothing but navigations that were added to it. -/
def Sql.Select.GrownTo (s s' : Select) : Prop :=
  ∃ more, s' = { s with sources := s.sources ++ more } ∧ ∀ d ∈ more, d.navigation.isSome

/-- The same selects are lent as before, and at most navigations were added to them. -/
def Navigated : List (Ticket × Select) → List (Ticket × Select) → Prop :=
  List.Forall₂ fun x y => x.1 = y.1 ∧ x.2.GrownTo y.2

namespace Sql.Select.GrownTo

theorem refl (s : Select) : s.GrownTo s := ⟨[], by cases s; simp, forall_mem_nil _⟩

theorem trans {t u : Select} (hst : s.GrownTo t) (htu : t.GrownTo u) : s.GrownTo u := by
  obtain ⟨more, rfl, hmore⟩ := hst
  obtain ⟨further, rfl, hfurther⟩ := htu
  exact ⟨more ++ further, by simp, forall_mem_append.2 ⟨hmore, hfurther⟩⟩

end Sql.Select.GrownTo

namespace Navigated

theorem refl (lent : List (Ticket × Select)) : Navigated lent lent := forall₂_same.2 fun _ _ => ⟨rfl, .refl _⟩

theorem trans {a : List (Ticket × Select)} (hab : Navigated a b) (hbc : Navigated b c) : Navigated a c := by
  induction hab generalizing c with
  | nil => exact hbc
  | cons hxy _ ih =>
    obtain ⟨z, rest, hyz, hrest, rfl⟩ := forall₂_cons_left_iff.1 hbc
    exact .cons ⟨hxy.1.trans hyz.1, hxy.2.trans hyz.2⟩ (ih hrest)

end Navigated

/-- A data source that is no navigation, with nothing but navigations behind it. -/
def JoinedLast (l : List DataSource) (a : Alias) : Prop :=
  ∃ (i : Nat) (d : DataSource), l[i]? = some d ∧ d.name = a ∧ d.navigation = none ∧
    ∀ (m : Nat) (x : DataSource), i < m → l[m]? = some x → x.navigation.isSome

theorem JoinedLast.append {more : List DataSource} (hl : JoinedLast l a)
    (hmore : ∀ d ∈ more, d.navigation.isSome) : JoinedLast (l ++ more) a := by
  obtain ⟨i, d, hd, hname, hplain, hnav⟩ := hl
  obtain ⟨hi, -⟩ := List.getElem?_eq_some_iff.1 hd
  refine ⟨i, d, by rw [List.getElem?_append_left hi, hd], hname, hplain, fun m x him hx => ?_⟩
  by_cases hm : m < l.length
  · rw [List.getElem?_append_left hm] at hx
    exact hnav m x him hx
  · rw [getElem?_append_right (by omega)] at hx
    exact hmore x (mem_of_getElem? hx)

theorem joinedLast_concat (hd : d.navigation = none) : JoinedLast (l ++ [d]) d.name := by
  refine ⟨l.length, d, List.getElem?_concat_length .., rfl, hd, fun m x hm hx => ?_⟩
  obtain ⟨hm', -⟩ := List.getElem?_eq_some_iff.1 hx
  rw [List.length_append, List.length_singleton] at hm'
  omega

/-- Another join of a data source changes nothing. -/
theorem JoinedLast.set (hl : JoinedLast l a) {i : Nat}
    (hd : l[i]? = some d) (join : Option Join) : JoinedLast (l.set i { d with join }) a := by
  have same : ∀ {m : Nat} {x : DataSource}, l[m]? = some x → ∃ y, (l.set i { d with join })[m]? = some y ∧
      y.name = x.name ∧ y.navigation = x.navigation := by
    intro m x hx
    rw [getElem?_set]
    split
    · next him =>
      subst him
      obtain rfl := Option.mem_unique hd hx
      rw [if_pos (List.getElem?_eq_some_iff.1 hd).1]
      exact ⟨_, rfl, rfl, rfl⟩
    · exact ⟨x, hx, rfl, rfl⟩
  obtain ⟨j, x, hx, hname, hplain, hnav⟩ := hl
  obtain ⟨y, hy, hname', hplain'⟩ := same hx
  refine ⟨j, y, hy, hname'.trans hname, hplain'.trans hplain, fun m z hjm hz => ?_⟩
  have hm : m < l.length := by
    obtain ⟨hm, -⟩ := List.getElem?_eq_some_iff.1 hz
    rwa [List.length_set] at hm
  obtain ⟨z', hz', -, hnavz⟩ := same (List.getElem?_eq_getElem hm)
  obtain rfl := Option.mem_unique hz hz'
  exact hnavz ▸ hnav m _ hjm (List.getElem?_eq_getElem hm)

/-- The first data source of an alias gets the condition. -/
theorem Sql.Select.setConditionIn_eq_ok {l' : List DataSource} (hl : setConditionIn a condition l = .ok l') :
    ∃ (i : Nat) (d : DataSource) (j : Join), l[i]? = some d ∧ d.name = a ∧ d.join = some j ∧
      l' = l.set i { d with join := some { j with condition := some condition } } := by
  induction l generalizing l' with
  | nil => exact absurd hl breach_ne_ok
  | cons d rest ih =>
    rw [setConditionIn] at hl
    split at hl
    · next hname =>
      split at hl
      · exact absurd hl breach_ne_ok
      · next j hjoin =>
        rw [pure_eq_ok] at hl
        exact ⟨0, d, j, rfl, beq_iff_eq.1 hname, hjoin, hl.symm⟩
    · simp only [bind_eq_ok, pure_eq_ok] at hl
      obtain ⟨rest', hrest, rfl⟩ := hl
      obtain ⟨i, x, j, hx, hname, hjoin, rfl⟩ := ih hrest
      exact ⟨i + 1, x, j, hx, hname, hjoin, rfl⟩

theorem Sql.Select.setCondition_eq_ok {t : Select}
    (h : s.setCondition a condition = .ok t) : ∃ (i : Nat) (d : DataSource) (j : Join), s.sources[i]? = some d ∧
      d.name = a ∧ d.join = some j ∧
      t = { s with sources := s.sources.set i { d with join := some { j with condition := some condition } } } := by
  simp only [Select.setCondition, bind_eq_ok, pure_eq_ok] at h
  obtain ⟨l, hl, rfl⟩ := h
  obtain ⟨i, d, j, hd, hname, hjoin, rfl⟩ := setConditionIn_eq_ok hl
  exact ⟨i, d, j, hd, hname, hjoin, rfl⟩

/-- What holds of data sources whatever the conditions of their joins are holds after one is given. -/
theorem Sql.Select.exists_sources_of_setCondition {P : DataSource → Prop} {t : Select}
    (h : s.setCondition a condition = .ok t) (hs : ∀ d ∈ s.sources, P d)
    (hP : ∀ d (j : Join), P d → P { d with join := some { j with condition := some condition } }) :
    ∃ sources, t = { s with sources := sources } ∧ ∀ d ∈ sources, P d := by
  obtain ⟨i, d, j, hd, -, -, rfl⟩ := setCondition_eq_ok h
  refine ⟨_, rfl, fun x hx => ?_⟩
  rcases mem_or_eq_of_mem_set hx with hx | rfl
  · exact hs x hx
  · exact hP d j (hs d (mem_of_getElem? hd))

/-- A data source whose join can be given a condition: nothing but navigations follows it, and nothing if it is one
itself. -/
def Conditionable (l : List DataSource) (a : Alias) : Prop :=
  ∃ (i : Nat) (d : DataSource), l[i]? = some d ∧ d.name = a ∧ (d.navigation = none ∨ i + 1 = l.length) ∧
    ∀ (m : Nat) (x : DataSource), i < m → l[m]? = some x → x.navigation.isSome

theorem JoinedLast.conditionable (h : JoinedLast l a) : Conditionable l a := by
  obtain ⟨i, d, hd, hname, hplain, hnav⟩ := h
  exact ⟨i, d, hd, hname, .inl hplain, hnav⟩

theorem conditionable_concat : Conditionable (l ++ [d]) d.name := by
  refine ⟨l.length, d, List.getElem?_concat_length .., rfl, .inr (by simp), fun m x hm hx => ?_⟩
  obtain ⟨hm', -⟩ := List.getElem?_eq_some_iff.1 hx
  rw [List.length_append, List.length_singleton] at hm'
  omega

/-! ## Replacing lent selects -/

namespace Context

variable {t : Ticket}

theorem replaceIn_cons (l : Ticket × Select) :
    replaceIn t s (l :: lent) = if l.1 = t then (l.1, s) :: lent else l :: replaceIn t s lent := rfl

theorem lookup_replaceIn (hs : lent.lookup t = some s) : (replaceIn t s' lent).lookup t = some s' := by
  induction lent with
  | nil => cases hs
  | cons l rest ih =>
    obtain ⟨u, r⟩ := l
    by_cases hu : u = t
    · simp [replaceIn_cons, hu]
    · have hne : (t == u) = false := beq_eq_false_iff_ne.2 (Ne.symm hu)
      rw [lookup_cons, hne] at hs
      rw [replaceIn_cons, if_neg hu, lookup_cons, hne]
      exact ih hs

theorem replaceIn_replaceIn {s'' : Select} : replaceIn t s'' (replaceIn t s' lent) = replaceIn t s'' lent := by
  induction lent with
  | nil => rfl
  | cons l rest ih =>
    by_cases hu : l.1 = t
    · simp [replaceIn_cons, hu]
    · simp [replaceIn_cons, hu, ih]

theorem map_replaceIn (t : Ticket) (s : Select) (lent : List (Ticket × Select)) :
    (replaceIn t s lent).map (·.1) = lent.map (·.1) := by
  induction lent with
  | nil => rfl
  | cons l rest ih =>
    rw [replaceIn_cons]
    split
    · rfl
    · rw [map_cons, ih, map_cons]

theorem forall_mem_replaceIn {P : Ticket × Select → Prop} (hP : ∀ l ∈ lent, P l) (hs : ∀ l ∈ lent, P (l.1, s')) :
    ∀ l ∈ replaceIn t s' lent, P l := by
  induction lent with
  | nil => exact forall_mem_nil _
  | cons l rest ih =>
    rw [forall_mem_cons] at hP hs
    rw [replaceIn_cons]
    split
    · exact forall_mem_cons.2 ⟨hs.1, hP.2⟩
    · exact forall_mem_cons.2 ⟨hP.1, ih hP.2 hs.2⟩

/-- The select of a ticket, if no two lent selects have the same one. -/
theorem lookup_of_mem (hnodup : (lent.map (·.1)).Nodup) (hs : (t, s) ∈ lent) : lent.lookup t = some s := by
  obtain ⟨before, after, rfl⟩ := append_of_mem hs
  refine lookup_eq_some_iff.2 ⟨before, after, rfl, fun l hl => ?_⟩
  rw [map_append, map_cons, nodup_append] at hnodup
  exact bne_iff_ne.2 fun heq => hnodup.2.2 l.1 (mem_map_of_mem hl) t mem_cons_self heq.symm

end Context

/-- Adding navigations to one lent select. -/
theorem Navigated.replaceIn {t : Ticket}
    (hs : lent.lookup t = some s) (hs' : s.GrownTo s') : Navigated lent (Context.replaceIn t s' lent) := by
  induction lent with
  | nil => cases hs
  | cons l rest ih =>
    obtain ⟨u, r⟩ := l
    by_cases hu : u = t
    · subst hu
      rw [lookup_cons_self, Option.some.injEq] at hs
      subst hs
      rw [Context.replaceIn_cons, if_pos rfl]
      exact .cons ⟨rfl, hs'⟩ (Navigated.refl rest)
    · rw [lookup_cons, beq_eq_false_iff_ne.2 (Ne.symm hu)] at hs
      rw [Context.replaceIn_cons, if_neg hu]
      exact .cons ⟨rfl, .refl _⟩ (ih hs)

/-! ## Regimes -/

/-- What is watched over while an expression is lowered: the schema, and the lent selects that are left alone. -/
structure Watch where
  schema : Schema
  kept : List (Ticket × Select)

/-- The data sources of the selects that are left alone. -/
def Watch.aliases (w : Watch) : List Alias := w.kept.flatMap (·.2.aliases)

/-- A ticket is of none of the selects that are left alone. -/
def Watch.Frees (w : Watch) (t : Ticket) : Prop := ∀ l ∈ w.kept, l.1 ≠ t

/-- A condition on nodes, of a relation that is joined. A common table expression is read only where it
is declared. -/
def Sql.Relation.Holds (P : Node → Prop) : Relation → Prop
  | .table _ => True
  | .derived d => P (.derived d)
  | .union items => P (.union items)
  | .cte .. => False

theorem Sql.Relation.holds_table {P : Node → Prop} {t : Table} : (Relation.table t).Holds P := trivial

/-- The data sources and the common table expressions of a select. -/
def Sql.Select.frame (s : Select) : Select := { Select.empty with sources := s.sources, ctes := s.ctes }

/-- The data sources whose columns are registered, the latest one first. -/
abbrev Registry : Type := List (Alias × SourceShape)

theorem Schema.name_of_navigation {schema : Schema} {entity name : String} {nav : Navigation}
    (h : schema.navigation entity name = .ok nav) : nav.name = name := by
  simp only [Schema.navigation, bind_eq_ok, orThrow_eq_ok] at h
  obtain ⟨e, -, hfound⟩ := h
  have hname := find?_some hfound
  exact beq_iff_eq.1 hname

/-- A navigation from a row of a select to a table: the row is of the entity that declares the navigation. One row
is joined unless the same navigation has been joined before, and as `toOneKind` says. Many rows are always joined. -/
structure Sql.Select.Navigates (s : Select) (schema : Schema) (known : Registry) (parent : Alias) (nav : Navigation)
    (target : Table) (kind : JoinKind) : Prop where
  owns : s.owns parent = true
  declared : ∃ shape entity, known.lookup parent = some shape ∧ shape.entity? = some entity ∧
    schema.navigation entity nav.name = .ok nav
  target : target.entity = nav.target
  one : nav.isToMany = false → s.findNavigation? ⟨parent, nav.name⟩ = none ∧ kind = toOneKind s parent nav
  many : nav.isToMany = true → kind = .inner

/-- A condition on values that hangs on what is known. -/
structure Regime where
  watch : Watch
  /-- What can be known. -/
  World : Type
  /-- More is known. -/
  Grows : World → World → Prop
  /-- What is known is about a scope. -/
  Fits : World → Scope → Prop
  node : World → Node → Prop
  /-- Whether all lent selects are known to have tickets of their own. -/
  strict : Prop
  /-- Whether the aliases of all data sources are known to have been handed out. -/
  placed : Prop

/-- The lowering makes queries in ways that keep a condition. -/
class Regime.Lawful (R : Regime) : Prop where
  refl (w : R.World) : R.Grows w w
  trans {w w' w'' : R.World} : R.Grows w w' → R.Grows w' w'' → R.Grows w w''
  compositional (w : R.World) : Compositional (R.node w)
  mono {w w' : R.World} {n : Node} : R.Grows w w' → R.node w n → R.node w' n
  /-- The parameters do not count. -/
  params {w : R.World} {sc : Scope} {params : List (String × Node)} : R.Fits w sc → R.Fits w { sc with params }
  issued {w : R.World} {sc : Scope} : R.Fits w sc → ∃ w', R.Grows w w' ∧ R.Fits w' sc.fresh.2
  owned {w : R.World} {a : Alias} : R.node w (.source a) → a ∉ R.watch.aliases
  past {w : R.World} {sc : Scope} {a : Alias} : R.placed → R.Fits w sc → R.node w (.source a) →
    a.index ≤ sc.lastAlias.index
  row {w : R.World} {s : Select} {x : DataSource} : R.node w (.select s) → x ∈ s.sources → R.node w (.source x.name)
  select {w : R.World} {s : Select} : R.node w (.select s) ↔ s.Clauses (R.node w) ∧ R.node w (.select s.frame)
  empty {w : R.World} : R.node w (.select .empty)
  opened {w : R.World} {sc : Scope} {r : Relation} : R.Fits w sc → r.Holds (R.node w) → ∃ w', R.Grows w w' ∧
    R.Fits w' (Select.ofRelation r sc).2 ∧ R.node w' (.select (Select.ofRelation r sc).1)
  joined {w : R.World} {sc : Scope} {s : Select} {r : Relation} {kind : JoinKind} : R.Fits w sc →
    R.node w (.select s) → r.Holds (R.node w) → ∃ w', R.Grows w w' ∧ R.Fits w' (Select.ofRelation r sc).2 ∧
      R.node w' (.select (s.addSource ⟨sc.lastAlias.next, r, some ⟨kind, none⟩, none⟩))
  navigated {w : R.World} {sc : Scope} {s : Select} {parent : Alias} {nav : Navigation} {target : Table}
    {kind : JoinKind} : R.Fits w sc → R.node w (.select s) →
      (R.strict → s.Navigates R.watch.schema sc.shapes parent nav target kind) →
        ∃ w', R.Grows w w' ∧ R.Fits w' (Select.ofRelation (.table target) sc).2 ∧ R.node w' (.select (s.addSource
          ⟨sc.lastAlias.next, .table target, some ⟨kind, some (.literal (.bool true))⟩, some ⟨parent, nav.name⟩⟩))
  conditioned {w : R.World} {s t : Select} {a : Alias} {condition : Node} : R.node w (.select s) →
    R.node w condition → (R.placed → Conditionable s.sources a) → s.setCondition a condition = .ok t →
      R.node w (.select t)
  closed {w : R.World} {sc after : Scope} {s : Select} {d : Derived} : R.Fits w sc → R.node w (.select s) →
    s.close R.watch.schema sc = .ok (d, after) → R.node w (.select d.select) → (∀ c ∈ d.columns, R.node w c.expr) →
      R.node w (.derived d)
  inside {w : R.World} {d : Derived} : R.node w (.derived d) → R.node w (.select d.select)
  existence {w : R.World} {d : Derived} : R.node w (.derived d) → R.node w (.existence d)
  union {w : R.World} {items : List UnionItem} : R.node w (.union items) ↔ ∀ i ∈ items, R.node w (.derived i.query)
  recursion {w : R.World} {sc : Scope} {a : Alias} {anchor member : Derived} {columns : List (Path × String)} :
    R.Fits w sc → R.node w (.derived anchor) → R.node w (.derived member) → ∃ w', R.Grows w w' ∧
      R.Fits w' (Select.ofRelation (.cte a columns) sc).2 ∧
      R.node w' (.select ((Select.ofRelation (.cte a columns) sc).1.addCte
        ⟨a, anchor, some (member.substitute anchor.id (.cte a columns))⟩))

namespace Regime

variable {R : Regime}

/-- The same selects are lent as before. At most navigations were added to them. -/
structure Kept (R : Regime) (lent lent' : List (Ticket × Select)) : Prop where
  tickets : lent'.map (·.1) = lent.map (·.1)
  navigated : R.placed → Navigated lent lent'

theorem Kept.refl (lent : List (Ticket × Select)) : R.Kept lent lent := ⟨rfl, fun _ => .refl lent⟩

theorem Kept.trans {a : List (Ticket × Select)} (hab : R.Kept a b) (hbc : R.Kept b c) : R.Kept a c :=
  ⟨hbc.tickets.trans hab.tickets, fun h => (hab.navigated h).trans (hbc.navigated h)⟩

variable [R.Lawful] {w w' : R.World} {t : Select} {d : Derived}

instance (w : R.World) : Compositional (R.node w) := Lawful.compositional w

section

variable (h : R.node w (.select s))

include h

theorem clauses : s.Clauses (R.node w) := (Lawful.select.1 h).1

/-- Other clauses in the place of those of a select. -/
theorem withClauses (ht : t.Clauses (R.node w)) (hframe : t.frame = s.frame) :
    R.node w (.select t) := Lawful.select.2 ⟨ht, hframe ▸ (Lawful.select.1 h).2⟩

theorem initial : ∀ a ∈ s.initial?, R.node w (.source a) := by
  intro a ha
  obtain ⟨x, hx, rfl⟩ := Option.map_eq_some_iff.1 ha
  exact Lawful.row h (mem_of_head? hx)

theorem addFilter {predicate : Node} (hp : R.node w predicate) :
    R.node w (.select (s.addFilter predicate)) := by
  refine withClauses h ((clauses h).addFilter hp) ?_
  rw [Select.frame, Select.sources_addFilter, Select.ctes_addFilter, Select.frame]

theorem project {value : Node} (hv : R.node w value) :
    R.node w (.select (s.project value)) := by
  refine withClauses h ((clauses h).project hv) ?_
  rw [Select.frame, Select.sources_project, Select.ctes_project, Select.frame]

theorem currentShape (sc : Scope) : R.node w (s.currentShape sc) :=
  (clauses h).currentShape (initial h)

end

theorem close {after : Scope} (hfits : R.Fits w sc) (h : R.node w (.select s))
    (hd : s.close R.watch.schema sc = .ok (d, after)) : R.node w (.derived d) ∧ after = sc.fresh.2 := by
  obtain ⟨hselect, hcolumns, hafter⟩ := (clauses h).close (initial h) hd
  have hkey : R.node w (.select s.withKeyProjection) := by
    refine withClauses h (clauses h).withKeyProjection ?_
    rw [Select.frame, Select.sources_withKeyProjection, Select.ctes_withKeyProjection, Select.frame]
  exact ⟨Lawful.closed hfits h hd (hselect ▸ hkey) hcolumns, hafter⟩

end Regime

/-! ## Contexts -/

/-- A condition holds of everything in a context: of the values of its parameters, and of the selects that lie above
those that are left alone. All tickets in use were handed out. -/
structure Context.Upheld (R : Regime) (w : R.World) (cx : Context) : Prop where
  fits : R.Fits w cx.scope
  params : ∀ p ∈ cx.scope.params, R.node w p.2
  lent : ∃ above, cx.lent = above ++ R.watch.kept ∧ ∀ l ∈ above, R.watch.Frees l.1 ∧ R.node w (.select l.2)
  tickets : ∀ l ∈ R.watch.kept, l.1.number ≤ cx.lastTicket.number
  stack : R.strict → (cx.lent.map (·.1)).Nodup ∧ ∀ l ∈ cx.lent, l.1.number ≤ cx.lastTicket.number

theorem Context.upheld_empty {R : Regime} {w : R.World} (hkept : R.watch.kept = []) (hfits : R.Fits w .empty) :
    Context.Upheld R w .empty where
  fits := hfits
  params := forall_mem_nil _
  lent := ⟨[], by rw [hkept]; rfl, forall_mem_nil _⟩
  tickets := by simp [hkept]
  stack _ := ⟨nodup_nil, forall_mem_nil _⟩

/-- A select is lent that is none of those that are left alone. -/
structure Context.Owns (R : Regime) (cx : Context) (t : Ticket) : Prop where
  free : R.watch.Frees t
  lent : ∃ s, cx.lent.lookup t = some s

theorem Context.Owns.kept {R : Regime} {cx' : Context} {t : Ticket} (h : cx.Owns R t)
    (hkept : R.Kept cx.lent cx'.lent) : cx'.Owns R t := by
  obtain ⟨s, hs⟩ := h.lent
  have hmem : t ∈ cx'.lent.map (·.1) := hkept.tickets ▸ mem_map_of_mem (mem_of_lookup hs)
  obtain ⟨l, hl, rfl⟩ := mem_map.1 hmem
  exact ⟨h.free, exists_lookup hl⟩

namespace Context.Upheld

variable {R : Regime} [R.Lawful] {w w' : R.World} {t : Ticket}

/-- Another scope. -/
theorem withScope (h : cx.Upheld R w) (hgrows : R.Grows w w') (hfits : R.Fits w' sc)
    (hparams : ∀ p ∈ sc.params, R.node w' p.2) : Context.Upheld R w' { cx with scope := sc } := by
  obtain ⟨above, happend, habove⟩ := h.lent
  exact ⟨hfits, hparams, ⟨above, happend, fun l hl => ⟨(habove l hl).1, Regime.Lawful.mono hgrows (habove l hl).2⟩⟩,
    h.tickets, h.stack⟩

/-- Other parameters and frames. -/
theorem withParams (h : cx.Upheld R w) (frames : List Frame) {params : List (String × Node)}
    (hparams : ∀ p ∈ params, R.node w p.2) :
    Context.Upheld R w { cx with frames := frames, scope := { cx.scope with params := params } } :=
  ⟨Regime.Lawful.params h.fits, hparams, h.lent, h.tickets, h.stack⟩

/-- Other frames. -/
theorem withFrames (h : cx.Upheld R w) (frames : List Frame) : Context.Upheld R w { cx with frames := frames } :=
  h.withParams frames h.params

/-- An alias is handed out. -/
theorem fresh (h : cx.Upheld R w) : ∃ w', R.Grows w w' ∧ Context.Upheld R w' { cx with scope := cx.scope.fresh.2 } := by
  obtain ⟨w', hgrows, hfits⟩ := Regime.Lawful.issued h.fits
  exact ⟨w', hgrows, h.withScope hgrows hfits fun p hp => Regime.Lawful.mono hgrows (h.params p hp)⟩

/-- A select that reads a relation under an alias of its own. -/
theorem ofRelation (h : cx.Upheld R w) {r : Relation} (hr : r.Holds (R.node w)) :
    ∃ w', R.Grows w w' ∧ Context.Upheld R w' { cx with scope := (Select.ofRelation r cx.scope).2 } ∧
      R.node w' (.select (Select.ofRelation r cx.scope).1) := by
  obtain ⟨w', hgrows, hfits, hs⟩ := Regime.Lawful.opened h.fits hr
  exact ⟨w', hgrows, h.withScope hgrows hfits fun p hp => Regime.Lawful.mono hgrows (h.params p hp), hs⟩

/-! ## Lent selects -/

omit [R.Lawful]

/-- A select above those that are left alone satisfies the condition. -/
theorem select_of_lookup (h : cx.Upheld R w) (ht : R.watch.Frees t) (hs : cx.lent.lookup t = some s) :
    R.node w (.select s) := by
  obtain ⟨above, happend, habove⟩ := h.lent
  rcases mem_append.1 (happend ▸ mem_of_lookup hs) with hmem | hmem
  · exact (habove _ hmem).2
  · exact absurd rfl (ht _ hmem)

theorem lend (h : cx.Upheld R w) (hs : R.node w (.select s)) :
    (cx.lend s).2.Upheld R w ∧ R.watch.Frees (cx.lend s).1 := by
  have hfree : R.watch.Frees (cx.lend s).1 := by
    intro l hl heq
    have hle := h.tickets l hl
    rw [heq] at hle
    exact absurd hle (Nat.not_succ_le_self _)
  obtain ⟨above, happend, habove⟩ := h.lent
  refine ⟨⟨h.fits, h.params, ⟨((cx.lend s).1, s) :: above, ?_, forall_mem_cons.2 ⟨⟨hfree, hs⟩, habove⟩⟩,
    fun l hl => Nat.le_succ_of_le (h.tickets l hl), fun hstrict => ?_⟩, hfree⟩
  · simp [Context.lend, happend]
  · obtain ⟨hnodup, hnumbers⟩ := h.stack hstrict
    refine ⟨nodup_cons.2 ⟨fun hmem => ?_, hnodup⟩,
      forall_mem_cons.2 ⟨Nat.le_refl _, fun l hl => Nat.le_succ_of_le (hnumbers l hl)⟩⟩
    obtain ⟨l, hl, heq⟩ := mem_map.1 hmem
    have hle := hnumbers l hl
    rw [heq] at hle
    exact absurd hle (Nat.not_succ_le_self _)

/-- The select that was lent last is taken back. -/
theorem reclaim (h : cx.Upheld R w) (ht : R.watch.Frees t) {rest : List (Ticket × Select)}
    (hlent : cx.lent = (t, s) :: rest) : Context.Upheld R w { cx with lent := rest } ∧ R.node w (.select s) := by
  obtain ⟨above, happend, habove⟩ := h.lent
  have hstack := h.stack
  rw [hlent] at happend hstack
  cases above with
  | nil =>
    rw [nil_append] at happend
    exact absurd rfl (ht (t, s) (happend ▸ mem_cons_self))
  | cons l above =>
    obtain ⟨rfl, rfl⟩ := List.cons.inj happend
    rw [forall_mem_cons] at habove
    refine ⟨⟨h.fits, h.params, ⟨above, rfl, habove.2⟩, h.tickets, fun hstrict => ?_⟩, habove.1.2⟩
    exact ⟨(nodup_cons.1 (hstack hstrict).1).2, (forall_mem_cons.1 (hstack hstrict).2).2⟩

theorem replaceIn_append {w : Watch} (ht : w.Frees t) (s : Select) (above : List (Ticket × Select)) :
    Context.replaceIn t s (above ++ w.kept) = Context.replaceIn t s above ++ w.kept := by
  have hkept : ∀ kept : List (Ticket × Select), (∀ l ∈ kept, l.1 ≠ t) → Context.replaceIn t s kept = kept := by
    intro kept hkept
    induction kept with
    | nil => rfl
    | cons l rest ih =>
      rw [forall_mem_cons] at hkept
      rw [Context.replaceIn_cons, if_neg hkept.1, ih hkept.2]
  induction above with
  | nil => exact hkept _ ht
  | cons l rest ih =>
    rw [cons_append, Context.replaceIn_cons, Context.replaceIn_cons]
    split
    · rfl
    · rw [ih, cons_append]

theorem setLent (h : cx.Upheld R w) (ht : R.watch.Frees t) (hs : R.node w (.select s)) :
    (cx.setLent t s).Upheld R w := by
  obtain ⟨above, happend, habove⟩ := h.lent
  refine ⟨h.fits, h.params, ⟨Context.replaceIn t s above, ?_, ?_⟩, h.tickets, fun hstrict => ?_⟩
  · rw [Context.setLent, happend, replaceIn_append ht]
  · exact Context.forall_mem_replaceIn habove fun l hl => ⟨(habove l hl).1, hs⟩
  · obtain ⟨hnodup, hnumbers⟩ := h.stack hstrict
    exact ⟨(Context.map_replaceIn t s cx.lent).symm ▸ hnodup, Context.forall_mem_replaceIn hnumbers hnumbers⟩

/-- The select that a row is of is none of those that are left alone. -/
theorem owner (h : cx.Upheld R w) {parent : Alias} (hparent : parent ∉ R.watch.aliases) {l : Ticket × Select}
    (hl : cx.owner? parent = some l) : cx.Owns R l.1 ∧ R.node w (.select l.2) := by
  obtain ⟨above, happend, habove⟩ := h.lent
  have hmem := mem_of_find?_eq_some hl
  have hlookup : ∃ s, cx.lent.lookup l.1 = some s := by
    rw [← Option.isSome_iff_exists, lookup_isSome_iff]
    exact ⟨l, hmem, beq_self_eq_true _⟩
  rw [happend] at hmem
  rcases mem_append.1 hmem with hmem | hmem
  · exact ⟨⟨(habove l hmem).1, hlookup⟩, (habove l hmem).2⟩
  · refine absurd (mem_flatMap.2 ⟨l, hmem, ?_⟩) hparent
    have howns := find?_some hl
    simpa [Select.owns, Select.aliases] using howns

end Context.Upheld

end QueryLowering
