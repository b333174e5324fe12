import QueryLowering.Proofs.Custody

/-!
# Steps that keep contexts orderly

Every step of the lowering keeps what `Context.Orderly` says, whether it succeeds or fails, and what is registered
only grows. A value that a step has is in order with what is registered after it. To be in order is a condition that
goes along with the ways in which queries are made, so this is a case of what steps uphold.

## Main results

* `Expr.visit_orderly`: the lowering of an expression keeps contexts orderly.
-/

namespace QueryLowering

open Sql Node

variable {cx : Context} {known : Registry} {w : Watch} {s : Select} {r : Relation}

/-- Values in order, as a condition that depends on what is registered. Nothing is known of tickets. -/
def Watch.regime (w : Watch) : Regime where
  watch := w
  World := Registry
  Grows := Registry.Grows
  Fits := Registry.Fits w (SourceShape.Covers w.schema)
  node := Node.Orderly w
  strict := False
  placed := False

@[simp]
theorem Watch.watch_regime (w : Watch) : w.regime.watch = w := rfl

/-- A data source behind those of a select in order. -/
theorem Sql.Node.Orderly.addSource {a : Alias}
    {join : Option Join} {navigation : Option NavigationTag} (h : (Node.select s).Orderly w known)
    (hfresh : w.Fresh known a) :
    (Node.select (s.addSource ⟨a, r, join, navigation⟩)).Orderly w ((a, .ofRelation r) :: known) := by
  obtain ⟨hclauses, hsources⟩ := orderly_select.1 (h.mono (hfresh.grows _))
  refine orderly_select.2 ⟨{ hclauses with }, List.forall_mem_append.2 ⟨hsources, ?_⟩⟩
  exact List.forall_mem_singleton.2 ⟨hfresh.apart, by simp⟩

theorem Sql.Select.orderly_empty : (Node.select .empty).Orderly w known :=
  orderly_select.2 ⟨Select.clauses_empty, List.forall_mem_nil _⟩

theorem Sql.Relation.Holds.covers (hr : r.Holds (Node.Orderly w known)) :
    (SourceShape.ofRelation r).Covers w.schema := by
  cases r with
  | table t => trivial
  | derived d => exact SourceShape.covers_of_derived hr
  | union items => exact SourceShape.covers_of_union hr
  | cte a columns => exact hr.elim

instance (w : Watch) : w.regime.Lawful where
  refl := Registry.Grows.refl
  trans := Registry.Grows.trans
  compositional (known : Registry) := inferInstanceAs (Compositional (Node.Orderly w known))
  mono hgrows h := Node.Orderly.mono h hgrows
  params h := { h with }
  issued h := ⟨_, .refl _, h.issued⟩
  owned := orderly_source.1
  past h := h.elim
  row h hx := Node.Orderly.source_of_mem h hx
  select := by
    intro known s
    have hframe : (Node.select s.frame).Orderly w known ↔ ∀ d ∈ s.sources, d.Orderly w known :=
      orderly_select.trans (and_iff_right { Select.clauses_empty with })
    exact orderly_select.trans (and_congr_right fun _ => hframe.symm)
  empty := Select.orderly_empty
  opened h hr := ⟨_, h.fresh.grows _, h.ofRelation (Relation.Holds.covers hr), Select.orderly_empty.addSource h.fresh⟩
  joined h hs hr := ⟨_, h.fresh.grows _, h.ofRelation (Relation.Holds.covers hr), Node.Orderly.addSource hs h.fresh⟩
  navigated h hs _ := ⟨_, h.fresh.grows _, h.ofRelation (r := .table _) trivial, Node.Orderly.addSource hs h.fresh⟩
  conditioned hs _ _ ht := Node.Orderly.setCondition hs ht
  closed h hs hd hselect hcolumns := by
    obtain rfl := h.known
    refine orderly_derived.2 ⟨hselect, hcolumns, Select.covers_close (fun x hx => ?_) h.shapes hd⟩
    exact ((orderly_select.1 hs).2 x hx).registered
  inside hd := (orderly_derived.1 hd).1
  existence _ := orderly_existence
  union := orderly_union
  recursion h _ _ :=
    have hs := Select.orderly_empty.addSource h.fresh
    ⟨_, h.fresh.grows _, h.ofRelation trivial, hs.withClauses { hs.clauses with } rfl⟩

/-- A context in order: so are the values of its parameters and the lent selects above those that are left alone, and
the registered data sources cover the members of the entities of their rows. -/
abbrev Context.Orderly (w : Watch) (cx : Context) : Prop := cx.Upheld w.regime cx.scope.shapes

theorem Context.orderly_empty (schema : Schema) : Context.Orderly ⟨schema, []⟩ .empty :=
  Context.upheld_empty rfl (.empty rfl)

theorem Context.Upheld.orderly {known : w.regime.World} (h : cx.Upheld w.regime known) : cx.Orderly w := by
  obtain rfl := h.fits.known
  exact h

/-! ## The lowering of an expression -/

open Lower

/-- Nothing is taken out of an update or a deletion. -/
theorem Lower.orderly_of_yields_modify {schema : Schema} {cx' : Context} {delete : Bool} {args : List Node}
    {n : Node} (hy : Yields schema (Lower.modify delete s args) cx n cx') :
    n.Orderly w known := by
  obtain ⟨m, -, hn, -⟩ := yields_modification.1 hy
  cases delete with
  | true =>
    simp only [Modification.toNode, if_true, Modification.toDelete, Result.bind_eq_ok, Result.pure_eq_ok] at hn
    obtain ⟨_, -, rfl⟩ := hn
    exact orderly_delete
  | false =>
    simp only [Modification.toNode, Bool.false_eq_true, if_false, Modification.toUpdate, Result.bind_eq_ok,
      Result.pure_eq_ok] at hn
    obtain ⟨_, -, _, -, rfl⟩ := hn
    exact orderly_update

theorem Watch.admits_regime (w : Watch) (rs : List Recognizer) : w.regime.Admits rs fun _ _ => True :=
  fun _ _ _ _ _ _ _ _ _ _ _ _ _ _ _ _ _ hn _ => orderly_of_yields_modify hn

/-- The lowering of an expression keeps contexts orderly, whatever recognizers say by which rule a node is
lowered. -/
theorem Expr.visit_orderly (w : Watch) (rs : List Recognizer) (e : Expr) {known : w.regime.World} :
    Visit.Agree w.regime known cx (e.visit rs) (e.visit rs) :=
  e.visit_upholds (fun _ _ _ _ _ _ => trivial) (w.admits_regime rs) trivial

end QueryLowering
