import QueryLowering.Proofs.Chains
import QueryLowering.Proofs.Lowered

/-!
# Calls that change one clause

A filter, a projection and an ordering go the same way. The select of the query before is opened and made
ready for the change, which closes it first if need be. Then it is lent while the lambda is lowered for a
row of it. The lambda can add navigations to it but nothing else, and in the end one clause is changed.

## Main results

* `clauseCall_of_yields`: the run of a call that changes a clause.
* `exists_closed_of_yields`: a query at the root is the select of its expression, closed.
-/

namespace QueryLowering

open Sql Lower Result

variable {schema : Schema} {cx cx' : Context} {s s' : Select} {st : Step} {p q : Progress} {t : Ticket} {index : Nat}
variable {n : Node} {e source : Expr} {args : List Expr} {sc sc' : Scope} {op : Operation} {values : List Node}

/-! ## Selects that are made ready -/

/-- A select is made ready for a change: it stays as it is, or it is closed and read by a new one. -/
inductive Sql.Select.Readied (op : Operation) (s : Select) : Select → Prop
  | asIs (hwrap : s.needsWrap op = false) : s.Readied op s
  | wrapped {d : Derived} (a : Alias) (hwrap : s.needsWrap op = true) (hd : d.select = s.withKeyProjection) :
      s.Readied op { Select.empty with sources := [⟨a, .derived d, none, none⟩] }

theorem Sql.Select.select_of_close {d : Derived} (hd : s.close schema sc = .ok (d, sc')) :
    d.select = s.withKeyProjection := by
  simp only [close, bind_eq_ok, pure_eq_ok, Prod.mk.injEq] at hd
  obtain ⟨leaves, -, rfl, -⟩ := hd
  rfl

theorem Sql.Select.readied_of_prepare (hs : s.prepare schema op sc = .ok (s', sc')) : s.Readied op s' := by
  simp only [prepare, bind_eq_ok] at hs
  obtain ⟨-, -, hs⟩ := hs
  split at hs
  · next hwrap =>
    simp only [wrap, enclose, bind_eq_ok, pure_eq_ok, Prod.mk.injEq] at hs
    obtain ⟨⟨w, opened⟩, ⟨⟨d, closing⟩, hclose, rfl, rfl⟩, rebound, -, rfl, rfl⟩ := hs
    exact .wrapped _ hwrap (select_of_close hclose)
  · next hwrap =>
    obtain ⟨rfl, rfl⟩ := Prod.mk.inj (Except.ok.inj hs)
    exact .asIs (Bool.eq_false_iff.2 hwrap)

/-- The change can be made to a select that is ready for it. -/
theorem Sql.Select.Readied.needsWrap_eq (h : s.Readied op s') : s'.needsWrap op = false := by
  cases h with
  | asIs hwrap => exact hwrap
  | wrapped => cases op <;> rfl

/-! ## The values of expressions at the root -/

/-- Nothing has been done yet but to go down to a node. -/
def Context.IsFresh (cx : Context) : Prop := ∃ frames, cx = { Context.empty with frames }

theorem Context.IsFresh.upheld (h : cx.IsFresh) : cx.Upheld (History.regime schema) ⟨0, fun _ => []⟩ := by
  obtain ⟨frames, rfl⟩ := h
  exact (History.upheld_regime schema).withFrames frames

/-- The select of an expression that operators go on with. -/
def OpensAs (schema : Schema) (e : Expr) (s : Select) : Prop :=
  ∃ cx index cx', cx.IsFresh ∧ Yields schema (e.visit Recognizer.standard true index) cx (.select s) cx'

/-- The values of the arguments of a call from a place on, each for a row of a lent select. -/
def valuesFor (t : Ticket) : Nat → List Expr → Lower (List Node)
  | _, [] => pure []
  | index, arg :: rest => do
    let bound ← bindFirst arg t
    let value ← withParameters bound (arg.visit Recognizer.standard false (some index))
    return value :: (← valuesFor t (index + 1) rest)

/-- The values of the arguments of a call for a row of a select, where no other select is lent and no other
row is in view, and the context that they leave. -/
def ValuesOver (schema : Schema) (args : List Expr) (s : Select) (values : List Node) (after : Context) : Prop :=
  ∃ cx t, cx.scope.params = [] ∧ cx.lent = [(t, s)] ∧ Yields schema (valuesFor t 1 args) cx values after

/-! ## The steps that change one clause -/

/-- A step that changes a clause lowers its arguments for a row of the select that is lent, and no more. -/
theorem yields_clauseArguments (hst : st.SeesRow) (hp : p.source = some t)
    (hy : Yields schema (lowerParts (.step st) p (index + 1) (args.map fun arg => (arg, arg.run))) cx (q, values) cx') :
    q = p ∧ Yields schema (valuesFor t (index + 1) args) cx values cx' := by
  induction args generalizing index cx values with
  | nil =>
    obtain ⟨hpair, rfl⟩ := yields_pure.1 hy
    obtain ⟨rfl, rfl⟩ := Prod.mk.inj hpair
    exact ⟨rfl, yields_pure.2 ⟨rfl, rfl⟩⟩
  | cons arg rest ih =>
    simp only [List.map_cons, lowerParts, yields_bind, yields_pure, Prod.mk.injEq] at hy
    obtain ⟨⟨p', value⟩, mid, hpart, ⟨p'', values'⟩, after, hrest, ⟨rfl, rfl⟩, rfl⟩ := hy
    obtain ⟨rfl, bound, mid', hbound, hvalue⟩ := yields_rowArgument hst hp hpart
    obtain ⟨rfl, hvalues⟩ := ih hrest
    refine ⟨rfl, ?_⟩
    simp only [valuesFor, yields_bind, yields_pure]
    exact ⟨bound, mid', hbound, value, mid, hvalue, values', after, hvalues, rfl, rfl⟩

/-- The arguments add at most navigations to the select that is lent, by induction over them. -/
theorem navigated_of_arguments (hst : st.SeesRow) (hp : p.source = some t) {rs : List Recognizer}
    {h : (History.regime schema).World} (hcx : cx.Upheld (History.regime schema) h)
    (ht : cx.Owns (History.regime schema) t)
    (hy : Yields schema (lowerParts (.step st) p (index + 1) (args.map fun arg => (arg, arg.visit rs))) cx (q, values)
      cx') : q = p ∧ Navigated cx.lent cx'.lent := by
  induction args generalizing h cx index values with
  | nil =>
    obtain ⟨hpair, rfl⟩ := yields_pure.1 hy
    exact ⟨(Prod.mk.inj hpair).1.symm, .refl _⟩
  | cons arg rest ih =>
    simp only [List.map_cons, lowerParts, yields_bind, yields_pure, Prod.mk.injEq] at hy
    obtain ⟨⟨p', value⟩, mid, hpart, ⟨p'', values'⟩, after, hrest, ⟨rfl, rfl⟩, rfl⟩ := hy
    obtain ⟨rfl, bound, mid', hbound, hvalue⟩ := yields_rowArgument hst hp hpart
    obtain ⟨-, -, k, _, -, -, rfl, rfl, rfl, hparams⟩ :=
      (retains_bindFirst (F := SameNode) ht).of_yields hcx (SameNode.refl _) hbound
    have hkeeps : Upholds (History.regime schema) (SamePlace (some (index + 1)) (some (index + 1))) k mid'
        (withParameters bound (arg.visit rs false (some (index + 1)))) _ :=
      .withParameters hparams (arg.visit_accepted rs _ _ _)
    obtain ⟨-, -, _, _, -, hmid, -, hkept, -⟩ := hkeeps.of_yields hcx (SamePlace.refl _ _) hvalue
    obtain ⟨rfl, hlent⟩ := ih hmid (ht.kept hkept) hrest
    exact ⟨rfl, (hkept.navigated trivial).trans hlent⟩

/-- The query before, if nothing has been done yet. -/
theorem yields_clauseSource (hcx : cx.IsFresh)
    (hy : Yields schema (lowerPart (.step st) {} 0 source (source.run)) cx (q, n) cx') :
    n = .placeholder ∧ cx'.scope.params = [] ∧ (∃ k, cx'.Upheld (History.regime schema) k) ∧ ∃ m before s opened ready,
      Yields schema (source.run true (some 0)) cx m before ∧
      Yields schema (openQuery source m) { before with scope := before.scope.unbindTo 0 } s opened ∧
      s.Readied st.operation ready ∧ q = { source := some cx'.lastTicket } ∧ cx'.lent = [(cx'.lastTicket, ready)] := by
  have hempty : cx.lent = [] ∧ cx.scope.params = [] := by
    obtain ⟨frames, rfl⟩ := hcx
    exact ⟨rfl, rfl⟩
  obtain ⟨-, hnames, k, _, -, hupheld, rfl, hu, -⟩ := (runs_lowerPart (R := History.regime schema)
    (F := SamePlace (some 0) (some 0)) (.refl (.step st)) (.start _ (⟨0, fun _ => []⟩ : History) cx) (fun _ => rfl) rfl
    fun _ _ _ _ => source.visit_accepted _ _ _ _).of_yields hcx.upheld (SamePlace.refl _ _) hy
  obtain ⟨rfl, m, mid, s, opened, ready, sc, hm, hopen, hprepare, rfl, rfl⟩ := yields_querySource hy
  obtain ⟨before, hbefore, rfl⟩ := yields_withParameters.1 hm
  rw [Scope.bind_nil] at hbefore
  obtain ⟨-, -, s', rest, hlent, hrest, -⟩ := hu.source rfl
  rw [hempty.1] at hrest
  obtain rfl := List.map_eq_nil_iff.1 hrest.tickets
  obtain rfl : ready = s' := (Prod.mk.inj (List.cons.inj hlent).1).2
  have hparams : Scope.names _ = [] := hnames.trans (by rw [Scope.names, hempty.2, List.map_nil])
  rw [hempty.2] at hopen
  exact ⟨rfl, List.map_eq_nil_iff.1 hparams, ⟨k, hupheld⟩, m, before, s, opened, ready, hbefore, hopen,
    Select.readied_of_prepare hprepare, rfl, hlent⟩

/-- How a call that changes a clause comes by its value: from the select of the query before, which is made
ready and lent, and from the values of its arguments for a row of that. -/
inductive ClauseCall (schema : Schema) (st : Step) (source : Expr) (args : List Expr) (n : Node) : Prop
  | intro {start before mid opened after last : Context} {m : Node} {s ready grown : Select} {p : Progress}
      {values : List Node} (hstart : start.IsFresh)
      (hsource : Yields schema (source.visit Recognizer.standard true (some 0)) start m before)
      (hopen : Yields schema (openQuery source m) mid s opened)
      (hready : s.Readied st.operation ready) (hvalues : ValuesOver schema args ready values after)
      (hgrown : ready.GrownTo grown)
      (hfinish : Yields schema (st.finish p grown (.placeholder :: values)) { after with lent := [] } n last)

/-- The run of a call that changes a clause. -/
theorem clauseCall_of_yields (hrule : e.rule? = some (.step st)) (hst : st.isClause = true)
    (hchildren : e.children = source :: args) (hcx : cx.IsFresh) {index : Option Nat}
    (hy : Yields schema (e.run true index) cx n cx') : ClauseCall schema st source args n := by
  obtain ⟨q, _, mid, q', values, mid', t', s', back, after, hpart, hargs, ht, hreclaim, hfinish, rfl⟩ :=
    yields_step hrule hchildren hy
  have hfresh : Context.IsFresh { cx with frames := ⟨(Rule.step st).name, e.kindName, index⟩ :: cx.frames } := by
    obtain ⟨frames, rfl⟩ := hcx
    exact ⟨_, rfl⟩
  obtain ⟨rfl, hparams, ⟨k, hmid⟩, m, before, s, opened, ready, hsource, hopen, hready, rfl, hlent⟩ :=
    yields_clauseSource hfresh hpart
  have hrow := Step.seesRow_of_isClause hst
  have howns : mid.Owns (History.regime schema) mid.lastTicket := ⟨List.forall_mem_nil _, ready, by simp [hlent]⟩
  obtain ⟨rfl, hnavigated⟩ := navigated_of_arguments hrow rfl hmid howns hargs
  obtain ⟨-, hvalues⟩ := yields_clauseArguments hrow rfl hargs
  obtain rfl : mid.lastTicket = t' := Option.some.inj ht
  rw [hlent] at hnavigated
  obtain ⟨⟨_, grown⟩, _, ⟨rfl, hgrown⟩, hnil, hlent'⟩ := List.forall₂_cons_left_iff.1 hnavigated
  obtain rfl := List.forall₂_nil_left_iff.1 hnil
  obtain ⟨rfl, rfl⟩ := Context.eq_of_reclaim hlent' hreclaim
  exact .intro hfresh hsource hopen hready ⟨mid, _, hparams, hlent, hvalues⟩ hgrown hfinish

/-- A step that changes a clause has a select as its value. -/
theorem exists_select_of_finish (hst : st.isClause = true) {ns : List Node}
    (hy : Yields schema (st.finish p s ns) cx n cx') : ∃ s', n = .select s' := by
  cases st with
  | filter | select | take | skip | aggregate =>
    simp only [Step.finish, yields_bind, yields_pure] at hy
    obtain ⟨_, _, -, rfl, -⟩ := hy
    exact ⟨_, rfl⟩
  | distinct => exact ⟨_, (yields_pure.1 hy).1.symm⟩
  | order | groupBy =>
    simp only [Step.finish, yields_bind, yields_pure] at hy
    obtain ⟨_, _, -, _, _, -, rfl, -⟩ := hy
    exact ⟨_, rfl⟩
  | _ => cases hst

/-- The value of a step that operators go on with is what the step makes of the select that it takes back. -/
theorem exists_finish_of_yields (hrule : e.rule? = some (.step st)) {index : Option Nat}
    (hy : Yields schema (e.run true index) cx n cx') :
    ∃ p s ns mid after, Yields schema (st.finish p s ns) mid n after := by
  obtain ⟨after, hby, -⟩ := (yields_visit_iff hrule).1 hy
  simp only [lowerBy, Rule.finish, Bool.not_true, Bool.and_false, Bool.false_eq_true, ↓reduceIte, yields_bind,
    yields_pure] at hby
  obtain ⟨⟨q, ns⟩, _, -, m, last, ⟨_, _, -, s, mid, -, hfinish⟩, rfl, -⟩ := hby
  exact ⟨q, s, ns, mid, last, hfinish⟩

/-- Where no operator goes on with it, the value of a call that changes a clause is the closed form of the
select that operators would go on with. -/
theorem exists_closed_of_yields (hrule : e.rule? = some (.step st)) (hst : st.isClause = true)
    {index : Option Nat} (hy : Yields schema (e.run false index) cx n cx') :
    ∃ s d mid, Yields schema (e.run true index) cx (.select s) mid ∧ n = .derived d ∧
      d.select = s.withKeyProjection := by
  obtain ⟨m, mid, hm, hclose⟩ := (yields_closed_iff hrule (Step.producesQuery_of_isClause hst)).1 hy
  obtain ⟨p, s', ns, _, _, hfinish⟩ := exists_finish_of_yields hrule hm
  obtain ⟨s, rfl⟩ := exists_select_of_finish hst hfinish
  simp only [closeQuery, closeSelect, yields_bind, yields_attempt, yields_pure] at hclose
  obtain ⟨d, _, ⟨sc, hd, rfl⟩, rfl, rfl⟩ := hclose
  exact ⟨s, d, _, hm, rfl, Select.select_of_close hd⟩

end QueryLowering
