import QueryLowering.Compile
import QueryLowering.Proofs.Clauses

/-!
# Lowering chains of operators

An operator of a chain is a step: the select of the chain before it is made ready and lent, its
argument is lowered with a row of that select in view, and the step changes one clause. So the value of
a chain has, by induction over the chain, the elements that its operators make of the rows of the table.

## Main results

* `lowersToChain_of_step`: the value of a step over a chain.
* `Chain.lowersToChain`: the value of a chain of operators.
-/

namespace QueryLowering

open Sql Lower List

variable {schema : Schema} {sc : Scope} {cx cx' : Context} {s s' : Select} {σ τ : Shape} {listing listing' : Listing}
variable {n : Node} {st : Step} {p q : Progress} {t : Ticket} {rest : List (Ticket × Select)} {chained : Bool}
variable {arg body e source : Expr} {args : List Expr} {method : Method} {op : Operator} {index : Option Nat}
variable {x : Param} {r : Rule} {entity : String} {ty : Ty} {visit : Visit} {ns : List Node}

/-! ## The values of chains -/

/-- A select of a chain has the elements of a listing. -/
def HasElements (schema : Schema) (sc : Scope) (s : Select) (σ : Shape) (listing : Listing) : Prop :=
  ∃ a r skip top pairs, Reads schema sc s a r skip top pairs σ listing

/-- A closed select gives the elements of a listing. -/
structure Gives (d : Derived) (listing : Listing) : Prop where
  bare : (Relation.derived d).IsBare
  rows : ∀ m contents, (d.read? m contents).map (·.map Cell.leaves) = some ((listing m contents).map (·.leaves []))

/-- The value of a chain: the table that it starts with, a select if an operator goes on with it, or
else a closed select. -/
inductive ChainValue (schema : Schema) (sc : Scope) : Shape → Listing → Bool → Node → Prop
  | table {entity : String} {e : Entity} (chained : Bool) (hentity : schema.find? entity = some e) :
      ChainValue schema sc (.ofEntity schema entity) (fun _ contents => Element.ofTable schema entity contents) chained
        (.table ⟨entity, e.table⟩)
  | select {σ : Shape} {listing : Listing} {s : Select} (hs : HasElements schema sc s σ listing) :
      ChainValue schema sc σ listing true (.select s)
  | derived {σ : Shape} {listing : Listing} {d : Derived} (hd : Gives d listing) :
      ChainValue schema sc σ listing false (.derived d)

/-- A select that reads the table of an entity has the rows of the table as its elements. -/
theorem hasElements_table {e : Entity} (hentity : schema.find? entity = some e) (sc : Scope) :
    HasElements schema (Select.ofRelation (.table ⟨entity, e.table⟩) sc).2
      (Select.ofRelation (.table ⟨entity, e.table⟩) sc).1 (.ofEntity schema entity)
      fun _ contents => Element.ofTable schema entity contents := by
  have htable : ∀ contents, Element.ofTable schema entity contents =
      (contents ⟨entity, e.table⟩).map (Element.ofRow e.columns) := by
    intro contents
    rw [Element.ofTable, hentity]
  refine ⟨_, _, none, none, fun _ contents => (contents ⟨entity, e.table⟩).map fun r =>
    ((fun name => some (r name) : Row), Element.ofRow e.columns r), .ofRelation ⟨rfl, rfl⟩
    (Shape.wf_ofEntity schema entity) (fun m contents => ?_) (fun m contents => ?_) ?_⟩
  · rw [map_map]
    rfl
  · rw [htable, map_map]
    rfl
  · refine .ofTable lookup_cons_self hentity ?_
    rintro m row x ⟨contents, hmem⟩
    obtain ⟨r, -, heq⟩ := mem_map.1 hmem
    obtain ⟨rfl, rfl⟩ := Prod.mk.inj heq
    exact ⟨r, rfl, rfl⟩

/-- The closed form of a select gives its elements. -/
theorem gives_closeSelect {d : Derived} (hy : Yields schema (closeSelect s) cx d cx')
    (hs : HasElements schema cx.scope s σ listing) : cx'.scope.params = cx.scope.params ∧ Gives d listing := by
  obtain ⟨a, r, skip, top, pairs, h⟩ := hs
  obtain ⟨sc', hd, rfl⟩ := yields_attempt.1 hy
  obtain ⟨hpaths, -, hbare, rfl, hread⟩ := h.close hd
  refine ⟨rfl, hbare, fun m contents => ?_⟩
  rw [hread, Option.map_some, map_map]
  refine congrArg some (map_congr_left fun e he => ?_)
  rw [← h.shape_of_mem he] at hpaths
  exact Element.leaves_cells hpaths

/-- An operator that goes on with a chain goes on with a select. -/
theorem ChainValue.opened (hn : ChainValue schema cx.scope σ listing true n)
    (hy : Yields schema (openQuery e n) cx s cx') :
    cx'.scope.params = cx.scope.params ∧ HasElements schema cx'.scope s σ listing := by
  cases hn with
  | table _ hentity =>
    rw [openQuery, selectFrom] at hy
    obtain ⟨rfl, rfl⟩ := yields_update.1 hy
    exact ⟨rfl, hasElements_table hentity cx.scope⟩
  | select hs =>
    rw [openQuery] at hy
    obtain ⟨rfl, rfl⟩ := yields_pure.1 hy
    exact ⟨rfl, hs⟩

theorem ChainValue.not_grouping (hn : ChainValue schema sc σ listing chained n) (key element : Node) :
    n ≠ .grouping key element := by
  cases hn <;> simp

/-- The statement of a chain is a closed select. -/
theorem ChainValue.statement (hn : ChainValue schema cx.scope σ listing false n) {b : Body}
    (hy : Yields schema (statementBody n) cx b cx') : ∃ d, b = .query d ∧ Gives d listing := by
  cases hn with
  | table _ hentity =>
    simp only [statementBody, selectFrom, yields_bind, yields_update, yields_pure] at hy
    obtain ⟨s, mid, ⟨rfl, rfl⟩, d, after, hd, rfl, -⟩ := hy
    exact ⟨d, rfl, (gives_closeSelect hd (hasElements_table hentity cx.scope)).2⟩
  | derived hd =>
    rw [statementBody] at hy
    obtain ⟨rfl, -⟩ := yields_pure.1 hy
    exact ⟨_, rfl, hd⟩

/-- Outside of lambdas, the value of an expression is the value of a chain. -/
def LowersToChain (schema : Schema) (e : Expr) (σ : Shape) (listing : Listing) : Prop :=
  ∀ ⦃chained index cx cx' n⦄, Yields schema (e.visit Recognizer.standard chained index) cx n cx' →
    cx.scope.params = [] → cx'.scope.params = [] ∧ ChainValue schema cx'.scope σ listing chained n

/-! ## The steps of a chain -/

namespace Step

/-- The steps that change one clause of a select. -/
def isClause : Step → Bool
  | filter | select | order .. | take | skip | distinct | groupBy | aggregate _ => true
  | _ => false

/-- A step whose arguments see a row of the select that is lent, and which learns nothing from them. -/
structure SeesRow (st : Step) : Prop where
  bindings (p : Progress) (t : Ticket) (index : Nat) (arg : Expr) : st.bindings p t index arg = bindFirst arg t
  anticipate (p : Progress) (t : Ticket) (index : Nat) (bound : List (String × Node)) :
    st.anticipate p t index bound = pure p
  receive (p : Progress) (t : Ticket) (index : Nat) (arg : Expr) (n : Node) : st.receive p t index arg n = pure p

theorem seesRow_of_isClause (hst : st.isClause = true) : st.SeesRow := by
  cases st with
  | filter | select | order | take | skip | distinct | groupBy | aggregate =>
    exact ⟨fun _ _ _ _ => rfl, fun _ _ _ _ => rfl, fun _ _ _ _ _ => rfl⟩
  | _ => cases hst

theorem producesQuery_of_isClause (hst : st.isClause = true) : st.producesQuery = true := by
  cases st with
  | filter | select | order | take | skip | distinct | groupBy | aggregate => rfl
  | _ => cases hst

end Step

/-- Without parameters nothing is bound or unbound. -/
theorem yields_withParameters_nil {α : Type} {x : Lower α} {a : α} (hcx : cx.scope.params = [])
    (hx : ∀ after, Yields schema x cx a after → after.scope.params = [])
    (hy : Yields schema (withParameters [] x) cx a cx') : Yields schema x cx a cx' := by
  obtain ⟨after, hafter, rfl⟩ := yields_withParameters.1 hy
  rw [Scope.bind_nil] at hafter
  have hunbind : after.scope.unbindTo cx.scope.params.length = after.scope := by
    rw [Scope.unbindTo, hx after hafter, hcx, take_nil, ← hx after hafter]
  rw [hunbind]
  exact hafter

/-- The query before is opened, made ready and lent. -/
theorem yields_querySource (hy : Yields schema (lowerPart (.step st) p 0 source visit) cx (q, n) cx') :
    n = .placeholder ∧ ∃ m mid s opened ready sc, Yields schema (withParameters [] (visit true (some 0))) cx m mid ∧
      Yields schema (openQuery source m) mid s opened ∧ s.prepare schema st.operation opened.scope = .ok (ready, sc) ∧
      q = { p with source := some (({ opened with scope := sc } : Context).lend ready).1 } ∧
      cx' = (({ opened with scope := sc } : Context).lend ready).2 := by
  simp only [lowerPart, Rule.skipsParts, Rule.chains, Rule.bindings, Rule.receiveQuery, Bool.false_eq_true,
    ↓reduceIte, beq_self_eq_true, Bool.and_self, yields_bind, yields_pure, Prod.mk.injEq, yields_attempt,
    yields_lend] at hy
  obtain ⟨_, _, ⟨⟨rfl, rfl⟩, rfl⟩, m, mid, hm, s, opened, hopen, _, _, hlend, ⟨rfl, rfl⟩, rfl⟩ := hy
  obtain ⟨ready, _, ⟨sc, hprepare, rfl⟩, _, _, ⟨rfl, rfl⟩, rfl, rfl⟩ := hlend
  exact ⟨rfl, m, mid, s, opened, ready, sc, hm, hopen, hprepare, rfl, rfl⟩

/-- An argument is lowered with its parameters bound, and then the step goes on with its value. -/
theorem yields_stepArgument (hp : p.source = some t) {index : Nat}
    (hy : Yields schema (lowerPart (.step st) p (index + 1) arg visit) cx (q, n) cx') :
    ∃ bound start p' start' t' mid, Yields schema (st.bindings p t (index + 1) arg) cx bound start ∧
      Yields schema (st.anticipate p t (index + 1) bound) start p' start' ∧
      Yields schema (withParameters bound (visit false (some (index + 1)))) start' n mid ∧ p'.source = some t' ∧
      Yields schema (st.receive p' t' (index + 1) arg n) mid q cx' := by
  have hindex : (index + 1 == 0) = false := beq_false_of_ne (Nat.succ_ne_zero index)
  simp only [lowerPart, Rule.skipsParts, Rule.chains, Rule.bindings, Rule.receive, hindex, Nat.succ_ne_zero,
    Bool.false_eq_true, ↓reduceIte, Bool.and_false, yields_bind, yields_pure, yields_known, Prod.mk.injEq] at hy
  obtain ⟨_, _, ⟨t₁, _, ⟨ht₁, rfl⟩, bound, start, hbound, p', start', hanticipate, rfl, rfl⟩, n', mid, hn, _, _,
    ⟨t', _, ⟨ht', rfl⟩, hreceive⟩, ⟨rfl, rfl⟩, rfl⟩ := hy
  obtain rfl : t = t₁ := Option.mem_unique hp ht₁
  exact ⟨bound, start, p', start', t', mid, hbound, hanticipate, hn, ht', hreceive⟩

/-- An argument sees a row of the select that is lent. -/
theorem yields_rowArgument (hst : st.SeesRow) (hp : p.source = some t) {index : Nat}
    (hy : Yields schema (lowerPart (.step st) p (index + 1) arg visit) cx (q, n) cx') :
    q = p ∧ ∃ bound mid, Yields schema (bindFirst arg t) cx bound mid ∧
      Yields schema (withParameters bound (visit false (some (index + 1)))) mid n cx' := by
  obtain ⟨bound, mid, _, _, _, _, hbound, hanticipate, hn, -, hreceive⟩ := yields_stepArgument hp hy
  rw [hst.bindings] at hbound
  rw [hst.anticipate] at hanticipate
  obtain ⟨rfl, rfl⟩ := yields_pure.1 hanticipate
  rw [hst.receive] at hreceive
  obtain ⟨rfl, rfl⟩ := yields_pure.1 hreceive
  exact ⟨rfl, bound, mid, hbound, hn⟩

/-- The first part of a step is the chain that it goes on with. The select of the chain is made ready
for the change and lent. -/
theorem yields_source (hsource : LowersToChain schema source σ listing)
    (hy : Yields schema (lowerPart (.step st) p 0 source (source.run)) cx (q, n) cx') (hcx : cx.scope.params = []) :
    n = .placeholder ∧ cx'.scope.params = [] ∧ ∃ t s rest, q.source = some t ∧ cx'.lent = (t, s) :: rest ∧
      s.needsWrap st.operation = false ∧ HasElements schema cx'.scope s σ listing := by
  obtain ⟨rfl, m, mid, s, mid', s', sc, hn, hopen, hprepare, rfl, rfl⟩ := yields_querySource hy
  have hchain := yields_withParameters_nil hcx (fun after h => (hsource h hcx).1) hn
  obtain ⟨hmid, hvalue⟩ := hsource hchain hcx
  obtain ⟨hparams, a, r, skip, top, pairs, h⟩ := hvalue.opened hopen
  obtain ⟨hsc, hwrap, helements⟩ := h.prepare (hparams.trans hmid) hprepare
  exact ⟨rfl, hsc, _, s', _, rfl, rfl, hwrap, helements⟩

section

variable (hst : st.isClause = true) (hp : p.source = some t)

include hst hp

/-- An argument of a step sees a row of the select that is lent. -/
theorem yields_argument {bound : List (String × Node)} {P : Node → Prop}
    (hbound : ∀ b mid, Yields schema (bindFirst arg t) cx b mid → mid = cx ∧ b = bound)
    (harg : Lowers schema (cx.scope.bind bound) arg P)
    (hy : Yields schema (lowerPart (.step st) p 1 arg (arg.run)) cx (q, n) cx') : q = p ∧ cx' = cx ∧ P n := by
  obtain ⟨rfl, b, mid, hb, hn⟩ := yields_rowArgument (Step.seesRow_of_isClause hst) hp hy
  obtain ⟨rfl, rfl⟩ := hbound b mid hb
  obtain ⟨rfl, before, after, hbefore, hvisit⟩ := yields_withParameters_steady
    (fun mid mid' hmid => harg.1 _ mid mid' n hmid) rfl hn
  exact ⟨rfl, rfl, harg.2 n ⟨_, before, after, hbefore, hvisit⟩⟩

/-- The lambda of a step means a function of the elements. -/
theorem yields_lambda {a : Alias} {r : Relation}
    {skip top : Option Nat} {pairs : Pairing} (hlent : cx.lent = (t, s) :: rest)
    (hs : Reads schema cx.scope s a r skip top pairs σ listing) (harg : arg.asLambda? = some ([x], body))
    (hbody : body.Admits x.name σ τ) (hy : Yields schema (lowerPart (.step st) p 1 arg (arg.run)) cx (q, n) cx') :
    q = p ∧ cx' = cx ∧ Denotes schema cx.scope a pairs.stands n τ fun m e => body.meaning m e := by
  have hlookup : (cx.scope.bind [(x.name, s.currentShape cx.scope)]).lookup? x.name =
      some (s.currentShape cx.scope) := by
    rw [Scope.lookup?, Scope.bind, reverse_append]
    exact lookup_cons_self
  have hbound : ∀ b mid, Yields schema (bindFirst arg t) cx b mid →
      mid = cx ∧ b = [(x.name, s.currentShape cx.scope)] := by
    intro b mid hb
    simp only [bindFirst, lambdaParams, harg, Option.map_some, Option.getD_some, yields_bind,
      yields_lentQuery, yields_scope, hlent, lookup_cons_self, Option.some.injEq] at hb
    obtain ⟨_, _, ⟨rfl, rfl⟩, _, _, ⟨rfl, rfl⟩, hb⟩ := hb
    rw [hs.isGrouped_eq, Bool.and_false] at hb
    obtain ⟨rfl, rfl⟩ := yields_pure.1 hb
    exact ⟨rfl, rfl⟩
  have hlowers := lowers_lambda harg (hbody.lowers hlookup (Denotes.bind_iff.2 hs.value))
  obtain ⟨rfl, rfl, hn⟩ := yields_argument hst hp hbound hlowers hy
  exact ⟨rfl, rfl, Denotes.bind_iff.1 hn⟩

/-- The number of a step is a number of rows. -/
theorem yields_number {k : Nat} (hy : Yields schema (lowerPart (.step st) p 1 (.constant (.int k) ty)
      ((Expr.constant (.int k) ty).run)) cx (q, n) cx') : q = p ∧ cx' = cx ∧ n = countNode k := by
  have hbound : ∀ b mid, Yields schema (bindFirst (.constant (.int k) ty) t) cx b mid → mid = cx ∧ b = [] := by
    intro b mid hb
    obtain ⟨rfl, rfl⟩ := yields_pure.1 hb
    exact ⟨rfl, rfl⟩
  exact yields_argument (P := (· = countNode k)) hst hp hbound (lowers_literal rfl ty) hy

end

theorem yields_lowerParts_one (hy : Yields schema (lowerParts r p 1 [(arg, visit)]) cx (q, ns) cx') :
    ∃ n, ns = [n] ∧ Yields schema (lowerPart r p 1 arg visit) cx (q, n) cx' := by
  simp only [lowerParts, yields_bind, yields_pure, Prod.mk.injEq] at hy
  obtain ⟨⟨q', n⟩, mid, hn, _, _, ⟨rfl, rfl⟩, ⟨rfl, rfl⟩, rfl⟩ := hy
  exact ⟨n, rfl, hn⟩

/-- With some arguments, a step turns selects with the elements of a listing into selects with the
elements of another listing. -/
def Step.Changes (schema : Schema) (st : Step) (args : List Expr) (σ : Shape) (listing : Listing) (τ : Shape)
    (listing' : Listing) : Prop :=
  ∀ ⦃s t rest p q ns cx cx'⦄, HasElements schema cx.scope s σ listing → s.needsWrap st.operation = false →
    p.source = some t → cx.lent = (t, s) :: rest →
    Yields schema (lowerParts (.step st) p 1 (args.map fun arg => (arg, arg.visit Recognizer.standard))) cx
      (q, ns) cx' → q = p ∧ cx' = cx ∧ ∃ s', st.finish p s (.placeholder :: ns) = pure (.select s') ∧
      HasElements schema cx.scope s' τ listing'

theorem changes_filter (harg : arg.asLambda? = some ([x], body)) (hbody : body.Admits x.name σ .scalar) :
    Step.filter.Changes schema [arg] σ listing σ fun m contents =>
      (Transform.filter body).apply m (listing m contents) := by
  intro s t rest p q ns cx cx' hs hwrap hp hlent hy
  obtain ⟨n, rfl, hn⟩ := yields_lowerParts_one hy
  obtain ⟨a, r, skip, top, pairs, h⟩ := hs
  obtain ⟨rfl, rfl, hvalue⟩ := yields_lambda rfl hp hlent h harg hbody hn
  exact ⟨rfl, rfl, _, rfl, a, r, skip, top, pairs, h.addFilter hwrap hvalue⟩

theorem changes_select (harg : arg.asLambda? = some ([x], body)) (hbody : body.Admits x.name σ τ) :
    Step.select.Changes schema [arg] σ listing τ fun m contents =>
      (Transform.select body).apply m (listing m contents) := by
  intro s t rest p q ns cx cx' hs hwrap hp hlent hy
  obtain ⟨n, rfl, hn⟩ := yields_lowerParts_one hy
  obtain ⟨a, r, skip, top, pairs, h⟩ := hs
  obtain ⟨rfl, rfl, hvalue⟩ := yields_lambda rfl hp hlent h harg hbody hn
  exact ⟨rfl, rfl, _, rfl, a, r, skip, top, _, h.project hwrap (hbody.wf h.wf) hvalue⟩

theorem changes_take (ty : Ty) (k : Nat) :
    Step.take.Changes schema [.constant (.int k) ty] σ listing σ fun m contents =>
      (Transform.take k).apply m (listing m contents) := by
  intro s t rest p q ns cx cx' hs hwrap hp hlent hy
  obtain ⟨n, rfl, hn⟩ := yields_lowerParts_one hy
  obtain ⟨a, r, skip, top, pairs, h⟩ := hs
  obtain ⟨rfl, rfl, rfl⟩ := yields_number rfl hp hn
  exact ⟨rfl, rfl, _, rfl, a, r, skip, some k, pairs, h.setTop hwrap k⟩

theorem changes_skip (ty : Ty) (k : Nat) :
    Step.skip.Changes schema [.constant (.int k) ty] σ listing σ fun m contents =>
      (Transform.skip k).apply m (listing m contents) := by
  intro s t rest p q ns cx cx' hs hwrap hp hlent hy
  obtain ⟨n, rfl, hn⟩ := yields_lowerParts_one hy
  obtain ⟨a, r, skip, top, pairs, h⟩ := hs
  obtain ⟨rfl, rfl, rfl⟩ := yields_number rfl hp hn
  exact ⟨rfl, rfl, _, rfl, a, r, some k, none, pairs, h.setSkip hwrap k⟩

theorem changes_distinct : Step.distinct.Changes schema [] σ listing σ fun m contents =>
      Transform.distinct.apply m (listing m contents) := by
  intro s t rest p q ns cx cx' hs hwrap hp hlent hy
  obtain ⟨hpair, rfl⟩ := yields_pure.1 hy
  obtain ⟨rfl, rfl⟩ := Prod.mk.inj hpair
  obtain ⟨a, r, skip, top, pairs, h⟩ := hs
  exact ⟨rfl, rfl, _, rfl, a, r, none, none, pairs, h.setDistinct hwrap⟩

/-- A select that was lent last is taken back. -/
theorem Context.eq_of_reclaim {back : Context} (hlent : cx.lent = (t, s) :: rest)
    (h : cx.reclaim t = .ok (s', back)) : s = s' ∧ { cx with lent := rest } = back := by
  rw [reclaim, hlent] at h
  exact Prod.mk.inj (Except.ok.inj ((if_pos rfl).symm.trans h))

/-- The run of a step that operators go on with: the query before is lowered and lent, then the arguments are lowered,
and then the step makes its value of the select that it takes back. -/
theorem yields_step
    (hrule : e.rule? = some (.step st)) (hchildren : e.children = source :: args)
    (hy : Yields schema (e.run true index) cx n cx') :
    ∃ q first mid q' values mid' t s back after, Yields schema (lowerPart (.step st) {} 0 source (source.run))
        { cx with frames := ⟨(Rule.step st).name, e.kindName, index⟩ :: cx.frames } (q, first) mid ∧
      Yields schema (lowerParts (.step st) q 1 (args.map fun arg => (arg, arg.run))) mid
        (q', values) mid' ∧ q'.source = some t ∧ mid'.reclaim t = .ok (s, back) ∧
      Yields schema (st.finish q' s (first :: values)) back n after ∧ { after with frames := cx.frames } = cx' := by
  obtain ⟨after, hby, hcx'⟩ := (yields_visit_iff hrule).1 hy
  rw [lowerBy, hchildren, ← map_prod_left_eq_zip, map_cons] at hby
  simp only [lowerParts, Rule.finish, Bool.not_true, Bool.and_false, Bool.false_eq_true, ↓reduceIte, yields_bind,
    yields_pure, yields_known, yields_reclaim] at hby
  obtain ⟨_, _, ⟨⟨q, first⟩, mid, hpart, ⟨q', values⟩, mid', hargs, rfl, rfl⟩, _, _,
    ⟨t, _, ⟨ht, rfl⟩, s, back, hreclaim, hfinish⟩, rfl, rfl⟩ := hby
  exact ⟨q, first, mid, q', values, mid', t, s, back, _, hpart, hargs, ht, hreclaim, hfinish, hcx'⟩

/-- Closing a query does not look at the frames. -/
theorem yields_closeQuery_frames {m : Node} (hy : Yields schema (closeQuery m) cx n cx') (frames : List Frame) :
    Yields schema (closeQuery m) { cx with frames := frames } n { cx' with frames := frames } ∧
      cx'.frames = cx.frames := by
  cases m with
  | select s =>
    simp only [closeQuery, closeSelect, yields_bind, yields_attempt, yields_pure] at hy ⊢
    obtain ⟨d, _, ⟨sc, hd, rfl⟩, rfl, rfl⟩ := hy
    exact ⟨⟨d, _, ⟨sc, hd, rfl⟩, rfl, rfl⟩, rfl⟩
  | table t =>
    simp only [closeQuery, closeSelect, selectFrom, yields_bind, yields_attempt, yields_update, yields_pure] at hy ⊢
    obtain ⟨s, _, ⟨rfl, rfl⟩, d, _, ⟨sc, hd, rfl⟩, rfl, rfl⟩ := hy
    exact ⟨⟨_, _, ⟨rfl, rfl⟩, d, _, ⟨sc, hd, rfl⟩, rfl, rfl⟩, rfl⟩
  | _ =>
    obtain ⟨rfl, rfl⟩ := yields_pure.1 hy
    exact ⟨yields_pure.2 ⟨rfl, rfl⟩, rfl⟩

/-- Where no operator goes on with a query, its value is the one that operators would go on with, closed. -/
theorem yields_closed_iff (hrule : e.rule? = some r)
    (hproduces : r.producesQuery = true) : Yields schema (e.run false index) cx n cx' ↔
      ∃ m mid, Yields schema (e.run true index) cx m mid ∧ Yields schema (closeQuery m) mid n cx' := by
  have hby : ∀ visits, lowerBy r e visits false = lowerBy r e visits true >>= closeQuery := by
    intro visits
    simp [lowerBy, hproduces]
  simp only [yields_visit_iff hrule, hby, yields_bind]
  constructor
  · rintro ⟨after, ⟨m, mid, hm, hn⟩, rfl⟩
    exact ⟨m, _, ⟨mid, hm, rfl⟩, (yields_closeQuery_frames hn _).1⟩
  · rintro ⟨m, _, ⟨mid, hm, rfl⟩, hn⟩
    obtain ⟨hclose, hframes⟩ := yields_closeQuery_frames hn mid.frames
    exact ⟨_, ⟨m, mid, hm, hclose⟩, by rw [← hframes]⟩

/-- The value of a step over a chain.

**Proof sketch.** The select of the chain is made ready and lent, the arguments leave the context as it
is, and the step changes the select that is taken back. Unless an operator goes on with it, the changed
select is closed. -/
theorem lowersToChain_of_step (hrule : e.rule? = some (.step st)) (hst : st.isClause = true)
    (hchildren : e.children = source :: args) (hsource : LowersToChain schema source σ listing)
    (hchanges : st.Changes schema args σ listing τ listing') : LowersToChain schema e τ listing' := by
  have hselect : ∀ {index cx cx' n}, Yields schema (e.run true index) cx n cx' →
      cx.scope.params = [] → cx'.scope.params = [] ∧ ∃ s, n = .select s ∧ HasElements schema cx'.scope s τ listing' := by
    intro index cx cx' n hy hcx
    obtain ⟨q, _, mid, q', ns, mid', t', s', back, after, hpart, hargs, ht, hreclaim, hfinish, rfl⟩ :=
      yields_step hrule hchildren hy
    obtain ⟨rfl, hparams, t, s, rest, hq, hlent, hwrap, hs⟩ := yields_source hsource hpart hcx
    obtain ⟨rfl, rfl, changed, hchange, hresult⟩ := hchanges hs hwrap hq hlent hargs
    obtain rfl : t = t' := Option.mem_unique hq ht
    obtain ⟨rfl, rfl⟩ := Context.eq_of_reclaim hlent hreclaim
    rw [hchange] at hfinish
    obtain ⟨rfl, rfl⟩ := yields_pure.1 hfinish
    exact ⟨hparams, changed, rfl, hresult⟩
  intro chained index cx cx' n hy hcx
  cases chained with
  | true =>
    obtain ⟨hparams, s, rfl, hs⟩ := hselect hy hcx
    exact ⟨hparams, .select hs⟩
  | false =>
    obtain ⟨m, mid, hm, hclose⟩ := (yields_closed_iff hrule (Step.producesQuery_of_isClause hst)).1 hy
    obtain ⟨hparams, s, rfl, hs⟩ := hselect hm hcx
    simp only [closeQuery, yields_bind, yields_pure] at hclose
    obtain ⟨d, _, hd, rfl, rfl⟩ := hclose
    obtain ⟨hscope, hgives⟩ := gives_closeSelect hd hs
    exact ⟨hscope.trans hparams, .derived hgives⟩

/-- An operator on groups takes nothing but groups. -/
theorem not_yields_groupAggregate (hrule : e.rule? = some (.groupAggregate op))
    (hchildren : e.children = source :: args) (hsource : ∀ frames m after, Yields schema (source.run false (some 0))
      { cx with frames := frames } m after → ∀ key element, m ≠ .grouping key element) :
    ¬ Yields schema (e.run chained index) cx n cx' := by
  intro hy
  obtain ⟨after, hby, rfl⟩ := (yields_visit_iff hrule).1 hy
  simp only [lowerBy, hchildren, map_cons, zip_cons_cons, lowerParts, lowerPart, Rule.skipsParts,
    Rule.chains, Rule.bindings, Bool.false_eq_true, Bool.false_and, ↓reduceIte, yields_bind, yields_pure] at hby
  obtain ⟨_, _, ⟨_, _, ⟨_, _, ⟨rfl, rfl⟩, n', mid, hn, _, _, hreceive, -⟩, -⟩, -⟩ := hby
  obtain ⟨after', hafter, -⟩ := yields_withParameters.1 hn
  rw [Scope.bind_nil] at hafter
  simp only [Rule.receive] at hreceive
  split at hreceive
  · exact hsource _ _ _ hafter _ _ rfl
  · exact not_yields_throw hreceive

/-! ## Whole chains -/

theorem Transform.run_concat (m : Scalars) (ts : List Transform) (t : Transform) (es : List Element) :
    run m (ts ++ [t]) es = t.apply m (run m ts es) := foldl_concat ..

theorem eq_of_yields_lowerParts (hr : r.skipsParts = true) {index : Nat} {parts : List (Expr × Visit)}
    (hy : Yields schema (lowerParts r p index parts) cx (q, ns) cx') : cx' = cx := by
  induction parts generalizing p q index ns cx with
  | nil => exact (yields_pure.1 hy).2.symm
  | cons part parts ih =>
    simp only [lowerParts, lowerPart, hr, ↓reduceIte, yields_bind, yields_pure] at hy
    obtain ⟨_, _, ⟨rfl, rfl⟩, ⟨p', ns'⟩, mid, hparts, -, rfl⟩ := hy
    exact ih hparts

/-- A node whose parts are not lowered is the table of an entity if its rule says so. -/
theorem yields_table_of_rule (hrule : e.rule? = some r)
    (hparts : r.skipsParts = true ∨ e.children = []) (hproduces : r.producesQuery = false)
    (hfinish : ∀ p ns, r.finish e p ns = table entity) (hy : Yields schema (e.run chained index) cx n cx') :
    cx' = cx ∧ ∃ entry, schema.find? entity = some entry ∧ n = .table ⟨entity, entry.table⟩ := by
  obtain ⟨after, hby, rfl⟩ := (yields_visit_iff hrule).1 hy
  simp only [lowerBy, hproduces, hfinish, Bool.false_and, Bool.false_eq_true, ↓reduceIte, yields_bind,
    yields_pure] at hby
  obtain ⟨⟨q, ns⟩, mid, hlower, n', _, hn, rfl, rfl⟩ := hby
  have hmid : mid = { cx with frames := ⟨r.name, e.kindName, index⟩ :: cx.frames } := by
    rcases hparts with hskips | hchildren
    · exact eq_of_yields_lowerParts hskips hlower
    · rw [hchildren] at hlower
      exact (yields_pure.1 hlower).2.symm
  obtain ⟨htable, rfl⟩ := yields_look.1 hn
  simp only [Schema.table, Schema.entity, Result.bind_eq_ok, Result.orThrow_eq_ok, Result.pure_eq_ok] at htable
  obtain ⟨_, ⟨entry, hentry, rfl⟩, rfl⟩ := htable
  exact ⟨by rw [hmid], entry, hentry, rfl⟩

/-- A call of an operator on groups is lowered as such. -/
theorem rule_group (hgroup : groupRule? (.call method none args ty) = some r) :
    Expr.rule? (.call method none args ty) = some r := by
  unfold Expr.rule? Recognizer.standard
  simp only [findSome?_cons, hgroup]
  rfl

/-- Any other call of an operator is lowered by the rule of the operator, unless it is a membership
test. -/
theorem rule_operator (hmethod : Operator.ofMethod? method = some op) (hop : op ≠ .contains)
    (hgroup : groupRule? (.call method none args ty) = none) (hr : operatorRule? op args.length = some r) :
    Expr.rule? (.call method none args ty) = some r := by
  have hmember : membershipRule? (.call method none args ty) = none := by
    unfold membershipRule?
    split
    · contradiction
    · next heq =>
      obtain ⟨rfl, -⟩ := Expr.call.inj heq
      rw [hmethod]
      exact if_neg fun h => hop (Option.some.inj h.1)
    · next heq => cases (Expr.call.inj heq).2.1
    · rfl
  have hquery : queryRule? (.call method none args ty) = some r := by
    rw [queryRule?, hmethod]
    exact hr
  unfold Expr.rule? Recognizer.standard
  simp only [findSome?_cons, hgroup, hmember, hquery]
  rfl

/-- An operator that neither aggregates nor projects is none on groups. -/
theorem groupRule?_eq_none (hmethod : Operator.ofMethod? method = some op) (haggregate : op.isAggregate = false)
    (hselect : op = .select → ∀ source ∈ args.head?, source.ty.isGrouping = false) :
    groupRule? (.call method none args ty) = none := by
  cases args with
  | nil => rfl
  | cons source args =>
    simp only [groupRule?, hmethod]
    refine if_neg ?_
    rintro ⟨hop | hop, hgrouping⟩
    · rw [haggregate] at hop
      exact Bool.false_ne_true hop
    · rw [hselect hop source rfl] at hgrouping
      exact Bool.false_ne_true hgrouping

/-- So an operator that is neither of these nor a membership test is lowered by its rule. -/
theorem rule_ungrouped
    (hmethod : Operator.ofMethod? method = some op) (hr : operatorRule? op args.length = some r)
    (hop : op.isAggregate = false ∧ op ≠ .select ∧ op ≠ .contains := by decide) :
    Expr.rule? (.call method none args ty) = some r :=
  rule_operator hmethod hop.2.2 (groupRule?_eq_none hmethod hop.1 fun h => absurd h hop.2.1) hr

/-- The table of an entity. -/
theorem Expr.IsTable.yields (h : e.IsTable entity) (hy : Yields schema (e.run chained index) cx n cx') :
    cx' = cx ∧ ∃ entry, schema.find? entity = some entry ∧ n = .table ⟨entity, entry.table⟩ := by
  cases h with
  | constant ty => exact yields_table_of_rule (r := .constant) rfl (.inr rfl) rfl (fun _ _ => rfl) hy
  | captured name ty => exact yields_table_of_rule (r := .captured) rfl (.inl rfl) rfl (fun _ _ => rfl) hy
  | @dataSet method args ty hmethod hentity =>
    refine yields_table_of_rule (r := .dataSet) (rule_ungrouped hmethod rfl) (.inl rfl) rfl
      (fun _ _ => ?_) hy
    change Rule.dataSetTable method ty = _
    rw [Rule.dataSetTable, hentity]
    rfl

theorem Expr.IsTable.lowersToChain (h : e.IsTable entity) :
    LowersToChain schema e (.ofEntity schema entity) fun _ contents => Element.ofTable schema entity contents := by
  intro chained index cx cx' n hy hcx
  obtain ⟨rfl, entry, hentry, rfl⟩ := h.yields hy
  exact ⟨hcx, .table chained hentry⟩

/-- The value of a chain of operators.

**Proof sketch.** By induction over the chain. Each operator is a step that changes the select of the
chain before it. A projection of a chain that is typed as a group is lowered as an operator on groups,
which fails since the chain is no group. -/
theorem Chain.lowersToChain {ts : List Transform} (h : Chain schema entity e ts σ) :
    LowersToChain schema e σ fun m contents => Transform.run m ts (Element.ofTable schema entity contents) := by
  induction h with
  | table he => exact he.lowersToChain
  | @filter source arg body x method ts σ ty _ hmethod harg hbody ih =>
    simp only [Transform.run_concat]
    exact lowersToChain_of_step (rule_ungrouped hmethod rfl) rfl rfl ih (changes_filter harg hbody)
  | @select source arg body x method ts σ τ ty _ hmethod harg hbody ih =>
    simp only [Transform.run_concat]
    cases hgrouping : source.ty.isGrouping with
    | false =>
      have hgroup : groupRule? (.call method none [source, arg] ty) = none :=
        groupRule?_eq_none hmethod rfl fun _ _ h => Option.some.inj h ▸ hgrouping
      exact lowersToChain_of_step (rule_operator hmethod (by decide) hgroup rfl) rfl rfl ih (changes_select harg hbody)
    | true =>
      have hgroup : groupRule? (.call method none [source, arg] ty) = some (.groupAggregate .select) := by
        rw [groupRule?, hmethod]
        exact if_pos ⟨.inr rfl, hgrouping⟩
      intro chained index cx cx' n hy hcx
      exact absurd hy (not_yields_groupAggregate (rule_group hgroup) rfl fun _ _ _ hm => (ih hm hcx).2.not_grouping)
  | @take source method ts σ ty countTy k _ hmethod ih =>
    simp only [Transform.run_concat]
    exact lowersToChain_of_step (rule_ungrouped hmethod rfl) rfl rfl ih (changes_take countTy k)
  | @skip source method ts σ ty countTy k _ hmethod ih =>
    simp only [Transform.run_concat]
    exact lowersToChain_of_step (rule_ungrouped hmethod rfl) rfl rfl ih (changes_skip countTy k)
  | @distinct source method ts σ ty _ hmethod ih =>
    simp only [Transform.run_concat]
    exact lowersToChain_of_step (rule_ungrouped hmethod rfl) rfl rfl ih changes_distinct

end QueryLowering
