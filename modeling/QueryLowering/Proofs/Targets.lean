import QueryLowering.Proofs.ClauseCalls
import QueryLowering.Proofs.CteFree
import QueryLowering.Proofs.Tracing

/-!
# Updates and deletions reach a table

Whatever an expression is made of, if its statement is an update or a deletion, this comes from a call somewhere in the
expression. The call asks for a modification of the rows of a query, and the modification is traced to a table.

## Main results

* `Expr.Requests.onTrack`: what holds of a modification that a call asks for.
* `Compiler.exists_request`: the call that an update or a deletion comes from.
* `modification_reaches_table`: updates and deletions modify a table, with nothing left of what was in between.
-/

namespace QueryLowering

open Sql Lower Result List Node Modification

variable {target a : Alias} {b : Body} {m : Modification} {schema : Schema} {s : Select} {rs : List Recognizer}
variable {call : Expr} {cx cx' : Context} {sc : Scope} {k : History} {n : Node} {J : Node → Prop} {d : Derived}
variable {us : List Alias} {known : Registry}

/-! ## Calls -/

namespace Sql.Select

variable {t : Select}

theorem modifiable_of_prepare {sc' : Scope} (h : s.prepare schema .modify sc = .ok (t, sc')) :
    t.Modifiable := by
  simp only [prepare, bind_eq_ok] at h
  obtain ⟨_, hcheck, h⟩ := h
  obtain ⟨rfl, -⟩ := Prod.mk.inj (Except.ok.inj h)
  unfold checkModifiable at hcheck
  split at hcheck
  · exact absurd hcheck throw_ne_ok
  · next hgood => exact modifiable_iff.2 (Bool.eq_false_iff.2 hgood)

theorem GrownTo.modifiable (h : s.GrownTo t) (hs : s.Modifiable) : t.Modifiable := by
  obtain ⟨more, rfl, -⟩ := h
  exact ⟨hs.paged, hs.grouped, hs.distinct⟩

end Sql.Select

theorem Step.seesRow_modify (delete : Bool) : (Step.modify delete).SeesRow :=
  ⟨fun _ _ _ _ => rfl, fun _ _ _ _ => rfl, fun _ _ _ _ _ => rfl⟩

/-- A call asks for a modification: the query before was lent while the arguments were lowered, and it is what is
modified when it comes back. -/
inductive Expr.Requests (rs : List Recognizer) (schema : Schema) (call : Expr) (cx : Context) (delete : Bool)
    (m : Modification) : Scope → Prop
  | intro {index : Option Nat} {p : Progress} {t : Ticket} {args : List Node} {mid after : Context}
      (hrule : rs.findSome? (·.rule? call) = some (.step (.modify delete)))
      (hparts : Yields schema (lowerParts (.step (.modify delete)) {} 0
          (call.children.zip (call.children.map (Expr.visit rs))))
        { cx with frames := ⟨(Rule.step (.modify delete)).name, call.kindName, index⟩ :: cx.frames } (p, args) mid)
      (hsource : p.source = some t) (hreclaim : mid.reclaim t = .ok (m.select, after))
      (hrequested : Modification.requested? delete m.select args after.scope = some m) :
      Requests rs schema call cx delete m after.scope

namespace Expr

variable {delete : Bool}

/-- The value of a call is made of the modification that it asks for. -/
theorem exists_requests (hrule : rs.findSome? (·.rule? call) = some (.step (.modify delete))) {chained : Bool}
    {index : Option Nat} (hy : Yields schema (call.visit rs chained index) cx n cx') :
    ∃ m sc, call.Requests rs schema cx delete m sc ∧ m.toNode delete schema sc = .ok n := by
  obtain ⟨after, hby, rfl⟩ := (yields_visit_iff hrule).1 hy
  simp only [lowerBy, Rule.finish, Step.finish, Rule.producesQuery, Step.producesQuery, Bool.false_and,
    Bool.false_eq_true, if_false, yields_bind, yields_pure, yields_known, yields_reclaim, yields_modification] at hby
  obtain ⟨⟨p, args⟩, mid, hparts, _, _, ⟨t, _, ⟨ht, rfl⟩, s, mid', hreclaim, m, hm, hn, rfl⟩, rfl, rfl⟩ := hby
  obtain ⟨rfl, -⟩ := parts_of_requested? hm
  exact ⟨m, mid'.scope, .intro hrule hparts ht hreclaim hm, hn⟩

namespace Requests

/-- The arguments add at most navigations to the query before, which may be modified. -/
theorem modifiable (h : call.Requests rs schema cx delete m sc) (hcx : cx.Upheld (History.regime schema) k) :
    m.select.Modifiable := by
  obtain @⟨index, p, t, args, mid, after, -, hparts, hsource, hreclaim, -⟩ := h
  rw [← map_prod_left_eq_zip] at hparts
  cases hchildren : call.children with
  | nil =>
    rw [hchildren] at hparts
    obtain ⟨hpair, -⟩ := yields_pure.1 hparts
    obtain ⟨rfl, -⟩ := Prod.mk.inj hpair
    cases hsource
  | cons source rest =>
    rw [hchildren, map_cons] at hparts
    simp only [lowerParts, yields_bind, yields_pure, Prod.mk.injEq] at hparts
    obtain ⟨⟨q, first⟩, lent, hfirst, ⟨q', others⟩, _, hothers, ⟨rfl, rfl⟩, rfl⟩ := hparts
    obtain ⟨-, -, l, _, -, hlent, rfl, hu, -⟩ := (runs_lowerPart (.refl (.step (.modify delete))) (.start _ k _)
      (fun _ => rfl) rfl fun _ _ _ _ => source.visit_accepted rs _ _ _).of_yields (hcx.withFrames _)
        (SamePlace.refl _ _) hfirst
    obtain ⟨-, _, _, _, opened, ready, after', -, -, hprepare, rfl, rfl⟩ := yields_querySource hfirst
    obtain ⟨rfl, hnavigated⟩ := navigated_of_arguments (Step.seesRow_modify delete) rfl hlent (hu.owns rfl) hothers
    obtain ⟨⟨_, grown⟩, more, ⟨rfl, hgrown⟩, -, hlent⟩ := forall₂_cons_left_iff.1 hnavigated
    obtain rfl := Option.some.inj hsource
    obtain ⟨hselect, -⟩ := Context.eq_of_reclaim hlent hreclaim
    exact hselect ▸ hgrown.modifiable (Select.modifiable_of_prepare hprepare)

/-- A condition that the lowering keeps holds of the query before and of the arguments. -/
theorem upheld {R : Regime} [R.Lawful] {w : R.World} (h : call.Requests rs R.watch.schema cx delete m sc)
    (hmodify : R.Admits rs fun _ _ => True) (hcx : cx.Upheld R w) : ∃ w' args, R.Fits w' sc ∧
      R.node w' (.select m.select) ∧ (∀ n ∈ args, R.node w' n) ∧
      Modification.requested? delete m.select args sc = some m := by
  obtain @⟨index, p, t, args, mid, after, hrule, hparts, hsource, hreclaim, hrequested⟩ := h
  obtain ⟨-, -, w', _, -, hmid, rfl, hu, hargs⟩ := (Expr.runs_parts (fun _ _ _ _ _ _ => trivial) hmodify hrule trivial
    index (append_nil _).symm).of_yields (hcx.withFrames _) (SameNode.refl _) hparts
  obtain ⟨-, hfree, s, rest, hlent, -⟩ := hu.source hsource
  obtain ⟨rfl, rfl⟩ := Context.eq_of_reclaim hlent hreclaim
  exact ⟨w', args, hmid.fits, (hmid.reclaim hfree hlent).2, hargs, hrequested⟩

theorem every (h : call.Requests rs schema cx delete m sc) (hcx : cx.Upheld (History.regime schema) k) :
    ∃ l : History, m.Every l.Accepts := by
  obtain ⟨l, args, -, hs, hargs, hrequested⟩ :=
    upheld (R := History.regime schema) h (History.admits_regime schema rs) hcx
  exact ⟨l, every_of_requested? (every_select.1 hs) hargs hrequested⟩

theorem holds (h : call.Requests rs schema cx delete m sc)
    (hcx : cx.Upheld schema.outlines known) : m.Holds (Node.Every (AllFit schema sc.shapes)) := by
  obtain ⟨_, args, hfits, hs, hargs, hrequested⟩ :=
    upheld (R := schema.outlines) h (schema.admits_outlines rs fun _ _ => True) hcx
  obtain rfl := hfits.known
  exact .of_requested? traceable_outlines hs hargs hrequested

/-- What holds of a modification that a call asks for. -/
theorem onTrack (h : call.Requests rs schema cx delete m sc) (hcx : cx.Upheld (History.regime schema) k)
    (hupheld : cx.Upheld schema.outlines known) :
    ∃ l : History, m.OnTrack schema sc.shapes l [] := by
  obtain ⟨l, hevery⟩ := h.every hcx
  exact ⟨l, hevery, h.holds hupheld, h.modifiable hcx, forall_mem_nil _, forall_mem_nil _,
    forall_mem_nil _, forall_mem_nil _⟩

end Requests

end Expr

/-! ## Where updates and deletions come from -/

namespace Sql

/-- Whether a node is an update or a deletion. -/
def Node.isModification : Node → Bool
  | update _ | delete _ => true
  | _ => false

/-- A condition holds of all updates and deletions that can be taken out of a value. -/
inductive Node.Sanctioned (J : Node → Prop) : Node → Prop
  | intro {n : Node} (hroot : n.isModification = true → J n) (hparts : ∀ m ∈ n.parts, Sanctioned J m) : Sanctioned J n

theorem Node.isModification_of_blocksOf? (hn : blocksOf? n = none) : n.isModification = false := by
  cases n with
  | update | delete => cases hn
  | _ => rfl

theorem Node.sanctioned_iff (hn : n.isModification = false) : n.Sanctioned J ↔ ∀ m ∈ n.parts, m.Sanctioned J :=
  ⟨fun ⟨_, hparts⟩ => hparts, fun h => .intro (fun hroot => absurd hroot (Bool.eq_false_iff.1 hn)) h⟩

theorem Node.sanctioned_of_blocksOf? (hn : blocksOf? n = none) : n.Sanctioned J ↔ ∀ m ∈ n.operands, m.Sanctioned J := by
  rw [sanctioned_iff (isModification_of_blocksOf? hn), parts_eq hn]

theorem Node.sanctioned_select : (Node.select s).Sanctioned J ↔ s.Clauses (Node.Sanctioned J) := by
  rw [Select.clauses_iff]
  exact sanctioned_iff rfl

theorem Node.sanctioned_derived : (Node.derived d).Sanctioned J ↔
    (Node.select d.select).Sanctioned J ∧ ∀ c ∈ d.columns, c.expr.Sanctioned J := by
  rw [sanctioned_iff rfl, sanctioned_iff rfl]
  exact forall_mem_append.trans (and_congr_right' forall_mem_map)

theorem Node.sanctioned_rows : (Node.rows d).Sanctioned J ↔ (Node.derived d).Sanctioned J := by
  rw [sanctioned_iff rfl, sanctioned_iff rfl]
  rfl

instance : Compositional (Node.Sanctioned J) :=
  .ofOperands (fun hn h _ _ _ => (sanctioned_of_blocksOf? hn).2 h) (fun hn => (sanctioned_of_blocksOf? hn).1)
    sanctioned_rows (fun _ => (sanctioned_iff rfl).2 (forall_mem_nil _))

end Sql

/-- A condition on updates and deletions, of the values of a lowering. -/
def Schema.modifications (schema : Schema) (J : Node → Prop) : Regime where
  watch := ⟨schema, []⟩
  World := Unit
  Grows _ _ := True
  Fits _ _ := True
  node _ n := n.Sanctioned J
  strict := False
  placed := False

instance (schema : Schema) (J : Node → Prop) : (schema.modifications J).Lawful where
  refl _ := trivial
  trans _ _ := trivial
  compositional _ := inferInstanceAs (Compositional (Node.Sanctioned J))
  mono _ h := h
  params h := h
  issued _ := ⟨(), trivial, trivial⟩
  owned _ := not_mem_nil
  past h := h.elim
  row _ _ := (sanctioned_iff rfl).2 (forall_mem_nil _)
  select := by
    intro _ s
    have hframe : (Node.select s.frame).Sanctioned J := sanctioned_select.2 { Select.clauses_empty with }
    exact sanctioned_select.trans (and_iff_left hframe).symm
  empty := sanctioned_select.2 Select.clauses_empty
  opened _ _ := ⟨(), trivial, trivial, sanctioned_select.2 { Select.clauses_empty with }⟩
  joined _ hs _ := ⟨(), trivial, trivial, sanctioned_select.2 { sanctioned_select.1 hs with }⟩
  navigated _ hs _ := ⟨(), trivial, trivial, sanctioned_select.2 { sanctioned_select.1 hs with }⟩
  conditioned hs _ _ ht := by
    obtain ⟨_, _, _, -, -, -, rfl⟩ := Select.setCondition_eq_ok ht
    exact sanctioned_select.2 { sanctioned_select.1 hs with }
  closed _ _ _ hselect hcolumns := sanctioned_derived.2 ⟨hselect, hcolumns⟩
  inside hd := (sanctioned_derived.1 hd).1
  existence _ := (sanctioned_iff rfl).2 (forall_mem_nil _)
  union := (sanctioned_iff rfl).trans forall_mem_map
  recursion _ _ _ := ⟨(), trivial, trivial, sanctioned_select.2 { Select.clauses_empty with }⟩

/-- While an expression is lowered, a call in it asks for a modification whose update or deletion is a given node. -/
def Expr.Performs (rs : List Recognizer) (schema : Schema) (e : Expr) (n : Node) : Prop :=
  ∃ call cx delete m sc, e.Reaches rs schema .empty call cx ∧ call.Requests rs schema cx delete m sc ∧
    m.toNode delete schema sc = .ok n

namespace Sql.Body

/-- The data source that an update or a deletion modifies. -/
def target? : Body → Option Alias
  | query _ => none
  | update u => some u.target
  | delete q => some q.target

/-- The columns that an update assigns values to. -/
def assigned : Body → List String
  | update u => u.assignments.map (·.1)
  | query _ | delete _ => []

/-- What a statement does, as a node. -/
def node : Body → Node
  | query d => .derived d
  | update u => .update u
  | delete q => .delete q

theorem node_injective : Function.Injective node := by
  intro b b' h
  cases b with
  | query =>
    cases b' with
    | query => exact congrArg query (Node.derived.inj h)
    | update | delete => cases h
  | update =>
    cases b' with
    | update => exact congrArg update (Node.update.inj h)
    | query | delete => cases h
  | delete =>
    cases b' with
    | delete => exact congrArg delete (Node.delete.inj h)
    | query | update => cases h

end Sql.Body

/-- The update or the deletion that is made of a modification of a table. -/
inductive Modification.Makes (schema : Schema) (m : Modification) (target : Alias) (entity : String) : Body → Prop
  | delete : Makes schema m target entity (.delete ⟨target, m.rows⟩)
  | update {assigned : List (String × Node)} (h : assignments schema entity m.values = .ok assigned) :
      Makes schema m target entity (.update ⟨target, m.rows, assigned⟩)

theorem Modification.Makes.target?_eq {entity : String}
    (h : m.Makes schema target entity b) : b.target? = some target := by
  cases h <;> rfl

/-- A modification is traced to a table, and the update or the deletion is made of that. -/
theorem Modification.toNode_eq_ok {delete : Bool}
    (h : m.toNode delete schema sc = .ok n) : ∃ m' target entity b, m.trace sc = .ok (m', target, entity) ∧
      m'.Makes schema target entity b ∧ b.node = n := by
  cases delete with
  | true =>
    simp only [toNode, toDelete, if_true, bind_eq_ok, pure_eq_ok] at h
    obtain ⟨⟨m', target, entity⟩, htrace, rfl⟩ := h
    exact ⟨m', target, entity, _, htrace, .delete, rfl⟩
  | false =>
    simp only [toNode, toUpdate, Bool.false_eq_true, if_false, bind_eq_ok, pure_eq_ok] at h
    obtain ⟨⟨m', target, entity⟩, htrace, assigned, hassigned, rfl⟩ := h
    exact ⟨m', target, entity, _, htrace, .update hassigned, rfl⟩

/-- Updates and deletions come from calls, so that every one in a value is one that a call asks for. -/
theorem Expr.admits_modifications (rs : List Recognizer) (schema : Schema) (e : Expr) :
    (schema.modifications (e.Performs rs schema)).Admits rs (e.Reaches rs schema .empty) := by
  intro call cx delete hreaches hrule known s args mid n after chained index cx' _ _ _ _ hy
  obtain ⟨m, sc, hrequests, hn⟩ := Expr.exists_requests hrule hy
  refine .intro (fun _ => ⟨call, cx, delete, m, sc, hreaches, hrequests, hn⟩) ?_
  obtain ⟨m', target, entity, b, -, hmakes, rfl⟩ := toNode_eq_ok hn
  cases hmakes with
  | delete | update => exact forall_mem_nil _

/-- An update or a deletion is the value at the root as it is. -/
theorem Lower.eq_node_of_yields_statementBody
    (hy : Yields schema (statementBody n) cx b cx') (htarget : b.target? = some target) :
    n = b.node ∧ n.isModification = true := by
  unfold statementBody at hy
  split at hy
  case h_1 | h_2 | h_3 =>
    obtain ⟨rfl, -⟩ := yields_pure.1 hy
    cases htarget
  case h_4 | h_9 =>
    simp only [yields_bind, yields_pure] at hy
    obtain ⟨_, _, -, rfl, -⟩ := hy
    cases htarget
  case h_5 | h_6 =>
    simp only [yields_bind, yields_pure] at hy
    obtain ⟨_, _, -, _, _, -, rfl, -⟩ := hy
    cases htarget
  case h_7 | h_8 =>
    obtain ⟨rfl, -⟩ := yields_pure.1 hy
    exact ⟨rfl, rfl⟩

/-- An update or a deletion comes from a call in the expression. -/
theorem Compiler.exists_request {c : Compiler} {e : Expr} (hb : c.body e = .ok b)
    (htarget : b.target? = some target) : e.Performs c.recognizers c.schema b.node := by
  obtain ⟨n, mid, cx, hn, hbody⟩ := Compiler.body_eq_ok hb
  have hdescends : ∀ e' cx child cx', e.Reaches c.recognizers c.schema .empty e' cx →
      e'.Descends c.recognizers c.schema cx child cx' → e.Reaches c.recognizers c.schema .empty child cx' :=
    fun _ _ _ _ hreaches hdescends => hreaches.descends hdescends
  have hupholds := e.visit_upholds (w := ()) hdescends (Expr.admits_modifications c.recognizers c.schema e)
    (.root e .empty) false none none
  obtain ⟨-, -, _, _, -, -, rfl, -, hroot, -⟩ :=
    hupholds.of_yields (Context.upheld_empty rfl trivial) (SamePlace.refl none _) hn
  obtain ⟨rfl, hmodification⟩ := eq_node_of_yields_statementBody hbody htarget
  exact hroot hmodification

/-! ## The table -/

namespace Sql

/-- An update or a deletion modifies the rows that a data source reads from a table. Nothing is done to the rows that
an update or a deletion cannot do, values are assigned to columns of the entity of the table, and no column of some
other data sources is mentioned. -/
structure Body.ModifiesTable (schema : Schema) (us : List Alias) (target : Alias) (t : Table) (b : Body) : Prop where
  source : ∃ x ∈ b.block.select.sources, x.name = target ∧ x.relation = .table t
  projection : b.block.select.projection = none
  ordering : b.block.select.orderBy = []
  modifiable : b.block.select.Modifiable
  assigned : ∀ name ∈ b.assigned, ∃ columns, schema.columns t.entity = .ok columns ∧ ∃ c ∈ columns, c.column = name
  filter : ∀ u ∈ us, ∀ n ∈ b.block.select.filter, n.Avoids u
  values : ∀ u ∈ us, ∀ n ∈ b.block.values, n.Avoids u

section

variable {t : Table}

theorem Node.Avoids.bare (h : n.Avoids a) : (n.change withoutCtes).Avoids a :=
  h.change_to withoutCtes_inserts_none.faithful (fun _ hk => (withoutCtes_inserts_none.all_of_puts hk).root.elim)
    (by rintro _ _ ⟨⟩) fun hn hk name => change_ne_column hn hk name

theorem Select.Modifiable.bare (h : s.Modifiable) : (s.change withoutCtes).Modifiable := by
  obtain ⟨hpaged, hgrouped, hdistinct⟩ := h
  cases s
  simp only [isPaged, isGrouped] at hpaged hgrouped
  refine ⟨?_, ?_, hdistinct⟩
  · simp [Select.change, withoutCtes, isPaged, changeOption_eq, hpaged]
  · simp [Select.change, withoutCtes, isGrouped, changeOption_eq, hgrouped]

theorem Body.target?_bare (b : Body) : b.bare.target? = b.target? := by
  cases b with
  | query => rfl
  | update u =>
    cases u
    rfl
  | delete q =>
    cases q
    rfl

theorem Body.assigned_bare (b : Body) : b.bare.assigned = b.assigned := by
  cases b with
  | query | delete => rfl
  | update u =>
    obtain ⟨target, select, assignments⟩ := u
    simp only [Body.bare, Update.change, assigned]
    induction assignments with
    | nil => rfl
    | cons x rest ih => rw [changeAssignments, map_cons, ih, map_cons]

/-- Moving common table expressions to the front leaves what is modified. -/
theorem Body.ModifiesTable.bare (h : b.ModifiesTable schema us target t) : b.bare.ModifiesTable schema us target t := by
  have hblock : b.bare.block = ⟨b.block.select.change withoutCtes, b.block.values.map (Node.change withoutCtes)⟩ :=
    b.block_bare
  refine ⟨?_, ?_, ?_, ?_, b.assigned_bare ▸ h.assigned, ?_, ?_⟩
  · obtain ⟨x, hx, hname, hrelation⟩ := h.source
    rw [hblock, Select.sources_bare, changeSources_eq]
    exact ⟨_, mem_map_of_mem hx, hname, by rw [hrelation]; rfl⟩
  · rw [hblock, Select.projection_bare, h.projection, changeOption]
  · rw [hblock, Select.orderBy_bare, h.ordering, changeOrder]
  · exact hblock ▸ h.modifiable.bare
  · intro u hu n hn
    rw [hblock, Select.filter_bare, changeOption_eq] at hn
    obtain ⟨f, hf, rfl⟩ := Option.map_eq_some_iff.1 hn
    exact (h.filter u hu f hf).bare
  · rw [hblock]
    exact fun u hu => forall_mem_map.2 fun n hn => (h.values u hu n hn).bare

end

end Sql

/-- What is made of a modification in the end. -/
theorem Modification.OnTrack.modifiesTable {h : History} {t : Table} (hm : m.OnTrack schema known h us)
    (hfound : ∃ x ∈ m.select.sources, x.name = target ∧ x.relation = .table t)
    (hmakes : m.Makes schema target t.entity b) : b.ModifiesTable schema us target t := by
  have hmodifiable : m.rows.Modifiable := ⟨hm.modifiable.paged, hm.modifiable.grouped, hm.modifiable.distinct⟩
  cases hmakes with
  | delete =>
    exact ⟨hfound, rfl, rfl, hmodifiable, forall_mem_nil _, hm.filter, fun _ _ => forall_mem_nil _⟩
  | update hassigned =>
    refine ⟨hfound, rfl, rfl, hmodifiable, ?_, hm.filter, fun u hu => ?_⟩
    · exact forall_mem_map.2 fun x hx => (mem_assignments hassigned x hx).2
    · refine forall_mem_map.2 fun x hx => ?_
      obtain ⟨⟨v, hv, hx⟩, -⟩ := mem_assignments hassigned x hx
      exact hx ▸ avoids_asScalar (hm.values u hu v hv)

/-- **Updates and deletions reach a table.** If the statement of an expression is an update or a deletion, this is what
a call in the expression asks for. The rows that the call names are traced to a table in finitely many rounds, each of
which leaves a closed select behind. In the end the target is a data source of the statement that reads a table; nothing
but joins and a condition is left of the query; values are assigned to columns of the entity of the table; and no column
of a closed select that was left behind remains in the target, in the condition or in the values.

**Proof sketch.** Updates and deletions are made by calls only, and the lowering passes them on as they are. A call goes
on with a select that is neither paged nor grouped and whose rows may occur twice. Each round keeps to this, and removes
the columns of the closed select, because their output expressions read what was there before. -/
theorem modification_reaches_table (c : Compiler) (e : Expr) (s : Statement) (hs : c.statement e = .ok s)
    (target : Alias) (htarget : s.body.target? = some target) :
    (∀ sc : Scope, WellFounded fun m' m => ∃ a, Modification.Unwraps sc m a m') ∧
    ∃ e' call cx delete m sc us m' t b, c.lowered e = .ok e' ∧
      e'.Reaches c.recognizers c.schema .empty call cx ∧ call.Requests c.recognizers c.schema cx delete m sc ∧
      m.trace sc = .ok (m', target, t.entity) ∧ m.Traces sc us m' target t ∧
      m'.Makes c.schema target t.entity b ∧ s.body = (if c.options.hoistCtes then b.bare else b) ∧
      target ∉ us ∧ (∀ u ∈ us, m'.target.Avoids u) ∧ s.body.ModifiesTable c.schema us target t := by
  refine ⟨wellFounded_unwraps, ?_⟩
  obtain ⟨e', b, he', hb, rfl⟩ := Compiler.statement_eq_ok hs
  have hsame : (if c.options.hoistCtes then Statement.hoist ⟨[], b⟩ else ⟨[], b⟩).body =
      (if c.options.hoistCtes then b.bare else b) := by
    split <;> rfl
  rw [hsame] at htarget ⊢
  have hbody : b.target? = some target := by
    split at htarget
    · exact b.target?_bare ▸ htarget
    · exact htarget
  obtain ⟨call, cx, delete, m, sc, hreaches, hrequests, hn⟩ := Compiler.exists_request hb hbody
  obtain ⟨m', target', entity, b', htrace, hmakes, hnode⟩ := toNode_eq_ok hn
  obtain rfl := Body.node_injective hnode
  obtain rfl : target = target' := Option.mem_unique hbody hmakes.target?_eq
  obtain ⟨us, t, htraces, rfl⟩ := trace_eq_ok_iff.1 htrace
  -- What holds of the modification when the call asks for it goes through all rounds.
  obtain ⟨known, hupheld⟩ := Expr.Reaches.upheld (c.schema.admits_outlines c.recognizers fun _ _ => True) hreaches
    c.schema.upheld_outlines
  obtain ⟨k, hcx⟩ := Expr.Reaches.upheld (History.admits_regime c.schema c.recognizers) hreaches
    (History.upheld_regime c.schema)
  obtain ⟨l, hstart⟩ := hrequests.onTrack hcx hupheld
  have hend := hstart.traces htraces
  rw [append_nil] at hend
  obtain ⟨hnames, x, hx, rfl, ht⟩ := htraces.found
  have hapart : x.name ∉ us := fun hmem => hend.not_mem hx ht (mem_reverse.2 hmem)
  have hmodifies : b'.ModifiesTable c.schema us x.name t := by
    have htable := hend.modifiesTable ⟨x, hx, rfl, ht⟩ hmakes
    exact { htable with
      filter := fun u hu => htable.filter u (mem_reverse.2 hu)
      values := fun u hu => htable.values u (mem_reverse.2 hu) }
  refine ⟨e', call, cx, delete, m, sc, us, m', t, b', he', hreaches, hrequests, htrace, htraces, hmakes, rfl, hapart,
    fun u hu => ?_, ?_⟩
  · exact avoids_of_targetAlias hnames fun heq => hapart (heq ▸ hu)
  · split
    · exact hmodifies.bare
    · exact hmodifies

namespace Sample

/-- The employees of one manager are given another one. The query names their members anew twice, and filters in
between, so that there are two closed selects around the table. -/
def reassignment : Expr :=
  let renamed := (Query.ofEntity "Employee").select "x" .anonymous fun x => .construct .anonymous
    [("Person", x.memberOf "EmployeeId" .int), ("Boss", x.memberOf "ManagerId" .int)]
  let filtered := renamed.filter "x" fun x => .binaryOf .equal (x.memberOf "Boss" .int) (.constantOf (.int 1))
  let again := filtered.select "x" .anonymous fun x => .construct .anonymous
    [("Key", x.memberOf "Person" .int), ("Former", x.memberOf "Boss" .int)]
  (again.filter "x" fun x => .binaryOf .greaterThan (x.memberOf "Key" .int) (.constantOf (.int 5))).update "x"
    (fun x => x) fun x => .construct (.entity "Employee")
      [("ManagerId", .binaryOf .add (x.memberOf "Former" .int) (.constantOf (.int 1)))]

theorem exists_statement_reassignment : ∃ s, staffCompiler.statement reassignment = .ok s ∧
    s.body.target? = some ⟨1⟩ ∧ s.body.block.aliases = [⟨1⟩] ∧ s.body.assigned = ["ManagerId"] :=
  exists_ok (by decide +kernel)

/-- The update is one of the employees that the first data source reads. -/
theorem reassignment_reaches_employees : ∃ s us t, staffCompiler.statement reassignment = .ok s ∧
    s.body.target? = some ⟨1⟩ ∧ s.body.block.aliases = [⟨1⟩] ∧ s.body.assigned = ["ManagerId"] ∧
    s.body.ModifiesTable staffCompiler.schema us ⟨1⟩ t := by
  obtain ⟨s, hs, htarget, haliases, hassigned⟩ := exists_statement_reassignment
  obtain ⟨-, e', call, cx, delete, m, sc, us, m', t, b, -, -, -, -, -, -, -, -, -, hmodifies⟩ :=
    modification_reaches_table staffCompiler reassignment s hs ⟨1⟩ htarget
  exact ⟨s, us, t, hs, htarget, haliases, hassigned, hmodifies⟩

end Sample

end QueryLowering
