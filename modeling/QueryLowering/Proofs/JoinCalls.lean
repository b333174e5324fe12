import QueryLowering.Proofs.Balance
import QueryLowering.Proofs.Maintenance
import QueryLowering.Proofs.Orderings

/-!
# Calls that join tables

A join goes on with the select of its source and reads another table beside it. The parameters of its shape stand for a
row of each. A shape that is made of columns of the two rows has the columns themselves as its value, and the condition
sees that value only.

The conditions of a filtered table do not close its select. So the join adds the table to the very select whose closed
form is the statement of the source: the data sources and the condition on rows are those of the source, and neither
mentions the alias of the other table.

## Main results

* `Expr.IsShape.lowers`: the value of a shape is made of its columns.
* `Expr.FiltersTable.exists_statement`: the statement of the source.
* `lent_eq_of_yields`: a condition that sees no row of a select leaves the select alone.
* `joinCall_of_yields`: the run of a join.
-/

namespace QueryLowering

open Sql Lower Result List

variable {entity x y joined : String} {body e other shape source : Expr} {n value : Node} {ns : List Node}
variable {kind : JoinKind} {method : Method} {args : List Expr} {ty : Ty} {index : Option Nat} {sc : Scope}
variable {ticket : Ticket} {schema : Schema} {rows : String → Alias × String} {f : Expr → Expr} {options : Options}
variable {cx cx' mid opened : Context} {s : Select} {a b : Alias} {op : Operator} {p q : Progress}

/-! ## Shapes -/

/-- The name of the column that stores a member of an entity. -/
def Schema.stored (schema : Schema) (entity member : String) : String :=
  (schema.columnName entity member).toOption.getD member

/-- A column of a shape: its path, the parameter whose row it is of, and the member of the row. -/
structure ShapeColumn where
  path : Path
  row : String
  member : String
deriving DecidableEq, Repr

namespace ShapeColumn

/-- A column of the value of a member. -/
def below (name : String) (c : ShapeColumn) : ShapeColumn := { c with path := name :: c.path }

/-- A column of a shape as an entry of its value, where each parameter stands for a row of an entity. -/
def entry (schema : Schema) (rows : String → Alias × String) (c : ShapeColumn) : Path × Node :=
  (c.path, .column (rows c.row).1 (schema.stored (rows c.row).2 c.member))

end ShapeColumn

/-- The value that is made of columns: a single one without a path is the value itself. -/
def Sql.Node.ofColumns : List (Path × Node) → Node
  | [([], n)] => n
  | entries => .composite entries

namespace Expr

/-- A value made of columns of the rows that two parameters stand for. -/
inductive IsShape (x y : String) : Expr → List ShapeColumn → Prop
  | column {p : Param} (name : String) (ty : Ty) (hp : p.name = x ∨ p.name = y) (hty : p.ty.isRecord = true) :
      IsShape x y (.member (some (.parameter p)) name ty) [⟨[], p.name, name⟩]
  | construct {members : List (String × Expr)} {columns : List (List ShapeColumn)} (ty : Ty)
      (hlength : members.length = columns.length)
      (hmembers : ∀ pair ∈ members.zip columns, IsShape x y pair.1.2 pair.2) :
      IsShape x y (.construct ty members) ((members.zip columns).flatMap fun pair => pair.2.map (·.below pair.1.1))

end Expr

variable {columns : List ShapeColumn}

theorem Sql.Node.ofColumns_of_paths {entries : List (Path × Node)} (h : ∀ entry ∈ entries, entry.1 ≠ []) :
    ofColumns entries = .composite entries := by
  unfold ofColumns
  split
  · exact absurd rfl (h _ mem_cons_self)
  · rfl

/-- The columns of a shape are a single one without a path, or they all have paths. -/
theorem Expr.IsShape.paths (h : body.IsShape x y columns) :
    (∃ row member, columns = [⟨[], row, member⟩]) ∨ ∀ c ∈ columns, c.path ≠ [] := by
  cases h with
  | column name ty => exact .inl ⟨_, _, rfl⟩
  | construct ty =>
    refine .inr fun c hc => ?_
    obtain ⟨pair, -, hc⟩ := mem_flatMap.1 hc
    obtain ⟨c', -, rfl⟩ := mem_map.1 hc
    exact cons_ne_nil _ _

/-- The value of a shape whose columns have paths. -/
theorem ofColumns_entries (h : ∀ c ∈ columns, c.path ≠ []) :
    Node.ofColumns (columns.map (·.entry schema rows)) = .composite (columns.map (·.entry schema rows)) :=
  Node.ofColumns_of_paths (forall_mem_map.2 h)

/-- The entries that a member adds to a value are its columns below the member. -/
theorem Expr.IsShape.memberEntries_eq (h : body.IsShape x y columns) (name : String) :
    Node.memberEntries name (.ofColumns (columns.map (·.entry schema rows))) =
      (columns.map (·.below name)).map (·.entry schema rows) := by
  rcases h.paths with ⟨row, member, rfl⟩ | hpaths
  · rfl
  · rw [ofColumns_entries hpaths, Node.memberEntries, map_map, map_map]
    rfl

theorem Expr.IsShape.isValue (h : body.IsShape x y columns) :
    (Node.ofColumns (columns.map (·.entry schema rows))).IsValue := by
  rcases h.paths with ⟨row, member, rfl⟩ | hpaths
  · exact .scalar rfl
  · rw [ofColumns_entries hpaths]
    exact .composite (forall_mem_map.2 hpaths) (forall_mem_map.2 fun _ _ => .scalar rfl)

/-- The columns of the value of a shape. -/
theorem Expr.IsShape.flatten_eq (h : body.IsShape x y columns) :
    sc.flatten schema [] (.ofColumns (columns.map (·.entry schema rows))) =
      .ok (columns.map (·.entry schema rows)) := by
  have hentries : ∀ cs : List ShapeColumn, sc.flattenEntries schema [] (cs.map (·.entry schema rows)) =
      .ok (cs.map (·.entry schema rows)) := by
    intro cs
    induction cs with
    | nil => rfl
    | cons c rest ih =>
      rw [map_cons]
      simp only [ShapeColumn.entry, Scope.flattenEntries] at ih ⊢
      rw [ih]
      rfl
  rcases h.paths with ⟨row, member, rfl⟩ | hpaths
  · rfl
  · rw [ofColumns_entries hpaths, Scope.flatten]
    exact hentries columns

/-- A member of a parameter that stands for a row of an entity. -/
theorem resolveMember_of_entity {member : String}
    (hshape : sc.shape? a = some (.entity entity)) (hn : sc.resolveMember schema (.source a) member = .ok n) :
    n = .column a (schema.stored entity member) := by
  simp only [Scope.resolveMember, Scope.resolvePath, Scope.shape, hshape, bind_eq_ok, orThrow_eq_ok,
    Option.some.injEq, exists_eq_left', pure_eq_ok] at hn
  obtain ⟨name, hname, rfl⟩ := hn
  rw [Schema.stored, hname]
  rfl

/-- The values of the members of an object that is a shape. -/
theorem flatMap_memberEntries {members : List (String × Expr)} {shapes : List (List ShapeColumn)}
    (hlength : members.length = shapes.length) (hmembers : ∀ pair ∈ members.zip shapes, pair.1.2.IsShape x y pair.2)
    (h : ∀ pair ∈ members.zip shapes, ∀ n, Sees schema sc pair.1.2 n →
      n = .ofColumns (pair.2.map (·.entry schema rows))) (hns : List.Forall₂ (Sees schema sc) (members.map (·.2)) ns) :
    (∀ n ∈ ns, n.IsValue) ∧ ((members.map (·.1)).zip ns).flatMap (fun p => Node.memberEntries p.1 p.2) =
      ((members.zip shapes).flatMap fun pair => pair.2.map (·.below pair.1.1)).map (·.entry schema rows) := by
  induction members generalizing shapes ns with
  | nil =>
    cases hns
    exact ⟨forall_mem_nil _, rfl⟩
  | cons p rest ih =>
    obtain ⟨cs, shapes, rfl⟩ := exists_cons_of_length_eq_add_one hlength.symm
    rw [map_cons] at hns
    obtain ⟨n, others, hn, hothers, rfl⟩ := forall₂_cons_left_iff.1 hns
    rw [zip_cons_cons, forall_mem_cons] at hmembers h
    obtain ⟨hvalues, hentries⟩ := ih (Nat.succ.inj hlength) hmembers.2 h.2 hothers
    obtain rfl := h.1 n hn
    refine ⟨forall_mem_cons.2 ⟨hmembers.1.isValue, hvalues⟩, ?_⟩
    rw [map_cons, zip_cons_cons, flatMap_cons, hentries, hmembers.1.memberEntries_eq,
      zip_cons_cons, flatMap_cons, map_append]

/-- The value of a shape is made of its columns, if the two parameters stand for rows of entities.

**Proof sketch.** Induction on the shape. A member of a row is a column of its data source, and an object puts the
columns of its members together. -/
theorem Expr.IsShape.lowers (h : body.IsShape x y columns)
    (hrows : ∀ p, p = x ∨ p = y → sc.lookup? p = some (.source (rows p).1) ∧
      sc.shape? (rows p).1 = some (.entity (rows p).2)) :
    Lowers schema sc body (· = .ofColumns (columns.map (·.entry schema rows))) := by
  induction h with
  | @column p name ty hp hty =>
    obtain ⟨hlookup, hshape⟩ := hrows p.name hp
    refine lowers_member rfl hty (lowers_parameter hlookup) ?_ ?_
    · rintro _ rfl
      exact .source _
    · rintro _ n rfl hn
      exact resolveMember_of_entity hshape hn
  | @construct members shapes ty hlength hmembers ih =>
    refine lowers_construct (Nat.le_of_eq hlength) (fun pair hpair => (ih pair hpair).1) (fun ns hns => ?_) ty
    obtain ⟨hisValue, hentries⟩ := flatMap_memberEntries hlength hmembers (fun pair hpair => (ih pair hpair).2) hns
    refine ⟨hisValue, ?_⟩
    rw [Node.ofMembers, hentries, Node.ofColumns_of_paths]
    refine forall_mem_map.2 fun c hc => ?_
    obtain ⟨pair, -, hc⟩ := mem_flatMap.1 hc
    obtain ⟨c', -, rfl⟩ := mem_map.1 hc
    exact cons_ne_nil _ _

/-! ## Filters and joins -/

/-- The kind of join that an operator makes whose condition is stated on the pairs that it makes. -/
def Operator.joins? : Operator → Option JoinKind
  | innerJoin => some .inner
  | leftJoin => some .left
  | rightJoin => some .right
  | fullOuterJoin => some .fullOuter
  | crossJoin => some .cross
  | _ => none

namespace Expr

/-- The rows of the table of an entity that any number of conditions let through. -/
inductive FiltersTable (entity : String) : Expr → Prop
  | table {e : Expr} (he : e.IsTable entity) : FiltersTable entity e
  | filter {method : Method} {e : Expr} {args : List Expr} (ty : Ty) (he : FiltersTable entity e)
      (hmethod : Operator.ofMethod? method = some .filter) : FiltersTable entity (.call method none (e :: args) ty)

/-- A join of a query with another one. Its shape is a value of a row of each, and its condition is one on the shape.
A cross join has no condition. -/
inductive Joins : Expr → JoinKind → (source other shape : Expr) → Option Expr → Prop
  | call {method : Method} {op : Operator} {kind : JoinKind} {source other shape : Expr} {condition : Option Expr}
      (ty : Ty) (hmethod : Operator.ofMethod? method = some op) (hop : op.joins? = some kind)
      (hcondition : condition = none ↔ kind = .cross) :
      Joins (.call method none (source :: other :: shape :: condition.toList) ty) kind source other shape condition

theorem FiltersTable.mapUp (he : e.FiltersTable entity) (hf : SparesOthers f) : (e.mapUp f).FiltersTable entity := by
  induction he with
  | table he => exact .table (he.mapUp hf)
  | filter ty _ hmethod ih =>
    rw [mapUp_call hf hmethod]
    exact .filter ty ih hmethod

theorem Joins.mapUp {condition : Option Expr} (he : e.Joins kind source other shape condition) (hf : SparesOthers f) :
    (e.mapUp f).Joins kind (source.mapUp f) (other.mapUp f) (shape.mapUp f) (condition.map (Expr.mapUp f)) := by
  cases he with
  | @call method op _ _ _ _ _ ty hmethod hop hcondition =>
    have hreplaceable : op ∉ replaceable := by
      cases op with
      | all | contains | selectMany => cases hop
      | _ => decide
    rw [mapUp_call hf hmethod hreplaceable, map_cons, map_cons, map_cons]
    have hargs : condition.toList.map (Expr.mapUp f) = (condition.map (Expr.mapUp f)).toList := by
      cases condition <;> rfl
    rw [hargs]
    exact .call ty hmethod hop (by rw [Option.map_eq_none_iff, hcondition])

theorem IsShape.mapUp_eq (h : e.IsShape x y columns) (hf : SparesOthers f) : e.mapUp f = e := by
  induction h with
  | @column p name ty =>
    have hparameter : (parameter p).mapUp f = parameter p := hf.mapUp_eq rfl (forall_mem_nil _)
    exact hf.mapUp_eq rfl (forall_mem_singleton.2 hparameter)
  | @construct members shapes ty hlength _ ih =>
    refine hf.mapUp_eq rfl fun c hc => ?_
    obtain ⟨p, hp, rfl⟩ := mem_map.1 hc
    rw [← map_fst_zip (Nat.le_of_eq hlength)] at hp
    obtain ⟨pair, hpair, rfl⟩ := mem_map.1 hp
    exact ih pair hpair

end Expr

namespace Options

theorem filtersTable_simplified (he : e.FiltersTable entity) : (options.simplified e).FiltersTable entity :=
  simplified_rec (P := fun g => (g e).FiltersTable entity) he fun _ _ hf h => h.mapUp hf

theorem isTable_simplified (he : e.IsTable entity) : (options.simplified e).IsTable entity :=
  simplified_rec (P := fun g => (g e).IsTable entity) he fun _ _ hf h => h.mapUp hf

theorem joins_simplified {condition : Option Expr} (he : e.Joins kind source other shape condition) :
    (options.simplified e).Joins kind (options.simplified source) (options.simplified other)
      (options.simplified shape) (condition.map options.simplified) := by
  refine simplified_rec (P := fun g => (g e).Joins kind (g source) (g other) (g shape) (condition.map g))
    (by simpa using he) ?_
  intro g f hf h
  simpa [Function.comp_def] using h.mapUp hf

/-- The passes leave a shape as it is. -/
theorem simplified_shape {params : List Param}
    (hshape : shape.asLambda? = some (params, body)) (hbody : body.IsShape x y columns) :
    options.simplified shape = shape := by
  refine simplified_rec (P := fun g => g shape = shape) rfl fun g f hf h => ?_
  exact (congrArg (Expr.mapUp f) h).trans (Expr.mapUp_lambda hshape (hbody.mapUp_eq hf) hf)

end Options

/-! ## The select of a filtered table -/

/-- A select that reads a table, with navigations and a condition on rows beside it. -/
def Sql.Select.ReadsTable (s : Select) (a : Alias) (t : Table) : Prop :=
  ∃ more filter, s = { Select.empty with sources := ⟨a, .table t, none, none⟩ :: more, filter := filter }

section

variable {entry : Entity}

theorem rule_filter (hmethod : Operator.ofMethod? method = some .filter) :
    Expr.rule? (.call method none args ty) = some (.step .filter) := rule_ungrouped hmethod rfl

/-- The select of a filtered table reads the table, by induction over the filters. None of them closes it. -/
theorem Expr.FiltersTable.readsTable (he : e.FiltersTable entity) (hcx : cx.IsFresh)
    (hy : Yields schema (e.run true index) cx n cx')
    (hopen : Yields schema (openQuery e n) mid s opened) :
    ∃ a entry, schema.find? entity = some entry ∧ s.ReadsTable a ⟨entity, entry.table⟩ := by
  induction he generalizing cx cx' index n mid s opened with
  | table he =>
    obtain ⟨-, entry, hentry, rfl⟩ := he.yields hy
    rw [openQuery, selectFrom] at hopen
    obtain ⟨rfl, -⟩ := yields_update.1 hopen
    exact ⟨_, entry, hentry, [], none, rfl⟩
  | filter ty _ hmethod ih =>
    obtain ⟨hstart, hsource, hopened, hready, -, hgrown, hfinish⟩ :=
      clauseCall_of_yields (rule_filter hmethod) rfl rfl hcx hy
    obtain ⟨a, entry, hentry, more, filter, rfl⟩ := ih hstart hsource hopened
    simp only [Step.finish, yields_bind, yields_pure] at hfinish
    obtain ⟨_, _, -, rfl, -⟩ := hfinish
    obtain rfl := eq_of_yields_openQuery hopen
    refine ⟨a, entry, hentry, ?_⟩
    cases hready with
    | wrapped _ hwrap => cases hwrap
    | asIs =>
      obtain ⟨added, rfl, -⟩ := hgrown
      exact ⟨more ++ added, _, rfl⟩

theorem Sql.Select.ReadsTable.initial?_eq {t : Table} (hs : s.ReadsTable a t) : s.initial? = some a := by
  obtain ⟨more, filter, rfl⟩ := hs
  rfl

/-- The closed form of a select that reads a table has the columns of the table. -/
theorem Sql.Select.ReadsTable.close_eq {table : TableName} (hs : s.ReadsTable a ⟨entity, table⟩)
    (hshape : sc.shape? a = some (.entity entity)) (hentry : schema.find? entity = some entry) :
    ∃ d after, s.close schema sc = .ok (d, after) ∧ d.select = s ∧
      d.columns = nameColumns (entry.columns.map fun c => ([c.member], .column a c.column)) := by
  obtain ⟨more, filter, rfl⟩ := hs
  have hrow : sc.sourceValue a = .source a := by
    rw [Scope.sourceValue, hshape]
    rfl
  have hcolumns : schema.columns entity = .ok entry.columns := Schema.columns_eq_ok.2 ⟨entry, hentry, rfl⟩
  have hleaves : sc.sourceLeaves schema a = .ok (entry.columns.map fun c => ([c.member], .column a c.column)) := by
    simp only [Scope.sourceLeaves, Scope.shape, hshape, bind_eq_ok, orThrow_eq_ok, Option.some.injEq,
      exists_eq_left', pure_eq_ok]
    exact ⟨_, hcolumns, rfl⟩
  have hflatten : sc.flatten schema [] (sc.sourceValue a) =
      .ok (entry.columns.map fun c => ([c.member], .column a c.column)) := by
    rw [hrow, Scope.flatten, hleaves]
    simp
  refine ⟨⟨sc.fresh.1, _, _⟩, sc.fresh.2, ?_, rfl, rfl⟩
  simp only [close, bind_eq_ok, pure_eq_ok]
  exact ⟨_, hflatten, rfl⟩

/-- A query that operators go on with is lowered as at the root. -/
theorem samePlace_source (f : Frame) : SamePlace (some 0) none [f] [] := by
  intro g h hg _
  simp [collectionOf, hg]

theorem Expr.IsTable.exists_rule (he : e.IsTable entity) :
    ∃ r, e.rule? = some r ∧ r.producesQuery = false := by
  cases he with
  | constant ty => exact ⟨.constant, rfl, rfl⟩
  | captured name ty => exact ⟨.captured, rfl, rfl⟩
  | dataSet hmethod =>
    exact ⟨.dataSet, rule_ungrouped hmethod rfl, rfl⟩

/-- The value of a node that is no open select does not hang on whether an operator goes on with it. -/
theorem visit_eq_of_not_producesQuery {r : Rule} (hrule : e.rule? = some r)
    (hproduces : r.producesQuery = false) (chained : Bool) (index : Option Nat) :
    e.visit Recognizer.standard chained index = e.run true index := by
  rw [Expr.run_eq, Expr.visit_eq]
  simp [lowerNode, hrule, lowerBy, hproduces]

/-- The run of a query that an operator goes on with is one at the root. -/
theorem yields_root {f : Frame} (hy : Yields schema (e.run true (some 0)) { Context.empty with frames := [f] } n cx') :
    Yields schema (e.run true none) .empty n { cx' with frames := [] } := by
  have hcx : Context.Upheld schema.lenience () { Context.empty with frames := [f] } := Context.upheld_lenience ..
  exact (e.visit_lenient _ true (some 0) none).yields_elsewhere hcx (samePlace_source f) hy

/-- The data sources of a select that an expression is lowered to are registered. -/
theorem shape?_of_yields (hy : Yields schema (e.run true index) .empty (.select s) cx') {x : DataSource}
    (hx : x ∈ s.sources) : cx'.scope.shape? x.name = some (.ofRelation x.relation) := by
  obtain ⟨-, -, known, _, -, hcx', rfl, -, hs⟩ := (e.visit_orderly ⟨schema, []⟩ Recognizer.standard true index
    index).of_yields (Context.orderly_empty schema) (SamePlace.refl index _) hy
  obtain rfl := hcx'.fits.known
  exact ((Node.orderly_select.1 hs).2 x hx).registered

/-- The statement of a filtered table is the closed form of the select that an operator goes on with.

**Proof sketch.** The frames do not matter for a query that an operator goes on with. Its select reads the table, so
that it can be closed. -/
theorem Expr.FiltersTable.exists_statement (he : e.FiltersTable entity) {f : Frame}
    {before : Context} (hy : Yields schema (e.run true (some 0)) { Context.empty with frames := [f] } n before)
    (hopen : Yields schema (openQuery e n) { before with scope := before.scope.unbindTo 0 } s opened) :
    ∃ a entry d last, schema.find? entity = some entry ∧ s.ReadsTable a ⟨entity, entry.table⟩ ∧
      Yields schema (e.lower Recognizer.standard >>= statementBody) .empty (.query d) last ∧ d.select = s ∧
      d.columns = nameColumns (entry.columns.map fun c => ([c.member], .column a c.column)) := by
  have hroot := yields_root hy
  cases he with
  | table he =>
    obtain ⟨rfl, entry, hentry, rfl⟩ := he.yields hy
    rw [openQuery, selectFrom] at hopen
    obtain ⟨rfl, -⟩ := yields_update.1 hopen
    have hs : (Select.ofRelation (.table ⟨entity, entry.table⟩) .empty).1.ReadsTable ⟨1⟩ ⟨entity, entry.table⟩ :=
      ⟨[], none, rfl⟩
    have hshape : (Select.ofRelation (.table ⟨entity, entry.table⟩) .empty).2.shape? ⟨1⟩ = some (.entity entity) :=
      lookup_cons_self
    obtain ⟨d, after, hclose, hd⟩ := hs.close_eq hshape hentry
    obtain ⟨r, hrule, hproduces⟩ := he.exists_rule
    have hlower : Yields schema (e.lower Recognizer.standard) .empty (.table ⟨entity, entry.table⟩) .empty := by
      rw [Expr.lower, visit_eq_of_not_producesQuery hrule hproduces]
      exact hroot
    have hbody : Yields schema (statementBody (.table ⟨entity, entry.table⟩)) .empty (.query d)
        { Context.empty with scope := after } := by
      simp only [statementBody, selectFrom, closeSelect, yields_bind, yields_update, yields_attempt, yields_pure]
      exact ⟨_, _, ⟨rfl, rfl⟩, d, _, ⟨after, hclose, rfl⟩, rfl, rfl⟩
    exact ⟨⟨1⟩, entry, d, _, hentry, hs, yields_bind.2 ⟨_, _, hlower, hbody⟩, hd⟩
  | @filter method e args ty he hmethod =>
    obtain ⟨a, entry, hentry, hs⟩ := (he.filter ty hmethod).readsTable ⟨[f], rfl⟩ hy hopen
    obtain ⟨p, s', ns, _, _, hfinish⟩ := exists_finish_of_yields (rule_filter hmethod) hy
    obtain ⟨s'', rfl⟩ := exists_select_of_finish rfl hfinish
    obtain rfl := eq_of_yields_openQuery hopen
    have hshape : before.scope.shape? a = some (.entity entity) := by
      obtain ⟨more, filter, rfl⟩ := hs
      exact shape?_of_yields hroot mem_cons_self
    obtain ⟨d, after, hclose, hd⟩ := hs.close_eq hshape hentry
    have hlower : Yields schema ((Expr.call method none (e :: args) ty).lower Recognizer.standard) .empty (.derived d)
        { before with frames := [], scope := after } := by
      refine (yields_closed_iff (rule_filter hmethod) rfl).2 ⟨_, _, hroot, ?_⟩
      simp only [closeQuery, closeSelect, yields_bind, yields_attempt, yields_pure]
      exact ⟨d, _, ⟨after, hclose, rfl⟩, rfl, rfl⟩
    exact ⟨a, entry, d, _, hentry, hs, yields_bind.2 ⟨_, _, hlower, yields_pure.2 ⟨rfl, rfl⟩⟩, hd⟩

end

/-! ## The parts of a join -/

section

variable {t : Ticket}

/-- The data source that a join adds to a select. -/
def Sql.Select.withTable (s : Select) (b : Alias) (t : Table) (kind : JoinKind) (on : Option Node) : Select :=
  s.addSource ⟨b, .table t, some ⟨kind, on⟩, none⟩

/-- An argument of a join is lowered with its parameters bound, and then the join goes on with its value. -/
theorem yields_joinArgument {index : Nat} (hp : p.source = some t) {arg : Expr} {visit : Visit}
    (hy : Yields schema (lowerPart (.step (.explicitJoin op kind)) p (index + 1) arg visit) cx (q, n) cx') :
    ∃ bound start mid, Yields schema ((Step.explicitJoin op kind).bindings p t (index + 1) arg) cx bound start ∧
      Yields schema (withParameters bound (visit false (some (index + 1)))) start n mid ∧
      Yields schema ((Step.explicitJoin op kind).receive p t (index + 1) arg n) mid q cx' := by
  obtain ⟨bound, start, _, _, t', mid, hbound, hanticipate, hn, ht', hreceive⟩ := yields_stepArgument hp hy
  obtain ⟨rfl, rfl⟩ := yields_pure.1 hanticipate
  obtain rfl : t = t' := Option.mem_unique hp ht'
  exact ⟨bound, start, mid, hbound, hn, hreceive⟩

/-- The other table is joined to the select that is lent. -/
theorem yields_joinedTable (hother : other.IsTable entity) (hp : p.source = some t) (hlent : cx.lent = [(t, s)])
    (hy : Yields schema (lowerPart (.step (.explicitJoin op kind)) p 1 other (other.run)) cx (q, n) cx') :
    ∃ entry, schema.find? entity = some entry ∧ q = { p with joined := some cx.scope.lastAlias.next } ∧ cx' = { cx with
        scope := cx.scope.fresh.2.register cx.scope.lastAlias.next (.entity entity)
        lent := [(t, s.withTable cx.scope.lastAlias.next ⟨entity, entry.table⟩ kind none)] } := by
  obtain ⟨bound, start, mid, hbound, hn, hreceive⟩ := yields_joinArgument hp hy
  obtain ⟨rfl, rfl⟩ := yields_pure.1 hbound
  obtain ⟨after, hafter, rfl⟩ := yields_withParameters.1 hn
  obtain ⟨rfl, entry, hentry, rfl⟩ := hother.yields hafter
  simp only [Step.receive, joinValue, relation, joinLent, Scope.unbindTo_bind, yields_bind, yields_pure,
    yields_lentQuery, yields_update, yields_setLent] at hreceive
  obtain ⟨b, _, ⟨_, _, ⟨rfl, rfl⟩, s', _, ⟨hs', rfl⟩, _, _, ⟨rfl, rfl⟩, _, _, rfl, rfl, rfl⟩, rfl, rfl⟩ := hreceive
  rw [hlent, lookup_cons_self, Option.some.injEq] at hs'
  subst hs'
  refine ⟨entry, hentry, rfl, ?_⟩
  simp only [Context.setLent, hlent, Context.replaceIn_cons, ↓reduceIte]
  rfl

/-- The shape is a value of a row of the select and a row of the other table. -/
theorem yields_joinShape {x y : Param} {P : Node → Prop}
    (hshape : shape.asLambda? = some ([x, y], body)) (hp : p.source = some t) (hjoined : p.joined = some b)
    (hlent : cx.lent = [(t, s)]) (ha : s.currentShape cx.scope = .source a) (hb : cx.scope.sourceValue b = .source b)
    (hlowers : Lowers schema (cx.scope.bind [(x.name, .source a), (y.name, .source b)]) shape P)
    (hy : Yields schema (lowerPart (.step (.explicitJoin op kind)) p 2 shape (shape.run)) cx (q, n) cx') :
    q = { p with shape := some n } ∧ cx' = cx ∧ P n := by
  obtain ⟨bound, start, mid, hbound, hn, hreceive⟩ := yields_joinArgument hp hy
  simp only [Step.bindings, bindRows, rowOf, joinedRow, yields_bind, yields_pure, yields_lentQuery, yields_scope,
    yields_known] at hbound
  obtain ⟨_, _, ⟨s', _, ⟨hs', rfl⟩, _, _, ⟨rfl, rfl⟩, rfl, rfl⟩, _, _, ⟨_, _, ⟨rfl, rfl⟩, b', _, ⟨hb', rfl⟩,
    rfl, rfl⟩, rfl, rfl⟩ := hbound
  rw [hlent, lookup_cons_self, Option.some.injEq] at hs'
  obtain rfl := hs'
  obtain rfl := Option.mem_unique hjoined hb'
  have hbound : bindInOrder shape [s.currentShape cx.scope, cx.scope.sourceValue b] =
      [(x.name, .source a), (y.name, .source b)] := by
    rw [bindInOrder, lambdaParams, hshape, ha, hb]
    rfl
  rw [hbound] at hn
  obtain ⟨rfl, inner, inner', hinner, hn⟩ := yields_withParameters_steady
    (fun inner inner' hinner => hlowers.1 _ inner inner' n hinner) rfl hn
  obtain ⟨rfl, rfl⟩ := yields_pure.1 hreceive
  exact ⟨rfl, rfl, hlowers.2 n ⟨_, inner, inner', hinner, hn⟩⟩

/-- The condition is one on the shape. Its value becomes the condition of the join. -/
theorem yields_joinCondition {condition : Expr} (hp : p.source = some t) (hjoined : p.joined = some b)
    (hvalue : p.shape = some value) (hy : Yields schema (lowerPart (.step (.explicitJoin op kind)) p 3 condition
      (condition.run)) cx (q, n) cx') : q = p ∧ ∃ mid, Yields schema (withParameters (bindInOrder condition [value])
      (condition.run false (some 3))) cx n mid ∧
      Yields schema (setLentCondition t b n.asScalar.condition) mid () cx' := by
  obtain ⟨bound, start, mid, hbound, hn, hreceive⟩ := yields_joinArgument hp hy
  simp only [Step.bindings, yields_bind, yields_pure, yields_known] at hbound
  obtain ⟨_, _, ⟨hvalue', rfl⟩, rfl, rfl⟩ := hbound
  obtain rfl := Option.mem_unique hvalue hvalue'
  simp only [Step.receive, setJoinedCondition, yields_bind, yields_pure, yields_known] at hreceive
  obtain ⟨_, _, ⟨b', _, ⟨hb', rfl⟩, hset⟩, rfl, rfl⟩ := hreceive
  obtain rfl := Option.mem_unique hjoined hb'
  exact ⟨rfl, mid, hn, hset⟩

/-- Values that are made of columns are rows of no select. -/
theorem Expr.IsShape.orderly (h : body.IsShape x y columns) (w : Watch) (known : Registry) :
    (Node.ofColumns (columns.map (·.entry schema rows))).Orderly w known := by
  rcases h.paths with ⟨row, member, rfl⟩ | hpaths
  · exact Node.orderly_column
  · rw [ofColumns_entries hpaths]
    exact Compositional.composite.2 (forall_mem_map.2 fun _ _ => Node.orderly_column)

/-- The data sources of a lent select are registered, under aliases that were handed out. -/
theorem Context.Orderly.registered (hcx : cx.Orderly ⟨schema, []⟩) (hs : (t, s) ∈ cx.lent) {x : DataSource}
    (hx : x ∈ s.sources) :
    cx.scope.shape? x.name = some (.ofRelation x.relation) ∧ x.name.index ≤ cx.scope.lastAlias.index := by
  obtain ⟨above, happend, habove⟩ := hcx.lent
  have happend : cx.lent = above := happend.trans (append_nil _)
  have hregistered := ((Node.orderly_select.1 (habove (t, s) (happend ▸ hs)).2).2 x hx).registered
  exact ⟨hregistered, hcx.fits.numbered (x.name, .ofRelation x.relation) (mem_of_lookup hregistered)⟩

/-- The only select that is lent stays as it is while an expression is lowered that sees no row of it.

**Proof sketch.** The select is left alone: it stays at the bottom of the stack of lent selects. As many selects are
lent afterwards as before. -/
theorem lent_eq_of_yields {condition : Expr} (hcx : cx.Orderly ⟨schema, []⟩) (hparams : cx.scope.params = [])
    (hlent : cx.lent = [(cx.lastTicket, s)]) (hvalue : ∀ w known, value.Orderly w known) {chained : Bool}
    (hy : Yields schema (withParameters (bindInOrder condition [value])
      (condition.run chained index)) cx n mid) : mid.lent = cx.lent := by
  have hkept : cx.Orderly ⟨schema, [(cx.lastTicket, s)]⟩ := by
    refine ⟨⟨rfl, hcx.fits.shapes, hcx.fits.numbered, ?_⟩, hparams ▸ forall_mem_nil _,
      ⟨[], hlent, forall_mem_nil _⟩, forall_mem_singleton.2 (Nat.le_refl _), False.elim⟩
    intro a ha
    obtain ⟨x, hx, rfl⟩ : ∃ x ∈ s.sources, x.name = a := by
      simpa [Watch.aliases, Select.aliases] using ha
    exact (hcx.registered (hlent ▸ mem_singleton_self _) hx).2
  have hupholds : Upholds (Watch.regime ⟨schema, [(cx.lastTicket, s)]⟩) (SamePlace index index) cx.scope.shapes cx
      (withParameters (bindInOrder condition [value]) (condition.run chained index)) _ :=
    .withParameters (boundUpheld_inOrder (forall_mem_singleton.2 (hvalue _ _))) (condition.visit_orderly _ _ _ _ _)
  obtain ⟨-, -, _, _, -, hmid, -, hafter, -⟩ := hupholds.of_yields hkept (SamePlace.refl index _) hy
  obtain ⟨above, happend, -⟩ := hmid.lent
  have hlength : mid.lent.length = 1 := by
    have h := congrArg List.length hafter.tickets
    rw [length_map, length_map, hlent] at h
    exact h
  rw [happend, length_append] at hlength
  have hnil : above = [] := length_eq_zero_iff.1 (by simpa using hlength)
  rw [happend, hnil, hlent]
  rfl

/-- The condition of the data source that was joined last is set. -/
theorem setCondition_withTable (hb : b ∉ s.aliases) (t : Table) (condition : Node) :
    (s.withTable b t kind none).setCondition b condition = .ok (s.withTable b t kind (some condition)) := by
  have hset : ∀ l : List DataSource, b ∉ l.map (·.name) →
      Select.setConditionIn b condition (l ++ [⟨b, .table t, some ⟨kind, none⟩, none⟩]) =
        .ok (l ++ [⟨b, .table t, some ⟨kind, some condition⟩, none⟩]) := by
    intro l hl
    induction l with
    | nil => simp [Select.setConditionIn]
    | cons d rest ih =>
      rw [map_cons, mem_cons, not_or] at hl
      have hname : (d.name == b) = false := beq_false_of_ne (Ne.symm hl.1)
      rw [cons_append, Select.setConditionIn, hname, ih hl.2]
      rfl
  rw [Select.setCondition, Select.withTable, Select.addSource, hset s.sources hb]
  rfl

end

/-! ## The run of a join -/

/-- The rows that the parameters of a shape stand for: the second one a row of the other table, the first one a row of
the select. -/
def pairRows (y : String) (left right : Alias × String) : String → Alias × String :=
  fun p => if p = y then right else left

/-- The value of a shape for a row of a select and a row of the other table, each with its entity. -/
def shapeValue (schema : Schema) (y : String) (columns : List ShapeColumn) (left right : Alias × String) : Node :=
  .ofColumns (columns.map (·.entry schema (pairRows y left right)))

/-- The condition of a join is the value of its condition for a value of the shape, where no other row is in view. A
cross join has none. -/
inductive JoinsOn (schema : Schema) (value : Node) : Option Expr → Option Node → Prop
  | always : JoinsOn schema value none none
  | condition {c : Expr} {n : Node} {cx after : Context} (hparams : cx.scope.params = [])
      (hvalue : Yields schema (withParameters (bindInOrder c [value]) (c.visit Recognizer.standard false (some 3))) cx n
        after) : JoinsOn schema value (some c) (some n.asScalar.condition)

/-- A join before its condition is lowered: the select that is lent reads the other table too, and the shape is
known. -/
structure JoinUnderway (schema : Schema) (kind : JoinKind) (s : Select) (b : Alias) (t : Table) (value : Node)
    (p : Progress) (cx : Context) : Prop where
  orderly : cx.Orderly ⟨schema, []⟩
  params : cx.scope.params = []
  lent : cx.lent = [(cx.lastTicket, s.withTable b t kind none)]
  progress : p = { source := some cx.lastTicket, joined := some b, shape := some value }

/-- How a join comes by its value: from the select of the source, whose data sources and conditions do not mention the
other table yet. -/
inductive JoinCall (schema : Schema) (kind : JoinKind) (source : Expr) (entity joined y : String)
    (columns : List ShapeColumn) (condition : Option Expr) (n : Node) : Prop
  | intro {f : Frame} {m : Node} {before opened : Context} {s : Select} {a b : Alias} {left : TableName}
      {entry : Entity} {on : Option Node}
      (hsource : Yields schema (source.visit Recognizer.standard true (some 0)) { Context.empty with frames := [f] } m
        before) (hopen : Yields schema (openQuery source m) { before with scope := before.scope.unbindTo 0 } s opened)
      (hreads : s.ReadsTable a ⟨entity, left⟩) (hbelow : s.Every (Mark.Below b.index)) (hnew : b ∉ s.aliases)
      (hentry : schema.find? joined = some entry)
      (hon : JoinsOn schema (shapeValue schema y columns (a, entity) (b, joined)) condition on)
      (hn : n = .select { s.withTable b ⟨joined, entry.table⟩ kind on with
        projection := some (shapeValue schema y columns (a, entity) (b, joined)) })

section

variable {t : Table}

/-- The parameters of a shape stand for a row of the select and a row of the other table. -/
theorem lookup?_pairRows (hparams : sc.params = []) {p : String} (hp : p = x ∨ p = y)
    (left right : Alias × String) : (sc.bind [(x, .source left.1), (y, .source right.1)]).lookup? p =
      some (.source (pairRows y left right p).1) := by
  rw [Scope.lookup?, Scope.bind, hparams, pairRows]
  by_cases hy : p = y
  · simp [hy]
  · obtain rfl : p = x := hp.resolve_right hy
    simp [hy, lookup_cons, beq_false_of_ne hy]

/-- A lent select does not mention the alias that is handed out next. -/
theorem Context.Upheld.below {k : History} (hcx : cx.Upheld (History.regime schema) k)
    (hs : (ticket, s) ∈ cx.lent) : s.Every (Mark.Below cx.scope.lastAlias.next.index) := by
  obtain ⟨above, happend, habove⟩ := hcx.lent
  have happend : cx.lent = above := happend.trans (append_nil _)
  have hevery : s.Every k.Accepts := Node.every_select.1 (habove (ticket, s) (happend ▸ hs)).2
  refine hevery.mono fun m hm => ?_
  cases m with
  | mention a => exact Nat.lt_succ_of_le (Nat.le_trans hm (Nat.le_of_eq hcx.fits.symm))
  | sources l => trivial

/-- The value of a shape is made of columns of the first data source of a select and of the table joined to it. -/
theorem yields_shapeValue {x y : Param} {left right : TableName} (hshape : shape.asLambda? = some ([x, y], body))
    (hbody : body.IsShape x.name y.name columns) (hcx : cx.Orderly ⟨schema, []⟩) (hparams : cx.scope.params = [])
    (hs : s.ReadsTable a ⟨entity, left⟩) (hlent : cx.lent = [(ticket, s.withTable b ⟨joined, right⟩ kind none)])
    (hp : p.source = some ticket) (hjoined : p.joined = some b)
    (hy : Yields schema (lowerPart (.step (.explicitJoin op kind)) p 2 shape (shape.run)) cx (q, n) cx') :
    q = { p with shape := some n } ∧ cx' = cx ∧ n = shapeValue schema y.name columns (a, entity) (b, joined) := by
  have hregistered := fun {d : DataSource} hd =>
    (hcx.registered (x := d) (hlent ▸ mem_singleton_self _) hd).1
  obtain ⟨more, filter, rfl⟩ := hs
  have ha : cx.scope.shape? a = some (.entity entity) := hregistered mem_cons_self
  have hb : cx.scope.shape? b = some (.entity joined) :=
    hregistered (mem_append_right _ (mem_singleton_self _))
  have hvalue : ∀ {c : Alias} {name : String}, cx.scope.shape? c = some (.entity name) →
      cx.scope.sourceValue c = .source c := fun hc => by
    rw [Scope.sourceValue, hc]
    rfl
  have hrows : ∀ name, cx.scope.shape? (pairRows y.name (a, entity) (b, joined) name).1 =
      some (.entity (pairRows y.name (a, entity) (b, joined) name).2) := by
    intro name
    rw [pairRows]
    split
    · exact hb
    · exact ha
  have hlowers : Lowers schema (cx.scope.bind [(x.name, .source a), (y.name, .source b)]) shape
      (· = shapeValue schema y.name columns (a, entity) (b, joined)) :=
    lowers_lambda hshape (hbody.lowers fun name hname =>
      ⟨lookup?_pairRows hparams hname (a, entity) (b, joined), hrows name⟩)
  exact yields_joinShape hshape hp hjoined hlent (hvalue ha) (hvalue hb) hlowers hy

/-- What follows from the source, the other table and the shape of a join. -/
theorem joinUnderway_of_yields {x y : Param} (hsource : source.FiltersTable entity) (hother : other.IsTable joined)
    (hshape : shape.asLambda? = some ([x, y], body)) (hbody : body.IsShape x.name y.name columns)
    {f : Frame} {p₁ p₂ p₃ : Progress} {n₁ n₂ n₃ : Node} {cx₁ cx₂ cx₃ : Context}
    (hy₁ : Yields schema (lowerPart (.step (.explicitJoin op kind)) {} 0 source (source.run))
      { Context.empty with frames := [f] } (p₁, n₁) cx₁)
    (hy₂ : Yields schema (lowerPart (.step (.explicitJoin op kind)) p₁ 1 other (other.run)) cx₁ (p₂, n₂) cx₂)
    (hy₃ : Yields schema (lowerPart (.step (.explicitJoin op kind)) p₂ 2 shape (shape.run)) cx₂ (p₃, n₃) cx₃) :
    ∃ m before opened s a b left entry,
      Yields schema (source.run true (some 0)) { Context.empty with frames := [f] } m before ∧
      Yields schema (openQuery source m) { before with scope := before.scope.unbindTo 0 } s opened ∧
      s.ReadsTable a ⟨entity, left⟩ ∧ s.Every (Mark.Below b.index) ∧ b ∉ s.aliases ∧
      schema.find? joined = some entry ∧ n₃ = shapeValue schema y.name columns (a, entity) (b, joined) ∧
      JoinUnderway schema kind s b ⟨joined, entry.table⟩ n₃ p₃ cx₃ := by
  obtain ⟨-, hparams, ⟨k, hsound⟩, m, before, s, opened, ready, hm, hopen, hready, rfl, hlent⟩ :=
    yields_clauseSource ⟨[f], rfl⟩ hy₁
  obtain ⟨a, entry', hentry', hreads⟩ := hsource.readsTable ⟨[f], rfl⟩ hm hopen
  obtain rfl : ready = s := by
    obtain ⟨more, filter, rfl⟩ := hreads
    cases hready with
    | asIs => rfl
    | wrapped _ hwrap => cases hwrap
  have hempty : Context.Orderly ⟨schema, []⟩ { Context.empty with frames := [f] } :=
    (Context.orderly_empty schema).withFrames [f]
  obtain ⟨-, -, _, _, -, hupheld₁, rfl, hu₁, -⟩ := (runs_lowerPart (R := Watch.regime ⟨schema, []⟩)
    (.refl (.step (.explicitJoin op kind))) (.start _ _ _) (fun _ => rfl) rfl
    fun _ _ _ _ => source.visit_orderly _ _ _ _ _).of_yields hempty (SamePlace.refl _ _) hy₁
  obtain ⟨-, -, _, _, -, hupheld₂, -⟩ := (runs_lowerPart (R := Watch.regime ⟨schema, []⟩)
    (.refl (.step (.explicitJoin op kind))) hu₁ (by simp) rfl
    fun _ _ _ _ => other.visit_orderly _ _ _ _ _).of_yields hupheld₁ (SamePlace.refl _ _) hy₂
  have horderly₁ := hupheld₁.orderly
  have horderly₂ := hupheld₂.orderly
  obtain ⟨entry, hentry, rfl, rfl⟩ := yields_joinedTable hother rfl hlent hy₂
  have hnew : cx₁.scope.lastAlias.next ∉ ready.aliases := by
    intro hmem
    obtain ⟨d, hd, hname⟩ := mem_map.1 hmem
    have hindex := (Context.Orderly.registered horderly₁ (hlent ▸ mem_singleton_self _) hd).2
    rw [hname] at hindex
    exact absurd hindex (Nat.not_succ_le_self _)
  have hbelow := hsound.below (hlent ▸ mem_singleton_self _)
  obtain ⟨rfl, rfl, rfl⟩ := yields_shapeValue hshape hbody horderly₂ hparams hreads rfl rfl rfl hy₃
  exact ⟨m, before, opened, ready, a, _, _, entry, hm, hopen, hreads, hbelow, hnew, hentry, rfl, horderly₂, hparams,
    rfl, rfl⟩

section

variable (h : JoinUnderway schema kind s b t value p cx) (hb : b ∉ s.aliases)
  (hvalue : ∀ w known, value.Orderly w known)

include h hb hvalue

/-- The condition of a join becomes that of the data source that was joined. -/
theorem JoinUnderway.condition {condition : Expr}
    (hy : Yields schema (lowerPart (.step (.explicitJoin op kind)) p 3 condition (condition.run)) cx (q, n) cx') :
    q = p ∧ JoinsOn schema value (some condition) (some n.asScalar.condition) ∧
      cx'.lent = [(cx.lastTicket, s.withTable b t kind (some n.asScalar.condition))] := by
  obtain ⟨horderly, hparams, hlent, rfl⟩ := h
  obtain ⟨rfl, mid, hn, hset⟩ := yields_joinCondition rfl rfl rfl hy
  have hmid := lent_eq_of_yields horderly hparams hlent hvalue hn
  simp only [setLentCondition, yields_bind, yields_lentQuery, yields_ofResult, yields_setLent] at hset
  obtain ⟨s', _, ⟨hs', rfl⟩, _, _, ⟨hs'', rfl⟩, -, rfl⟩ := hset
  rw [hmid, hlent, lookup_cons_self, Option.some.injEq] at hs'
  obtain rfl := hs'
  rw [setCondition_withTable hb] at hs''
  obtain rfl := Except.ok.inj hs''
  refine ⟨rfl, .condition hparams hn, ?_⟩
  simp [Context.setLent, hmid, hlent, Context.replaceIn_cons]

/-- What follows from the condition of a join, if it has one. -/
theorem JoinUnderway.joinsOn {condition : Option Expr}
    (hy : Yields schema (lowerParts (.step (.explicitJoin op kind)) p 3
      (condition.toList.zip (condition.toList.map Expr.run))) cx (q, ns) cx') :
    ∃ on, JoinsOn schema value condition on ∧ q.source = some cx.lastTicket ∧
      cx'.lent = [(cx.lastTicket, s.withTable b t kind on)] := by
  cases condition with
  | none =>
    obtain ⟨hq, rfl⟩ := yields_pure.1 hy
    obtain ⟨rfl, -⟩ := Prod.mk.inj hq
    exact ⟨none, .always, congrArg Progress.source h.progress, h.lent⟩
  | some c =>
    simp only [Option.toList_some, map_cons, map_nil, zip_cons_cons, zip_nil_left, lowerParts,
      yields_bind, yields_pure] at hy
    obtain ⟨⟨_, n⟩, mid, hn, _, _, ⟨rfl, rfl⟩, hq, rfl⟩ := hy
    obtain ⟨rfl, -⟩ := Prod.mk.inj hq
    obtain ⟨rfl, hon, hlent⟩ := h.condition hb hvalue hn
    exact ⟨_, hon, congrArg Progress.source h.progress, hlent⟩

end

/-- A join has the shape as the value of its rows. -/
theorem yields_joinFinish (hp : p.source = some ticket)
    (hlent : cx.lent = [(ticket, s)]) (hs : s.isGrouped = false) (hvalue : value.IsValue) (hns : ns[2]? = some value)
    (hy : Yields schema ((Rule.step (.explicitJoin op kind)).finish e p ns) cx n cx') :
    n = .select { s with projection := some value } := by
  simp only [Rule.finish, yields_bind, yields_known, yields_reclaim] at hy
  obtain ⟨_, _, ⟨hp', rfl⟩, s', _, hreclaim, hfinish⟩ := hy
  obtain rfl := Option.mem_unique hp hp'
  obtain ⟨rfl, rfl⟩ := Context.eq_of_reclaim hlent hreclaim
  simp only [Step.finish] at hfinish
  split at hfinish
  · simp only [yields_bind, not_yields_throw, false_and, exists_false] at hfinish
  · simp only [yields_bind, yields_part, yields_pure, hns, Option.some.injEq] at hfinish
    obtain ⟨_, _, ⟨rfl, rfl⟩, rfl, -⟩ := hfinish
    rw [Select.project, hs, Bool.and_false, hvalue.asScalar_eq]
    rfl

/-- The rule of a join. -/
theorem rule_join (hmethod : Operator.ofMethod? method = some op)
    (hop : op.joins? = some kind) : Expr.rule? (.call method none args ty) = some (.step (.explicitJoin op kind)) := by
  cases op with
  | innerJoin | leftJoin | rightJoin | fullOuterJoin | crossJoin =>
    obtain rfl := Option.some.inj hop
    exact rule_ungrouped hmethod rfl
  | _ => cases hop

theorem Expr.Joins.exists_rule {condition : Option Expr}
    (he : e.Joins kind source other shape condition) : ∃ op, e.rule? = some (.step (.explicitJoin op kind)) := by
  cases he with
  | call ty hmethod hop => exact ⟨_, rule_join hmethod hop⟩

/-- The run of a join. -/
theorem joinCall_of_yields {x y : Param}
    {condition : Option Expr} (he : e.Joins kind source other shape condition) (hsource : source.FiltersTable entity)
    (hother : other.IsTable joined) (hshape : shape.asLambda? = some ([x, y], body))
    (hbody : body.IsShape x.name y.name columns) (hy : Yields schema (e.run true none) .empty n cx') :
    JoinCall schema kind source entity joined y.name columns condition n := by
  obtain @⟨method, op, _, _, _, _, _, ty, hmethod, hop, -⟩ := he
  obtain ⟨after, hby, rfl⟩ := (yields_visit_iff (rule_join hmethod hop)).1 hy
  simp only [lowerBy, Expr.children, Option.toList_none, nil_append, map_cons, zip_cons_cons,
    lowerParts, Bool.not_true, Bool.and_false, Bool.false_eq_true, ↓reduceIte, yields_bind, yields_pure] at hby
  obtain ⟨_, _, ⟨⟨p₁, n₁⟩, cx₁, hy₁, _, _, ⟨⟨p₂, n₂⟩, cx₂, hy₂, _, _, ⟨⟨p₃, n₃⟩, cx₃, hy₃, ⟨p₄, ns⟩, cx₄, hy₄,
    rfl, rfl⟩, rfl, rfl⟩, rfl, rfl⟩, n', last, hfinish, rfl, rfl⟩ := hby
  obtain ⟨m, before, opened, s, a, b, left, entry, hm, hopen, hreads, hbelow, hnew, hentry, rfl, hunderway⟩ :=
    joinUnderway_of_yields hsource hother hshape hbody hy₁ hy₂ hy₃
  have hgrouped : ∀ on, (s.withTable b ⟨joined, entry.table⟩ kind on).isGrouped = false := by
    obtain ⟨more, filter, rfl⟩ := hreads
    exact fun _ => rfl
  obtain ⟨on, hon, hp₄, hlent⟩ := hunderway.joinsOn hnew hbody.orderly hy₄
  obtain rfl := yields_joinFinish hp₄ hlent (hgrouped on) hbody.isValue rfl hfinish
  exact .intro hm hopen hreads hbelow hnew hentry hon rfl

end

end QueryLowering
